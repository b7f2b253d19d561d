import Talea.Log.Runtime
import Talea.Lib.HashMap
import Talea.Lib.SortedPairs

/-!
# The tiered idempotency index

Recent keys sit in a hot map; when it grows past its capacity the oldest half
is written to a sorted run file, and a Bloom filter over the runs decides
whether a lookup has to touch them.  More than eight runs are merged into one.

Run files are written by the tmp-then-rename discipline, so a file of a run's
name is either a whole run or, if something else damaged it, unreadable.  The
store carries on after every I/O error of this layer; which of them occur is an
argument of the operations.
-/

namespace Talea.Log

/-- Serialisable mirror of `Committed`. -/
abbrev CommittedRec := Committed

/-! ## Bloom filter -/

structure Bloom where
  /-- Indices of the bits that are set. -/
  bits : Finset ℕ
  m : ℕ

namespace Bloom

def hashCount : ℕ := 4

/-- A filter sized for `expectedN` keys: ten bits a key, in whole words. -/
def new (expectedN : ℕ) : Bloom :=
  ⟨∅, (10 * max expectedN 1 + 63) / 64 * 64⟩

variable (rt : Runtime)

/-- Double hashing with wrap-around in 64 bits. -/
def hashes (bloom : Bloom) (key : String) : List ℕ :=
  (List.range hashCount).map fun i =>
    (rt.bloomHash1 key + UInt64.ofNat i * rt.bloomHash2 key).toNat % bloom.m

def insert (bloom : Bloom) (key : String) : Bloom :=
  { bloom with bits := bloom.bits ∪ (bloom.hashes rt key).toFinset }

def mightContain (bloom : Bloom) (key : String) : Bool :=
  (bloom.hashes rt key).all fun bit => decide (bit ∈ bloom.bits)

def insertAll (bloom : Bloom) (pairs : List (String × CommittedRec)) : Bloom :=
  pairs.foldl (fun bloom pair => bloom.insert rt pair.1) bloom

end Bloom

/-! ## Run files -/

inductive RunFile
  | intact (pairs : List (String × CommittedRec))
  | damaged
  deriving DecidableEq

/-- The run files of a book, by number. -/
abbrev RunDir := AList fun _ : ℕ => RunFile

structure RunMeta where
  n : ℕ
  keyRange : String × String
  len : ℕ
  deriving DecidableEq

/-- The metadata of a run that holds the sorted `pairs`. -/
def RunMeta.of (n : ℕ) (pairs : List (String × CommittedRec)) : RunMeta where
  n
  keyRange := ((pairs.head?.map Prod.fst).getD "", (pairs.getLast?.map Prod.fst).getD "")
  len := pairs.length

def nextRunN (existing : List RunMeta) : ℕ :=
  match (existing.map RunMeta.n).max? with
  | some n => n + 1
  | none => 0

/-- How an atomic tmp-then-rename write ends: done, failed before the rename,
or reported as failed although the file is in place. -/
inductive WriteOutcome
  | written
  | failed
  | renamed
  deriving DecidableEq

/-- What the operating system does to the I/O of one flush. -/
structure SpillIo where
  encodes : Bool
  write : WriteOutcome
  mergeEncodes : Bool
  mergeWrite : WriteOutcome
  removes : ℕ → Bool

/-- No I/O error. -/
def SpillIo.ok : SpillIo :=
  ⟨true, .written, true, .written, fun _ => true⟩

/-- Remove those of the files `ns` whose removal works. -/
def RunDir.removeAll (dir : RunDir) (removes : ℕ → Bool) (ns : List ℕ) : RunDir :=
  ns.foldl (fun dir n => if removes n then dir.erase n else dir) dir

/-! ## The index -/

structure TieredIdem where
  hot : HashMap String CommittedRec
  order : List String
  cap : ℕ
  runs : List RunMeta
  bloom : Bloom

def defaultIdemHotCap : ℕ := 1000000

namespace TieredIdem

def withCap (cap : ℕ) : TieredIdem :=
  ⟨∅, [], cap, [], Bloom.new cap⟩

/-- Insert a key into the hot map. -/
def insert (idem : TieredIdem) (key : String) (rec : CommittedRec) : TieredIdem :=
  { idem with
    order := if key ∈ idem.hot then idem.order else idem.order ++ [key]
    hot := idem.hot.insert key rec }

def getHot (idem : TieredIdem) (key : String) : Option CommittedRec :=
  idem.hot.lookup key

def needsFlush (idem : TieredIdem) : Bool :=
  idem.cap < idem.hot.keys.card

variable (rt : Runtime)

def bloomMightContain (idem : TieredIdem) (key : String) : Bool :=
  idem.bloom.mightContain rt key

/-- Look a key up in the given runs, newest first.  `reads n` says whether
reading run `n` works; a run that cannot be read is taken for a miss. -/
def searchRuns (reads : ℕ → Bool) (dir : RunDir) (key : String) :
    List RunMeta → Option CommittedRec
  | [] => none
  | info :: older =>
      if key < info.keyRange.1 ∨ info.keyRange.2 < key then searchRuns reads dir key older
      else
        match (if reads info.n then dir.lookup info.n else none) with
        | some (.intact pairs) =>
            match SortedPairs.search pairs key with
            | some rec => some rec
            | none => searchRuns reads dir key older
        | _ => searchRuns reads dir key older

def lookupRuns (idem : TieredIdem) (reads : ℕ → Bool) (dir : RunDir) (key : String) :
    Option CommittedRec :=
  searchRuns reads dir key idem.runs.reverse

/-- Full lookup: hot map, Bloom filter, runs. -/
def get (idem : TieredIdem) (reads : ℕ → Bool) (dir : RunDir) (key : String) :
    Option CommittedRec :=
  match idem.getHot key with
  | some rec => some rec
  | none => if idem.bloomMightContain rt key then idem.lookupRuns reads dir key else none

/-- Take `n` times the oldest key of the order and move its record out of the
hot map: the spilled pairs, and what is left of the order and the map. -/
def drain : ℕ → List String → HashMap String CommittedRec →
    List (String × CommittedRec) × List String × HashMap String CommittedRec
  | 0, order, hot => ([], order, hot)
  | _ + 1, [], hot => ([], [], hot)
  | n + 1, key :: order, hot =>
      match hot.lookup key with
      | none => drain n order hot
      | some rec =>
          let (spilled, order, hot) := drain n order (hot.erase key)
          ((key, rec) :: spilled, order, hot)

/-- Put spilled pairs back into the hot map. -/
def putBack (spilled : List (String × CommittedRec)) (hot : HashMap String CommittedRec) :
    HashMap String CommittedRec :=
  spilled.foldl (fun hot pair => hot.insert pair.1 pair.2) hot

/-- The contents of the given runs, in their order; nothing if one of them
cannot be read. -/
def readRuns (dir : RunDir) : List RunMeta → Option (List (String × CommittedRec))
  | [] => some []
  | info :: rest =>
      match dir.lookup info.n with
      | some (.intact pairs) => (readRuns dir rest).map fun later => pairs ++ later
      | _ => none

/-- Merge all runs into one; on failure they stay as they are. -/
def mergeRuns (io : SpillIo) (idem : TieredIdem) (dir : RunDir) : TieredIdem × RunDir :=
  if idem.runs.length ≤ 1 then (idem, dir)
  else
    match readRuns dir idem.runs with
    | none => (idem, dir)
    | some pairs =>
        let merged := SortedPairs.dedup (SortedPairs.sort pairs)
        let mergedN := nextRunN idem.runs
        if io.mergeEncodes then
          match io.mergeWrite with
          | .failed => (idem, dir)
          | .renamed => (idem, dir.insert mergedN (.intact merged))
          | .written =>
              ({ idem with
                  runs := if merged = [] then [] else [RunMeta.of mergedN merged]
                  bloom := (Bloom.new (max merged.length idem.cap)).insertAll rt merged },
                RunDir.removeAll (dir.insert mergedN (.intact merged)) io.removes
                  (idem.runs.map RunMeta.n))
        else (idem, dir)

/-- Drain the oldest half of the hot map into a new run.  On failure the
drained keys return to the hot map. -/
def flushSpill (io : SpillIo) (idem : TieredIdem) (dir : RunDir) : TieredIdem × RunDir :=
  let drainN := idem.hot.keys.card / 2
  if drainN = 0 then (idem, dir)
  else
    let (drained, order, hot) := drain drainN idem.order idem.hot
    if drained = [] then ({ idem with order, hot }, dir)
    else
      let spilled := SortedPairs.sort drained
      let n := nextRunN idem.runs
      -- both failure paths push to the front of the order, one pair at a time;
      -- only the second one walks the pairs backwards
      if io.encodes then
        let kept := { idem with
          order := spilled.map Prod.fst ++ order
          hot := putBack spilled.reverse hot }
        match io.write with
        | .failed => (kept, dir)
        | .renamed => (kept, dir.insert n (.intact spilled))
        | .written =>
            let flushed := { idem with
              order, hot
              runs := idem.runs ++ [RunMeta.of n spilled]
              bloom := idem.bloom.insertAll rt spilled }
            let dir := dir.insert n (.intact spilled)
            if 8 < flushed.runs.length then mergeRuns rt io flushed dir else (flushed, dir)
      else
        ({ idem with
            order := (spilled.map Prod.fst).reverse ++ order
            hot := putBack spilled hot }, dir)

/-- The metadata of the files `ns`, or nothing if one of them is damaged.  An
empty run is left out. -/
def validateRuns (dir : RunDir) : List ℕ → Option (List RunMeta)
  | [] => some []
  | n :: rest =>
      match dir.lookup n with
      | some (.intact pairs) =>
          (validateRuns dir rest).map fun infos =>
            if pairs = [] then infos else RunMeta.of n pairs :: infos
      | _ => none

/-- Write the keys of `pairs` that are not hot to a single run, in place of
every run file there is. -/
def rebuildRuns (io : SpillIo) (hot : HashMap String CommittedRec) (dir : RunDir)
    (ns : List ℕ) (pairs : List (String × CommittedRec)) : List RunMeta × RunDir :=
  let spillPairs := pairs.filter fun pair => pair.1 ∉ hot
  let dir := dir.removeAll io.removes ns
  if spillPairs = [] then ([], dir)
  else
    let sorted := SortedPairs.sort spillPairs
    let n := nextRunN []
    if io.encodes then
      match io.write with
      | .failed => ([], dir)
      | .renamed => ([], dir.insert n (.intact sorted))
      | .written => ([RunMeta.of n sorted], dir.insert n (.intact sorted))
    else ([], dir)

/-- The pairs of the runs a Bloom filter is rebuilt from. -/
def runPairs (dir : RunDir) (infos : List RunMeta) : List (String × CommittedRec) :=
  infos.flatMap fun info =>
    match dir.lookup info.n with
    | some (.intact pairs) => pairs
    | _ => []

/-- Load the run files of a directory.  They are rebuilt from the `rebuild`
pairs when one is damaged or there are none. -/
def attachDir (io : SpillIo) (idem : TieredIdem) (dir : RunDir)
    (rebuild : List (String × CommittedRec)) : TieredIdem × RunDir :=
  let ns := dir.keys.insertionSort (· ≤ ·)
  let (infos, dir) :=
    match validateRuns dir ns with
    | some infos => if ns = [] then rebuildRuns io idem.hot dir ns rebuild else (infos, dir)
    | none => rebuildRuns io idem.hot dir ns rebuild
  ({ idem with
      runs := infos
      bloom := (Bloom.new idem.cap).insertAll rt (runPairs dir infos) }, dir)

end TieredIdem

end Talea.Log
