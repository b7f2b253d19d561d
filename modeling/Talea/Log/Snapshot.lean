import Talea.Log.State

/-!
# Snapshots

A snapshot file is a checksum and the JSON of a `BookState`.  The JSON has the
fields that are not skipped: posting histories as flat lists, and of the
idempotency index the hot map, its order and the capacity.  Loading goes
through the files from the newest to the oldest and takes the first one that
reads back.
-/

namespace Talea.Log

structure AccountJson where
  account : AccountDef
  cfg : AccountCfg
  rawBalance : Int
  updatedSeq : Int
  postings : List PostingEntry
  deriving DecidableEq

/-- The serialised fields of a book state. -/
structure StateJson where
  nextSeq : Int
  accounts : HashMap String AccountJson
  hot : HashMap String CommittedRec
  order : List String
  cap : ℕ
  txids : HashMap ℕ (Int × FramePos)
  sums : HashMap AssetId (Int × Int)
  lastAt : Option Int

def AccountState.serialize (acct : AccountState) : AccountJson where
  account := acct.account
  cfg := acct.cfg
  rawBalance := acct.rawBalance
  updatedSeq := acct.updatedSeq
  postings := acct.postings.flat

def AccountJson.deserialize (json : AccountJson) : AccountState where
  account := json.account
  cfg := json.cfg
  rawBalance := json.rawBalance
  updatedSeq := json.updatedSeq
  postings := .ofFlat json.postings

def BookState.serialize (state : BookState) : StateJson where
  nextSeq := state.nextSeq
  accounts := HashMap.mapVals AccountState.serialize state.accounts
  hot := state.idem.hot
  order := state.idem.order
  cap := state.idem.cap
  txids := state.txids
  sums := state.sums
  lastAt := state.lastAt

/-- The skipped fields of the index come back as their defaults. -/
def StateJson.deserialize (json : StateJson) : BookState where
  nextSeq := json.nextSeq
  accounts := HashMap.mapVals AccountJson.deserialize json.accounts
  idem := ⟨json.hot, json.order, json.cap, [], Bloom.new 1⟩
  txids := json.txids
  sums := json.sums
  lastAt := json.lastAt

inductive SnapFile
  | intact (json : StateJson)
  | corrupt

/-- The snapshot files of a book, by the seq in their names. -/
abbrev SnapDir := AList fun _ : Int => SnapFile

/-- The seqs of the snapshot files, newest first. -/
def SnapDir.newestFirst (dir : SnapDir) : List Int :=
  dir.keys.insertionSort (· ≥ ·)

/-- What the operating system does to the I/O of one snapshot. -/
structure SnapIo where
  write : WriteOutcome
  removes : Int → Bool

def SnapIo.ok : SnapIo :=
  ⟨.written, fun _ => true⟩

/-- Remove all but the two newest snapshots, as far as removal works. -/
def SnapDir.pruneOld (dir : SnapDir) (removes : Int → Bool) : SnapDir :=
  (dir.newestFirst.drop 2).foldl
    (fun dir seq => if removes seq then dir.erase seq else dir) dir

/-- Write a snapshot of `state` at `lastSeq`. -/
def writeSnapshot (io : SnapIo) (dir : SnapDir) (state : BookState) (lastSeq : Int) :
    Except String Unit × SnapDir :=
  let file := SnapFile.intact state.serialize
  match io.write with
  | .failed => (.error "snapshot write", dir)
  | .renamed => (.error "snapshot directory sync", dir.insert lastSeq file)
  | .written => (.ok (), SnapDir.pruneOld (dir.insert lastSeq file) io.removes)

/-- The first of the given snapshots that reads back. -/
def firstIntact (dir : SnapDir) : List Int → Option (BookState × Int)
  | [] => none
  | seq :: older =>
      match dir.lookup seq with
      | some (.intact json) => some (json.deserialize, seq)
      | _ => firstIntact dir older

/-- Load the newest valid snapshot. -/
def loadLatest (dir : SnapDir) : Option (BookState × Int) :=
  firstIntact dir dir.newestFirst

end Talea.Log
