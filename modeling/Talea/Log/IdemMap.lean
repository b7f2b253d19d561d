import Talea.Log.BinaryRuntime
import Talea.Log.IdemIndex

/-!
# The index is a map

Whatever is inserted, spilled, merged and attached again, and whichever writes
and removals fail, a lookup in the index is one in the map of what was inserted.
A file that the index refers to is neither overwritten nor removed while it does.
-/

namespace Talea.Log

/-- An operation on the index and its directory; `rebuild` is what a scan of
the log returns. -/
inductive IdemOp
  | insert (key : String) (rec : CommittedRec)
  | flushSpill (io : SpillIo)
  | mergeRuns (io : SpillIo)
  | attachDir (io : SpillIo) (rebuild : List (String × CommittedRec))

namespace IdemOp

/-- What an operation inserts. -/
def record (inserted : HashMap String CommittedRec) : IdemOp → HashMap String CommittedRec
  | .insert key rec => inserted.insert key rec
  | _ => inserted

/-- A key comes with an equal record only, and the log has what was inserted. -/
def allowed (inserted : HashMap String CommittedRec) : IdemOp → Bool
  | .insert key rec => (inserted.lookup key).all fun old => old = rec
  | .attachDir _ rebuild => rebuild.all fun pair => inserted.lookup pair.1 = some pair.2
  | _ => true

/-- All operations are allowed, each behind the ones before it. -/
def allAllowed : HashMap String CommittedRec → List IdemOp → Bool
  | _, [] => true
  | inserted, op :: ops => op.allowed inserted && allAllowed (op.record inserted) ops

end IdemOp

/-- The map an index stands for. -/
def inserted (ops : List IdemOp) : HashMap String CommittedRec :=
  ops.foldl IdemOp.record ∅

namespace TieredIdem

def step (rt : Runtime) (state : TieredIdem × RunDir) : IdemOp → TieredIdem × RunDir
  | .insert key rec => (state.1.insert key rec, state.2)
  | .flushSpill io => state.1.flushSpill rt io state.2
  | .mergeRuns io => state.1.mergeRuns rt io state.2
  | .attachDir io rebuild => state.1.attachDir rt io state.2 rebuild

/-- A run from an empty index and an empty directory on. -/
def exec (rt : Runtime) (cap : ℕ) (ops : List IdemOp) : TieredIdem × RunDir :=
  ops.foldl (step rt) (withCap cap, ∅)

/-- A file the index refers to stays as it is, or is removed together with the
reference. -/
def KeepsLive (before after : TieredIdem × RunDir) : Prop :=
  ∀ n ∈ before.1.runNs, after.2.lookup n = before.2.lookup n ∨
    after.2.lookup n = none ∧ n ∉ after.1.runNs

variable {rt : Runtime} {idem : TieredIdem} {dir : RunDir}
  {pairs more : List (String × CommittedRec)}

/-! ## Steps -/

theorem Indexes.insert (hindex : idem.Indexes rt dir pairs) {key : String} {rec : CommittedRec}
    (hsub : ∀ pair ∈ pairs, pair ∈ more) (hmem : (key, rec) ∈ more)
    (hnew : ∀ pair ∈ more, pair ∈ pairs ∨ pair.1 = key) :
    (idem.insert key rec).Indexes rt dir more where
  hot_holds := (hindex.hot_holds.mono hsub).insert hmem
  dir_holds := hindex.dir_holds.mono hsub
  registered info hinfo := by
    obtain ⟨run, hlookup, hmeta, hrun, hfilter⟩ := hindex.registered info hinfo
    exact ⟨run, hlookup, hmeta, ⟨hrun.ascending, hrun.ne_nil,
      fun pair hpair => hsub pair (hrun.subset pair hpair)⟩, hfilter⟩
  covers pair hpair := by
    rcases hnew pair hpair with hold | hkey
    · exact (hindex.covers pair hold).imp_left fun hhot => Finmap.mem_insert.2 (Or.inr hhot)
    · exact Or.inl (Finmap.mem_insert.2 (Or.inl hkey))

/-- Attaching a directory with run files does not look at the log. -/
theorem attachDir_of_files (hdir : dir.Holds pairs) {n : ℕ} (hn : n ∈ dir) (io : SpillIo)
    (rebuild : List (String × CommittedRec)) :
    idem.attachDir rt io dir rebuild = idem.attachDir rt io dir [] := by
  have hmem : ∀ other, other ∈ dir.keys.insertionSort (· ≤ ·) ↔ other ∈ dir := fun other => by
    rw [List.mem_insertionSort, AList.mem_keys]
  obtain ⟨infos, hvalid, -⟩ := validateRuns_spec hdir fun other hother => (hmem other).1 hother
  have hfiles : dir.keys.insertionSort (· ≤ ·) ≠ [] := List.ne_nil_of_mem ((hmem n).2 hn)
  rw [attachDir, attachDir]
  simp only [hvalid, if_neg hfiles]

/-- Attaching the directory again. -/
theorem Indexes.attachDir (hindex : idem.Indexes rt dir pairs) (io : SpillIo)
    {rebuild : List (String × CommittedRec)} (hrebuild : ∀ pair ∈ rebuild, pair ∈ pairs) :
    (idem.attachDir rt io dir rebuild).1.Indexes rt (idem.attachDir rt io dir rebuild).2 pairs ∧
      (idem.attachDir rt io dir rebuild).2 = dir := by
  have hcovers : ∀ pair ∈ pairs, pair.1 ∈ idem.hot ∨ dir.HasAny pair := fun pair hpair =>
    (hindex.covers pair hpair).imp_right RunDir.Has.any
  by_cases hfiles : ∃ n, n ∈ dir
  · obtain ⟨n, hn⟩ := hfiles
    have hnone : ∀ pair ∈ ([] : List (String × CommittedRec)), pair.1 ∈ idem.hot := by simp
    obtain ⟨hattached, hsame, -⟩ :=
      Indexes.of_attachDir rt hindex.hot_holds hindex.dir_holds io hnone hcovers
    rw [attachDir_of_files hindex.dir_holds hn]
    exact ⟨hattached, hsame⟩
  · -- without a run file every pair is hot
    have hhot : ∀ pair ∈ rebuild, pair.1 ∈ idem.hot := by
      intro pair hpair
      refine (hcovers pair (hrebuild pair hpair)).resolve_right ?_
      rintro ⟨n, run, hlookup, -⟩
      exact hfiles ⟨n, AList.lookup_isSome.1 (by simp [hlookup])⟩
    obtain ⟨hattached, hsame, -⟩ :=
      Indexes.of_attachDir rt hindex.hot_holds hindex.dir_holds io hhot hcovers
    exact ⟨hattached, hsame⟩

/-! ## Live files -/

theorem KeepsLive.of_lookup {before after : TieredIdem × RunDir}
    (hsame : ∀ n ∈ before.1.runNs, after.2.lookup n = before.2.lookup n) :
    KeepsLive before after :=
  fun n hn => Or.inl (hsame n hn)

/-- A first step that keeps every reference and its file. -/
theorem KeepsLive.after {before mid after : TieredIdem × RunDir}
    (hfirst : ∀ n ∈ before.1.runNs, n ∈ mid.1.runNs ∧ mid.2.lookup n = before.2.lookup n)
    (hsecond : KeepsLive mid after) : KeepsLive before after := by
  intro n hn
  obtain ⟨hlive, hsame⟩ := hfirst n hn
  rw [← hsame]
  exact hsecond n hlive

theorem keepsLive_mergeRuns (io : SpillIo) (idem : TieredIdem) (dir : RunDir) :
    KeepsLive (idem, dir) (idem.mergeRuns rt io dir) := by
  have hfresh : nextRunN idem.runs ∉ idem.runNs := nextRunN_notMem idem.runs
  have hinsert : ∀ file : RunFile, ∀ n ∈ idem.runNs,
      (dir.insert (nextRunN idem.runs) file).lookup n = dir.lookup n := by
    intro file n hn
    rw [RunDir.lookup_insert_ite, if_neg]
    rintro rfl
    exact hfresh hn
  unfold mergeRuns
  split
  · exact .of_lookup fun _ _ => rfl
  split
  · exact .of_lookup fun _ _ => rfl
  next read hread =>
  dsimp only
  split
  · split
    · exact .of_lookup fun _ _ => rfl
    · exact .of_lookup (hinsert _)
    · intro n hn
      dsimp only
      rw [RunDir.lookup_removeAll]
      split
      · -- the merged run has a number of its own
        refine Or.inr ⟨rfl, fun hlive => ?_⟩
        rw [runNs] at hlive
        dsimp only at hlive
        split at hlive
        · simp at hlive
        · have hnumber : n = nextRunN idem.runs := List.mem_singleton.1 hlive
          exact hfresh (hnumber ▸ hn)
      · exact Or.inl (hinsert _ n hn)
  · exact .of_lookup fun _ _ => rfl

theorem keepsLive_flushSpill (io : SpillIo) (idem : TieredIdem) (dir : RunDir) :
    KeepsLive (idem, dir) (idem.flushSpill rt io dir) := by
  have hfresh : nextRunN idem.runs ∉ idem.runNs := nextRunN_notMem idem.runs
  have hinsert : ∀ file : RunFile, ∀ n ∈ idem.runNs,
      (dir.insert (nextRunN idem.runs) file).lookup n = dir.lookup n := by
    intro file n hn
    rw [RunDir.lookup_insert_ite, if_neg]
    rintro rfl
    exact hfresh hn
  unfold flushSpill
  dsimp only
  split
  · exact .of_lookup fun _ _ => rfl
  split
  · exact .of_lookup fun _ _ => rfl
  split
  · split
    · exact .of_lookup fun _ _ => rfl
    · exact .of_lookup (hinsert _)
    · split
      · refine KeepsLive.after (fun n hn => ⟨?_, hinsert _ n hn⟩) (keepsLive_mergeRuns io _ _)
        rw [runNs, List.map_append]
        exact List.mem_append_left _ hn
      · exact .of_lookup (hinsert _)
  · exact .of_lookup fun _ _ => rfl

/-! ## Runs -/

/-- The index holds what was inserted, each key once. -/
def Represents (rt : Runtime) (map : HashMap String CommittedRec)
    (state : TieredIdem × RunDir) : Prop :=
  ∃ pairs, (pairs.map Prod.fst).Nodup ∧
    (∀ key rec, (key, rec) ∈ pairs ↔ map.lookup key = some rec) ∧
    state.1.Indexes rt state.2 pairs

theorem represents_withCap (rt : Runtime) (cap : ℕ) : Represents rt ∅ (withCap cap, ∅) := by
  refine ⟨[], List.nodup_nil, by simp, hotHolds_withCap cap [], ?_, ?_, ?_⟩
  · intro n file hlookup
    simp at hlookup
  · simp [withCap]
  · simp

variable {map : HashMap String CommittedRec} {state : TieredIdem × RunDir}

theorem Represents.insert (hstate : Represents rt map state) {key : String} {rec : CommittedRec}
    (hallowed : (map.lookup key).all (fun old => old = rec) = true) :
    Represents rt (map.insert key rec) (state.1.insert key rec, state.2) := by
  obtain ⟨pairs, hnodup, hpairs, hindex⟩ := hstate
  have hlookup : ∀ other found, (map.insert key rec).lookup other = some found ↔
      (other, found) = (key, rec) ∨ other ≠ key ∧ map.lookup other = some found := by
    intro other found
    rw [HashMap.lookup_insert_ite]
    by_cases hsame : other = key
    · simp [hsame, eq_comm]
    · simp [hsame]
  cases hold : map.lookup key with
  | some old =>
      rw [hold] at hallowed
      obtain rfl : old = rec := by simpa using hallowed
      have hmem : (key, old) ∈ pairs := (hpairs key old).2 hold
      refine ⟨pairs, hnodup, fun other found => ?_,
        hindex.insert (fun _ h => h) hmem fun pair hpair => Or.inl hpair⟩
      rw [hlookup, hpairs]
      by_cases hsame : other = key
      · subst hsame
        simp [hold, eq_comm]
      · simp [hsame]
  | none =>
      have hnew : key ∉ pairs.map Prod.fst := by
        intro hmem
        obtain ⟨⟨other, found⟩, hpair, rfl⟩ := List.mem_map.1 hmem
        rw [(hpairs other found).1 hpair] at hold
        cases hold
      refine ⟨(key, rec) :: pairs, List.nodup_cons.2 ⟨hnew, hnodup⟩, fun other found => ?_,
        hindex.insert (fun _ h => List.mem_cons_of_mem _ h) List.mem_cons_self fun pair hpair => ?_⟩
      · rw [hlookup, List.mem_cons, hpairs]
        refine or_congr_right ⟨fun hfound => ⟨?_, hfound⟩, And.right⟩
        rintro rfl
        rw [hold] at hfound
        cases hfound
      · rcases List.mem_cons.1 hpair with rfl | hin
        · exact Or.inr rfl
        · exact Or.inl hin

theorem Represents.step (hstate : Represents rt map state) {op : IdemOp}
    (hallowed : op.allowed map = true) :
    Represents rt (op.record map) (TieredIdem.step rt state op) := by
  cases op with
  | insert key rec => exact hstate.insert hallowed
  | flushSpill io =>
      obtain ⟨pairs, hnodup, hpairs, hindex⟩ := hstate
      exact ⟨pairs, hnodup, hpairs, (hindex.flushSpill hnodup io).indexes⟩
  | mergeRuns io =>
      obtain ⟨pairs, hnodup, hpairs, hindex⟩ := hstate
      exact ⟨pairs, hnodup, hpairs, (hindex.mergeRuns hnodup io).indexes⟩
  | attachDir io rebuild =>
      obtain ⟨pairs, hnodup, hpairs, hindex⟩ := hstate
      refine ⟨pairs, hnodup, hpairs, (hindex.attachDir io fun pair hpair => ?_).1⟩
      exact (hpairs pair.1 pair.2).2 (by simpa using List.all_eq_true.1 hallowed pair hpair)

theorem Represents.foldl (hstate : Represents rt map state) {ops : List IdemOp}
    (hallowed : IdemOp.allAllowed map ops = true) :
    Represents rt (ops.foldl IdemOp.record map) (ops.foldl (TieredIdem.step rt) state) := by
  induction ops generalizing map state with
  | nil => exact hstate
  | cons op ops ih =>
      rw [IdemOp.allAllowed, Bool.and_eq_true] at hallowed
      exact ih (hstate.step hallowed.1) hallowed.2

/-- Any further operation leaves the files alone that the index refers to. -/
theorem Represents.keepsLive (hstate : Represents rt map state) (op : IdemOp) :
    KeepsLive state (TieredIdem.step rt state op) := by
  cases op with
  | insert key rec => exact .of_lookup fun _ _ => rfl
  | flushSpill io => exact keepsLive_flushSpill io state.1 state.2
  | mergeRuns io => exact keepsLive_mergeRuns io state.1 state.2
  | attachDir io rebuild =>
      obtain ⟨pairs, -, -, hindex⟩ := hstate
      intro n hn
      obtain ⟨info, hinfo, rfl⟩ := List.mem_map.1 hn
      obtain ⟨run, hlookup, -⟩ := hindex.registered info hinfo
      have hfile : info.n ∈ state.2 := AList.lookup_isSome.1 (by simp [hlookup])
      rw [TieredIdem.step, attachDir_of_files hindex.dir_holds hfile, (hindex.attachDir io (by simp)).2]
      exact Or.inl rfl

end TieredIdem

/-- In every run of insertions, flushes, merges and attachments, whichever
writes and removals fail: a lookup finds the record that was inserted under a
key, and nothing under any other key; each run that the index refers to is in
its file, sorted by key; the order lists the hot keys, each once; and no further
operation overwrites or removes a file the index still refers to. -/
theorem tiered_idem_faithful (rt : Runtime) (cap : ℕ) (ops : List IdemOp)
    (hallowed : IdemOp.allAllowed ∅ ops = true) :
    let state := TieredIdem.exec rt cap ops
    (∀ key, state.1.get rt allReadable state.2 key = (inserted ops).lookup key) ∧
      (∀ info ∈ state.1.runs, ∃ run, state.2.lookup info.n = some (.intact run) ∧
        info = RunMeta.of info.n run ∧ run ≠ [] ∧ SortedPairs.Ascending run) ∧
      (state.1.order.Nodup ∧ ∀ key, key ∈ state.1.order ↔ key ∈ state.1.hot) ∧
      ∀ op, TieredIdem.KeepsLive state (TieredIdem.step rt state op) := by
  have hstate := (TieredIdem.represents_withCap rt cap).foldl hallowed
  have hkeeps := hstate.keepsLive
  obtain ⟨pairs, hnodup, hpairs, hindex⟩ := hstate
  refine ⟨fun key => ?_, fun info hinfo => ?_, ?_, hkeeps⟩
  · rw [TieredIdem.exec, hindex.get_eq hnodup]
    cases hfound : (inserted ops).lookup key with
    | some rec => exact (SortedPairs.search_eq_some hnodup).2 ((hpairs key rec).2 hfound)
    | none =>
        refine SortedPairs.search_eq_none.2 fun pair hpair hsame => ?_
        have hlookup := (hpairs pair.1 pair.2).1 hpair
        rw [hsame] at hlookup
        exact absurd (hfound.symm.trans hlookup) (by simp)
  · obtain ⟨run, hlookup, hmeta, hrun, -⟩ := hindex.registered info hinfo
    exact ⟨run, hlookup, hmeta, hrun.ne_nil, hrun.ascending⟩
  · exact ⟨hindex.hot_holds.order_nodup, hindex.hot_holds.mem_order⟩

/-- A key that is spilled, merged with another run, and inserted again. -/
def respilled : List IdemOp :=
  [.insert "b" ⟨⟨1⟩, 1, 1⟩, .insert "a" ⟨⟨2⟩, 2, 2⟩, .flushSpill .ok,
    .insert "c" ⟨⟨3⟩, 3, 3⟩, .flushSpill .ok, .mergeRuns .ok,
    .insert "b" ⟨⟨1⟩, 1, 1⟩, .attachDir .ok []]

theorem tiered_idem_faithful_respilled :
    let state := TieredIdem.exec binaryRuntime 1 respilled
    (∀ key, state.1.get binaryRuntime allReadable state.2 key = (inserted respilled).lookup key) ∧
      (∀ info ∈ state.1.runs, ∃ run, state.2.lookup info.n = some (.intact run) ∧
        info = RunMeta.of info.n run ∧ run ≠ [] ∧ SortedPairs.Ascending run) ∧
      (state.1.order.Nodup ∧ ∀ key, key ∈ state.1.order ↔ key ∈ state.1.hot) ∧
      ∀ op, TieredIdem.KeepsLive state (TieredIdem.step binaryRuntime state op) :=
  tiered_idem_faithful binaryRuntime 1 respilled (by decide +kernel)

end Talea.Log
