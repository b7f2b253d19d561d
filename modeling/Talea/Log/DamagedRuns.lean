import Talea.Log.RunInvariant
import Talea.Log.BinaryRuntime

/-!
# Damaged run files

When a run file of a closed book does not read back, or there are none, opening
the book rebuilds the runs from the events it has replayed.  Those are hot
already, so the rebuilt index is the hot map: a key that only the lost runs had
is back if the replay has passed its event, and gone if a snapshot has skipped
it.
-/

namespace Talea.Log

variable {rt : Runtime}

/-! ## Damage -/

/-- What has happened to the run files of a closed book. -/
inductive RunDamage
  | corrupt (ns : List ℕ)
  | deleted
  deriving DecidableEq

/-- Damage one run file, if it is there. -/
def RunDir.corrupt (dir : RunDir) (n : ℕ) : RunDir :=
  if n ∈ dir then dir.insert n .damaged else dir

def RunDir.damage (dir : RunDir) : RunDamage → RunDir
  | .corrupt ns => ns.foldl RunDir.corrupt dir
  | .deleted => ∅

/-- The damage has not hit any file. -/
def RunDamage.Spares (damage : RunDamage) (dir : RunDir) : Prop :=
  match damage with
  | .corrupt ns => ∀ n ∈ ns, n ∉ dir
  | .deleted => dir = ∅

theorem RunDir.mem_corrupt (dir : RunDir) (n other : ℕ) :
    other ∈ dir.corrupt n ↔ other ∈ dir := by
  unfold corrupt
  split
  · next hmem =>
      rw [AList.mem_insert]
      exact ⟨fun h => h.elim (fun heq => heq ▸ hmem) id, Or.inr⟩
  · rfl

theorem RunDir.lookup_corrupt_self {dir : RunDir} {n : ℕ} (hmem : n ∈ dir) :
    (dir.corrupt n).lookup n = some .damaged := by
  rw [corrupt, if_pos hmem, AList.lookup_insert]

theorem RunDir.lookup_corrupt_of_damaged {dir : RunDir} {other : ℕ}
    (hdamaged : dir.lookup other = some .damaged) (n : ℕ) :
    (dir.corrupt n).lookup other = some .damaged := by
  unfold corrupt
  split
  · rw [RunDir.lookup_insert_ite, hdamaged]
    split <;> rfl
  · exact hdamaged

theorem RunDir.mem_foldl_corrupt (dir : RunDir) (ns : List ℕ) (n : ℕ) :
    n ∈ ns.foldl corrupt dir ↔ n ∈ dir := by
  induction ns generalizing dir with
  | nil => rfl
  | cons first ns ih => rw [List.foldl_cons, ih, mem_corrupt]

theorem RunDir.lookup_foldl_corrupt {dir : RunDir} {ns : List ℕ} {n : ℕ}
    (hdamaged : dir.lookup n = some .damaged ∨ n ∈ ns ∧ n ∈ dir) :
    (ns.foldl corrupt dir).lookup n = some .damaged := by
  induction ns generalizing dir with
  | nil => simpa using hdamaged
  | cons first ns ih =>
      refine ih ?_
      rcases hdamaged with hdone | ⟨hns, hdir⟩
      · exact Or.inl (lookup_corrupt_of_damaged hdone first)
      · rcases List.mem_cons.1 hns with rfl | hlater
        · exact Or.inl (lookup_corrupt_self hdir)
        · exact Or.inr ⟨hlater, (mem_corrupt dir first n).2 hdir⟩

theorem RunDamage.Spares.damage_eq {damage : RunDamage} {dir : RunDir}
    (hspares : damage.Spares dir) : dir.damage damage = dir := by
  cases damage with
  | deleted => exact hspares.symm
  | corrupt ns =>
      unfold RunDir.damage
      dsimp only
      induction ns with
      | nil => rfl
      | cons n ns ih =>
          rw [List.foldl_cons, RunDir.corrupt, if_neg (hspares n List.mem_cons_self)]
          exact ih fun other hother => hspares other (List.mem_cons_of_mem _ hother)

/-! ## Attaching damaged files -/

theorem TieredIdem.validateRuns_eq_none {dir : RunDir} {ns : List ℕ} {n : ℕ} (hns : n ∈ ns)
    (hdamaged : dir.lookup n = some .damaged) : validateRuns dir ns = none := by
  induction ns with
  | nil => simp at hns
  | cons first ns ih =>
      unfold validateRuns
      rcases List.mem_cons.1 hns with rfl | hrest
      · rw [hdamaged]
      · split
        · rw [ih hrest]
          rfl
        · rfl

/-- A rebuild from pairs that are hot registers nothing. -/
theorem TieredIdem.rebuildRuns_of_hot {hot : HashMap String CommittedRec} (io : SpillIo)
    (dir : RunDir) (ns : List ℕ) {pairs : List (String × CommittedRec)}
    (hhot : ∀ pair ∈ pairs, pair.1 ∈ hot) : (rebuildRuns io hot dir ns pairs).1 = [] := by
  have hnone : pairs.filter (fun pair => pair.1 ∉ hot) = [] :=
    List.filter_eq_nil_iff.2 fun pair hpair => by simp [hhot pair hpair]
  unfold rebuildRuns
  simp only [hnone, if_true]

variable (rt) in
/-- Damage that has hit something leaves the index its hot map. -/
theorem TieredIdem.attachDir_of_damage {idem : TieredIdem} {dir : RunDir} {damage : RunDamage}
    (hhit : ¬damage.Spares dir) (io : SpillIo) {rebuild : List (String × CommittedRec)}
    (hhot : ∀ pair ∈ rebuild, pair.1 ∈ idem.hot) :
    (idem.attachDir rt io (dir.damage damage) rebuild).1.runs = [] ∧
      (idem.attachDir rt io (dir.damage damage) rebuild).1.hot = idem.hot := by
  refine ⟨?_, rfl⟩
  unfold attachDir
  dsimp only
  cases damage with
  | deleted =>
      have hkeys : (dir.damage .deleted).keys.insertionSort (· ≤ ·) = [] := rfl
      rw [hkeys, validateRuns]
      dsimp only
      rw [if_pos rfl]
      exact rebuildRuns_of_hot io _ _ hhot
  | corrupt ns =>
      simp only [RunDamage.Spares, not_forall, not_not] at hhit
      obtain ⟨n, hns, hdir⟩ := hhit
      have hmem : n ∈ (dir.damage (.corrupt ns)).keys.insertionSort (· ≤ ·) := by
        rw [List.mem_insertionSort, ← AList.mem_keys]
        exact (RunDir.mem_foldl_corrupt dir ns n).2 hdir
      have hdamaged : (dir.damage (.corrupt ns)).lookup n = some .damaged :=
        RunDir.lookup_foldl_corrupt (Or.inr ⟨hns, hdir⟩)
      rw [validateRuns_eq_none hmem hdamaged]
      exact rebuildRuns_of_hot io _ _ hhot

theorem TieredIdem.get_of_no_runs {idem : TieredIdem} (hruns : idem.runs = [])
    (reads : ℕ → Bool) (dir : RunDir) (key : String) :
    idem.get rt reads dir key = idem.getHot key := by
  unfold get lookupRuns
  rw [hruns]
  cases idem.getHot key with
  | some rec => rfl
  | none =>
      dsimp only
      split <;> rfl

/-! ## Opening the book -/

/-- Every committed key resolves to the answer of its commit. -/
def Opened.IndexComplete (rt : Runtime) (opened : Opened)
    (pairs : List (String × Committed)) : Prop :=
  ∀ pair ∈ pairs,
    opened.writer.state.idem.get rt allReadable opened.writer.runs pair.1 = some pair.2

/-- The book opens with a complete index. -/
def OpensComplete (rt : Runtime) (opts : LogStoreOptions) (io : SpillIo) (disk : Disk)
    (pairs : List (String × Committed)) : Prop :=
  match openBook rt opts io disk with
  | .error _ => False
  | .ok opened => opened.IndexComplete rt pairs

/-- The keys of the events that the loaded snapshot lets the replay skip are in
the hot map of the snapshot. -/
def SnapDir.CoversKeys (snaps : SnapDir) (events : List WireEvent) : Prop :=
  ∀ ev ∈ events, ev.seq < (replayStart snaps).2 → ∀ pair ∈ ev.committed,
    pair.1 ∈ (replayStart snaps).1.idem.hot

/-- The first events of a numbered log are those below a seq. -/
theorem Numbered.mem_take_iff {items : List (WireEvent × FramePos)}
    (hnumbered : Numbered 1 (items.map Prod.fst)) {count : ℕ} {ev : WireEvent} :
    ev ∈ (items.take count).map Prod.fst ↔ ev ∈ items.map Prod.fst ∧ ev.seq < count + 1 := by
  rw [← List.take_append_drop count items, List.map_append, numbered_append] at hnumbered
  constructor
  · intro hmem
    have hbounds := hnumbered.1.mem_bounds hmem
    have hlen : ((items.take count).map Prod.fst).length ≤ count := by simp
    refine ⟨?_, by omega⟩
    rw [List.map_take] at hmem
    exact List.mem_of_mem_take hmem
  · rintro ⟨hmem, hlt⟩
    rw [← List.take_append_drop count items, List.map_append, List.mem_append] at hmem
    refine hmem.resolve_right fun hdrop => ?_
    have hbounds := hnumbered.2.mem_bounds hdrop
    have hlong : count ≤ items.length := by
      by_contra hshort
      rw [List.drop_eq_nil_of_le (by omega)] at hdrop
      simp at hdrop
    rw [List.length_map, List.length_take_of_le hlong] at hbounds
    omega

/-- The committed keys of the skipped events. -/
theorem SnapDir.coversKeys_iff {snaps : SnapDir} {items : List (WireEvent × FramePos)}
    (hnumbered : Numbered 1 (items.map Prod.fst)) {count : ℕ}
    (hfrom : (replayStart snaps).2 = count + 1) :
    snaps.CoversKeys (items.map Prod.fst) ↔
      ∀ pair ∈ commitsOf ((items.take count).map Prod.fst),
        pair.1 ∈ (replayStart snaps).1.idem.hot := by
  unfold SnapDir.CoversKeys
  rw [hfrom]
  constructor
  · intro hcovers pair hpair
    obtain ⟨ev, hev, hcommitted⟩ := List.mem_filterMap.1 hpair
    obtain ⟨hmem, hlt⟩ := hnumbered.mem_take_iff.1 hev
    exact hcovers ev hmem hlt pair hcommitted
  · intro hhot ev hev hlt pair hpair
    exact hhot pair (mem_commitsOf (hnumbered.mem_take_iff.2 ⟨hev, hlt⟩) hpair)

/-- Opening a book whose run files are damaged. -/
theorem DiskInv.opensComplete_iff {disk : Disk} {saved : List BookState}
    (hinv : DiskInv rt disk saved disk.runs.HasAny) (damage : RunDamage)
    (opts : LogStoreOptions) (io : SpillIo) :
    OpensComplete rt opts io ⟨disk.segments, disk.runs.damage damage, disk.snaps⟩
        (logCommits (logEvents rt disk.segments)) ↔
      damage.Spares disk.runs ∨
        disk.snaps.CoversKeys ((logEvents rt disk.segments).map Prod.fst) := by
  obtain ⟨sealed, active, before, last, tail, hfiles, hstored⟩ := hinv.stored
  obtain ⟨count, hfrom, hstart⟩ := replayStart_valid hinv.snaps_valid
  obtain ⟨final, hreplay, hfinal, hrebuild⟩ :=
    (hstart.withCap opts.idemHotCap).replay_drop hinv.log_valid
  rw [SnapDir.coversKeys_iff hinv.log_valid.numbered hfrom]
  have hnodup := hinv.log_valid.keys_nodup
  have hcovers := hfinal.covers
  have hhot := hfinal.hot_holds
  rw [List.take_length] at hcovers hhot
  rw [← filterMap_committed] at hrebuild
  have hopen := openBook_eq ⟨disk.segments, disk.runs.damage damage, disk.snaps⟩
    hfiles hstored hfrom hreplay io
  unfold OpensComplete
  rw [hopen]
  simp only [Opened.IndexComplete, openedAt, BookState.idem_withIdem]
  by_cases hspares : damage.Spares disk.runs
  · simp only [hspares, true_or, iff_true]
    obtain ⟨hindex, -, -⟩ :=
      TieredIdem.Indexes.of_attachDir rt hhot hinv.runs_hold io hrebuild hcovers
    intro pair hpair
    rw [hspares.damage_eq, hindex.get_eq hnodup]
    exact (SortedPairs.search_eq_some hnodup).2 hpair
  · simp only [hspares, false_or]
    obtain ⟨hruns, hmap⟩ := TieredIdem.attachDir_of_damage rt hspares io hrebuild
    simp only [TieredIdem.get_of_no_runs hruns, TieredIdem.getHot, hmap]
    have hsplit : logCommits (logEvents rt disk.segments) =
        commitsOf (((logEvents rt disk.segments).take count).map Prod.fst) ++
          commitsOf (((logEvents rt disk.segments).drop count).map Prod.fst) := by
      rw [← commitsOf_append, ← List.map_append, List.take_append_drop, logCommits]
    have hkeys : ∀ key, key ∈ final.idem.hot ↔ key ∈ (replayStart disk.snaps).1.idem.hot ∨
        ∃ pair ∈ commitsOf (((logEvents rt disk.segments).drop count).map Prod.fst),
          pair.1 = key := by
      intro key
      rw [BookState.idem_of_replay hreplay]
      exact TieredIdem.mem_hot_foldl_record_iff
    constructor
    · -- a resolved key is hot; it is not in the tail, so the snapshot has it
      intro hcomplete pair hpair
      have hresolved := hcomplete pair (hsplit ▸ List.mem_append_left _ hpair)
      have hmem : pair.1 ∈ final.idem.hot := Finmap.lookup_isSome.1 (by simp [hresolved])
      refine ((hkeys pair.1).1 hmem).resolve_right ?_
      rintro ⟨later, hlater, hsame⟩
      rw [hsplit, List.map_append, List.nodup_append] at hnodup
      exact hnodup.2.2 pair.1 (List.mem_map_of_mem hpair) later.1 (List.mem_map_of_mem hlater)
        hsame.symm
    · -- every key is hot, and the hot map holds what was committed
      intro hskipped pair hpair
      have hmem : pair.1 ∈ final.idem.hot := by
        rw [hkeys]
        rw [hsplit] at hpair
        rcases List.mem_append.1 hpair with hold | hnew
        · exact Or.inl (hskipped pair hold)
        · exact Or.inr ⟨pair, hnew, rfl⟩
      obtain ⟨rec, hrec⟩ := Option.isSome_iff_exists.1 (Finmap.lookup_isSome.2 hmem)
      have hcommitted := (SortedPairs.search_eq_some hnodup).2 (hhot.subset pair.1 rec hrec)
      rw [(SortedPairs.search_eq_some hnodup).2 hpair] at hcommitted
      rw [hrec, hcommitted]

/-- After any run, the book opens with a complete index if and only if the
damage has spared the run files or the snapshot that is loaded has the keys of
all events before it in its hot map. -/
theorem index_complete_iff (rt : Runtime) (opts : LogStoreOptions) (io : SpillIo)
    (actions : List Action) (damage : RunDamage) (opts' : LogStoreOptions) (io' : SpillIo) :
    let run := Run.exec rt opts io actions
    let disk := run.status.disk
    OpensComplete rt opts' io' ⟨disk.segments, disk.runs.damage damage, disk.snaps⟩
        (logCommits (run.log rt)) ↔
      damage.Spares disk.runs ∨ disk.snaps.CoversKeys (run.events rt) :=
  (RunInv.exec rt opts io actions).book.diskInv.opensComplete_iff damage opts' io'

/-! ## A snapshot that skips a spilled key -/

namespace SpilledKey

/-- The two accounts of the book, and transfers between them. -/
def account (path : String) : AccountDef :=
  ⟨⟨⟨"main"⟩, path⟩, ⟨"EUR"⟩, .asset⟩

def posting (path : String) (direction : Direction) : Posting :=
  ⟨⟨⟨"main"⟩, path⟩, ⟨5, ⟨"EUR"⟩, by decide⟩, direction⟩

def transfer (uuid : ℕ) (key : String) : Transaction where
  id := ⟨uuid⟩
  book := ⟨"main"⟩
  postings := [posting "cash" .debit, posting "bank" .credit]
  idempotencyKey := ⟨key⟩
  externalRefs := []
  metadata := "{}"
  occurredAt := 0

def opts : LogStoreOptions :=
  ⟨1, 0, defaultSegmentMax⟩

/-- With room for one hot key, the first of two keys is spilled to a run before
the snapshot is taken. -/
def actions : List Action :=
  [.reopen opts .ok,
    .batch ⟨1, [(.openAccount (account "cash") ⟨none, none⟩, 1),
      (.openAccount (account "bank") ⟨none, none⟩, 1)], .ok, .ok⟩,
    .batch ⟨2, [(.commit (transfer 1 "first"), 2), (.commit (transfer 2 "second"), 2),
      (.snapshot, 2)], .ok, .ok⟩]

end SpilledKey

instance (rt : Runtime) (opened : Opened) (pairs : List (String × Committed)) :
    Decidable (opened.IndexComplete rt pairs) :=
  inferInstanceAs (Decidable (∀ pair ∈ pairs, _))

instance (rt : Runtime) (opts : LogStoreOptions) (io : SpillIo) (disk : Disk)
    (pairs : List (String × Committed)) : Decidable (OpensComplete rt opts io disk pairs) :=
  match hopen : openBook rt opts io disk with
  | .error _ => isFalse (by simp [OpensComplete, hopen])
  | .ok opened =>
      decidable_of_iff (opened.IndexComplete rt pairs) (by simp [OpensComplete, hopen])

set_option maxRecDepth 20000 in
/-- Not every book opens with a complete index when its run files are
damaged. -/
theorem not_index_complete : ¬ ∀ (rt : Runtime) (opts : LogStoreOptions) (io : SpillIo)
    (actions : List Action) (damage : RunDamage) (opts' : LogStoreOptions) (io' : SpillIo),
    let run := Run.exec rt opts io actions
    let disk := run.status.disk
    OpensComplete rt opts' io' ⟨disk.segments, disk.runs.damage damage, disk.snaps⟩
      (logCommits (run.log rt)) := by
  intro hcomplete
  have hfails : ¬ OpensComplete binaryRuntime SpilledKey.opts .ok
      ⟨(Run.exec binaryRuntime SpilledKey.opts .ok SpilledKey.actions).status.disk.segments,
        (Run.exec binaryRuntime SpilledKey.opts .ok SpilledKey.actions).status.disk.runs.damage
          (.corrupt [0]),
        (Run.exec binaryRuntime SpilledKey.opts .ok SpilledKey.actions).status.disk.snaps⟩
      (logCommits ((Run.exec binaryRuntime SpilledKey.opts .ok SpilledKey.actions).log
        binaryRuntime)) := by
    decide +kernel
  exact hfails (hcomplete binaryRuntime SpilledKey.opts .ok SpilledKey.actions (.corrupt [0])
    SpilledKey.opts .ok)

end Talea.Log
