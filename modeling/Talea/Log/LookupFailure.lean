import Talea.Log.FailStop
import Talea.Log.Answers
import Talea.Log.ExactlyOnce
import Talea.Log.DamagedRuns

/-!
# Lookups that fail

A run file that a lookup cannot read is passed over as if the key were not in
it.  When no lookup of a batch reads a run that has the key, the key counts as
new, and only a draft that is refused for another reason is not committed a
second time.
-/

namespace Talea.Log

variable {rt : Runtime}

/-- The writer of a book that has one. -/
def Status.writer : Status → Option Writer
  | .live writer => some writer
  | .stopped _ => none

theorem Status.eq_live {status : Status} {writer : Writer}
    (hwriter : status.writer = some writer) : status = .live writer := by
  cases status with
  | live found => exact congrArg Status.live (Option.some.inj hwriter)
  | stopped disk => cases hwriter

/-! ## What is resolved -/

/-- What phase 2b resolves. -/
def Writer.resolved (rt : Runtime) (writer : Writer) (lookups : Lookups) (input : BatchInput) :
    HashMap String CommittedRec :=
  resolveEach rt lookups writer.state.idem writer.runs (input.jobs.map Prod.fst)

/-- The lookup for some commit of the key reads a run that has it. -/
def Writer.FindsRun (writer : Writer) (lookups : Lookups) (input : BatchInput) (key : String) :
    Prop :=
  ∃ idx tx now, input.jobs[idx]? = some (.commit tx, now) ∧ tx.idempotencyKey.key = key ∧
    ∃ info ∈ writer.state.idem.runs, lookups idx info.n = true ∧
      ∃ run, writer.runs.lookup info.n = some (.intact run) ∧ key ∈ run.map Prod.fst

section Resolve

variable {lookups : Lookups} {idem : TieredIdem} {dir : RunDir} {slots : List (Job × ℕ)}
  {resolved : HashMap String CommittedRec} {key : String} {rec : CommittedRec}

/-- What is resolved for a key is what one of its lookups found. -/
theorem lookup_foldl_resolveEach
    (hfold : (slots.foldl (fun resolved slot =>
      resolveJob rt (lookups slot.2) idem dir resolved slot.1) resolved).lookup key = some rec) :
    resolved.lookup key = some rec ∨ ∃ slot ∈ slots, slot.1.key = some key ∧
      diskRecord rt (lookups slot.2) idem dir key = some rec := by
  induction slots generalizing resolved with
  | nil => exact Or.inl hfold
  | cons slot slots ih =>
      rcases ih hfold with hhere | ⟨later, hlater, hfound⟩
      · rw [lookup_resolveJob] at hhere
        split at hhere
        · next hkey =>
            cases hdisk : diskRecord rt (lookups slot.2) idem dir key with
            | none =>
                rw [hdisk, Option.none_or] at hhere
                exact Or.inl hhere
            | some found =>
                rw [hdisk, Option.some_or] at hhere
                exact Or.inr ⟨slot, List.mem_cons_self, hkey, hdisk.trans hhere⟩
        · exact Or.inl hhere
      · exact Or.inr ⟨later, List.mem_cons_of_mem _ hlater, hfound⟩

/-- One lookup that finds the key is enough. -/
theorem lookup_foldl_resolveEach_isSome
    (hfound : (resolved.lookup key).isSome ∨ ∃ slot ∈ slots, slot.1.key = some key ∧
      (diskRecord rt (lookups slot.2) idem dir key).isSome) :
    ((slots.foldl (fun resolved slot =>
      resolveJob rt (lookups slot.2) idem dir resolved slot.1) resolved).lookup key).isSome := by
  induction slots generalizing resolved with
  | nil => simpa using hfound
  | cons slot slots ih =>
      refine ih ?_
      rw [lookup_resolveJob]
      rcases hfound with hbefore | ⟨other, hother, hkey, hdisk⟩
      · left
        split
        · rw [Option.isSome_or, hbefore, Bool.or_true]
        · exact hbefore
      · rcases List.mem_cons.1 hother with rfl | hlater
        · left
          rw [if_pos hkey, Option.isSome_or, hdisk, Bool.true_or]
        · exact Or.inr ⟨other, hlater, hkey, hdisk⟩

/-- For a key that is not hot, the search on disk is the whole lookup. -/
theorem diskRecord_of_cold (hcold : key ∉ idem.hot) (reads : ℕ → Bool) :
    diskRecord rt reads idem dir key = idem.get rt reads dir key := by
  have hhot : idem.getHot key = none := Finmap.lookup_eq_none.2 hcold
  unfold diskRecord TieredIdem.get
  simp [hhot]

end Resolve

variable {writer : Writer} {saved : List BookState} {lookups : Lookups} {input : BatchInput}
  {key : String}

theorem Job.key_eq_some_iff {job : Job} {key : String} :
    job.key = some key ↔ ∃ tx, job = .commit tx ∧ tx.idempotencyKey.key = key := by
  cases job <;> simp [Job.key]

/-- The record of a key in the log is the only one. -/
theorem WriterInv.committed_unique (hinv : WriterInv rt writer saved) {left right : Committed}
    (hleft : (key, left) ∈ logCommits (logEvents rt writer.segments.files))
    (hright : (key, right) ∈ logCommits (logEvents rt writer.segments.files)) : left = right := by
  have hsame := (SortedPairs.search_eq_some hinv.keys_nodup).2 hleft
  rw [(SortedPairs.search_eq_some hinv.keys_nodup).2 hright] at hsame
  exact (Option.some.inj hsame).symm

/-- A lookup of a key that is not hot finds a record in a run it can read. -/
theorem WriterInv.findsRun_iff (hinv : WriterInv rt writer saved)
    (hcold : key ∉ writer.state.idem.hot) (lookups : Lookups) (input : BatchInput) :
    writer.FindsRun lookups input key ↔
      ∃ slot ∈ (input.jobs.map Prod.fst).zipIdx, slot.1.key = some key ∧
        (diskRecord rt (lookups slot.2) writer.state.idem writer.runs key).isSome := by
  have hslot : ∀ idx job, (job, idx) ∈ (input.jobs.map Prod.fst).zipIdx ↔
      ∃ now, input.jobs[idx]? = some (job, now) := by
    intro idx job
    rw [List.mem_zipIdx_iff_getElem?, List.getElem?_map, Option.map_eq_some_iff]
    simp
  constructor
  · rintro ⟨idx, tx, now, hjob, hkey, info, hinfo, hreads, run, hlookup, hmem⟩
    refine ⟨(.commit tx, idx), (hslot idx _).2 ⟨now, hjob⟩, congrArg some hkey, ?_⟩
    obtain ⟨⟨other, rec⟩, hpair, rfl⟩ := List.mem_map.1 hmem
    rw [diskRecord_of_cold hcold, Option.isSome_iff_exists]
    refine ⟨rec, (hinv.index.get_eq_some_iff hinv.keys_nodup).2 ⟨?_, Or.inr
      ⟨info, hinfo, hreads, info.n, List.mem_singleton_self _, run, hlookup, hpair⟩⟩⟩
    obtain ⟨held, hheld, hrun⟩ := hinv.index.dir_holds info.n _ hlookup
    cases hheld
    exact hrun.subset _ hpair
  · rintro ⟨⟨job, idx⟩, hmem, hkey, hdisk⟩
    obtain ⟨now, hjob⟩ := (hslot idx job).1 hmem
    obtain ⟨tx, rfl, hsame⟩ := Job.key_eq_some_iff.1 hkey
    rw [diskRecord_of_cold hcold] at hdisk
    obtain ⟨rec, hrec⟩ := Option.isSome_iff_exists.1 hdisk
    obtain ⟨-, hwhere⟩ := (hinv.index.get_eq_some_iff hinv.keys_nodup).1 hrec
    obtain ⟨info, hinfo, hreads, n, hn, run, hlookup, hpair⟩ := hwhere.resolve_left hcold
    obtain rfl := List.mem_singleton.1 hn
    exact ⟨idx, tx, now, hjob, hsame, info, hinfo, hreads, run, hlookup,
      List.mem_map_of_mem (f := Prod.fst) hpair⟩

/-- The record that the classification sees under a key. -/
theorem WriterInv.seenRecord_eq_some_iff (hinv : WriterInv rt writer saved)
    {rec : CommittedRec} :
    seenRecord writer.state (writer.resolved rt lookups input) key = some rec ↔
      (key, rec) ∈ logCommits (logEvents rt writer.segments.files) ∧
        (key ∈ writer.state.idem.hot ∨ writer.FindsRun lookups input key) := by
  by_cases hhot : key ∈ writer.state.idem.hot
  · obtain ⟨found, hfound⟩ := Finmap.mem_iff.1 hhot
    have hmem := hinv.index.hot_holds.subset key found hfound
    have hseen : seenRecord writer.state (writer.resolved rt lookups input) key = some found := by
      rw [seenRecord, TieredIdem.getHot, hfound, Option.some_or]
    rw [hseen]
    constructor
    · intro heq
      cases heq
      exact ⟨hmem, Or.inl hhot⟩
    · rintro ⟨hrec, -⟩
      rw [hinv.committed_unique hmem hrec]
  · have hseen : seenRecord writer.state (writer.resolved rt lookups input) key =
        (writer.resolved rt lookups input).lookup key := by
      have hnone : writer.state.idem.getHot key = none := Finmap.lookup_eq_none.2 hhot
      rw [seenRecord, hnone, Option.none_or]
    have hfinds := hinv.findsRun_iff hhot lookups input
    have hsound : ∀ {found : CommittedRec},
        (writer.resolved rt lookups input).lookup key = some found →
          (key, found) ∈ logCommits (logEvents rt writer.segments.files) ∧
            writer.FindsRun lookups input key := by
      intro found hfound
      rcases lookup_foldl_resolveEach hfound with hempty | ⟨slot, hslot, hkey, hdisk⟩
      · simp at hempty
      · refine ⟨?_, hfinds.2 ⟨slot, hslot, hkey, by rw [hdisk, Option.isSome_some]⟩⟩
        rw [diskRecord_of_cold hhot] at hdisk
        exact ((hinv.index.get_eq_some_iff hinv.keys_nodup).1 hdisk).1
    rw [hseen]
    constructor
    · intro hfound
      exact (hsound hfound).imp_right Or.inr
    · rintro ⟨hmem, hwhere⟩
      obtain ⟨found, hfound⟩ := Option.isSome_iff_exists.1
        (lookup_foldl_resolveEach_isSome (Or.inr (hfinds.1 (hwhere.resolve_left hhot))))
      have hfound : (writer.resolved rt lookups input).lookup key = some found := hfound
      rw [hfound, hinv.committed_unique (hsound hfound).1 hmem]

theorem WriterInv.seenRecord_isSome_iff (hinv : WriterInv rt writer saved) {rec : Committed}
    (hmem : (key, rec) ∈ logCommits (logEvents rt writer.segments.files)) :
    (seenRecord writer.state (writer.resolved rt lookups input) key).isSome ↔
      key ∈ writer.state.idem.hot ∨ writer.FindsRun lookups input key := by
  rw [Option.isSome_iff_exists]
  simp only [hinv.seenRecord_eq_some_iff]
  exact ⟨fun ⟨_, _, hwhere⟩ => hwhere, fun hwhere => ⟨rec, hmem, hwhere⟩⟩

/-! ## What is staged -/

section Staged

variable {state : BookState} {resolved : HashMap String CommittedRec} {startNow : Int}
  {jobs : List (Job × Int)} {batch acc : Classified}

/-- The classification of one job more. -/
theorem classify_take_succ {idx : ℕ} {job : Job} {now : Int}
    (hjob : jobs[idx]? = some (job, now))
    (hacc : classify state resolved startNow (jobs.take idx) = .ok acc) :
    classify state resolved startNow (jobs.take (idx + 1)) =
      classifyJob state resolved acc ((job, now), idx) := by
  have hlen : (jobs.take idx).length = idx := by
    rw [List.length_take]
    exact min_eq_left (List.getElem?_eq_some_iff.1 hjob).1.le
  unfold classify at hacc ⊢
  rw [List.take_add_one, hjob, Option.toList_some, List.zipIdx_append, List.foldlM_append, hacc,
    hlen, Nat.zero_add]
  change List.foldlM (classifyJob state resolved) acc [((job, now), idx)] = _
  rw [List.foldlM_cons]
  cases classifyJob state resolved acc ((job, now), idx) <;> rfl

theorem JobStep.staged_grows {idx : ℕ} {job : Job} {now : Int} {next : Classified}
    (hstep : JobStep state resolved acc idx now job next) : acc.staged <+: next.staged := by
  cases hstep with
  | commit hseen hnew hok hstage => exact List.prefix_append _ _
  | openAccount hnew => exact List.prefix_append _ _
  | registerAsset => exact List.prefix_append _ _
  | _ => exact List.prefix_rfl

/-- What the first jobs stage stays staged. -/
theorem staged_take_isPrefix {idx : ℕ}
    (hacc : classify state resolved startNow (jobs.take idx) = .ok acc)
    (hbatch : classify state resolved startNow jobs = .ok batch) : acc.staged <+: batch.staged := by
  unfold classify at hacc hbatch
  rw [← List.take_append_drop idx jobs, List.zipIdx_append, List.foldlM_append, hacc] at hbatch
  change List.foldlM (classifyJob state resolved) acc _ = _ at hbatch
  have hgrows : ∀ cur slot next, slot ∈ (jobs.drop idx).zipIdx (0 + (jobs.take idx).length) →
      acc.staged <+: cur.staged → classifyJob state resolved cur slot = .ok next →
      acc.staged <+: next.staged := by
    rintro cur ⟨⟨job, now⟩, at'⟩ next - hcur hnext
    exact hcur.trans (jobStep_of_classifyJob hnext).staged_grows
  exact foldlM_invariant hgrows List.prefix_rfl hbatch

theorem Classified.mem_wires_stageEvent {idx : ℕ} {now : Int} {event : LedgerEvent}
    {ev : WireEvent} :
    ev ∈ (acc.stageEvent idx now event).wires ↔
      ev ∈ acc.wires ∨ ev = ⟨acc.seq, max acc.batchAt now, event⟩ := by
  simp [wires, stageEvent]

/-- Every draft with the key is refused where its turn comes. -/
def RefusesAll (state : BookState) (resolved : HashMap String CommittedRec) (startNow : Int)
    (jobs : List (Job × Int)) (key : String) : Prop :=
  ∀ idx tx now acc, jobs[idx]? = some (.commit tx, now) → tx.idempotencyKey.key = key →
    classify state resolved startNow (jobs.take idx) = .ok acc →
    ∃ err, (state.validate tx acc.scratch).1 = .error err

theorem posts_of_mem_prefix {key : String}
    (hnone : ∀ ev ∈ batch.wires, ev.posts key = false) (hgrows : acc.staged <+: batch.staged)
    {entry : Staged} (hentry : entry ∈ acc.staged) : entry.wire.posts key = false :=
  hnone _ (List.mem_map_of_mem (hgrows.subset hentry))

/-- A batch stages no commit of a key exactly when a record of it is seen or all
drafts with it are refused. -/
theorem posts_none_iff (hbatch : classify state resolved startNow jobs = .ok batch)
    (key : String) :
    (∀ ev ∈ batch.wires, ev.posts key = false) ↔
      (seenRecord state resolved key).isSome ∨
        RefusesAll state resolved startNow jobs key := by
  constructor
  · intro hnone
    refine or_iff_not_imp_left.2 fun hunseen idx tx now acc hjob hkey hacc => ?_
    obtain ⟨next, hnext⟩ := classify_isOk state resolved startNow (jobs.take (idx + 1))
    have hgrows := staged_take_isPrefix hnext hbatch
    rw [classify_take_succ hjob hacc] at hnext
    subst hkey
    cases jobStep_of_classifyJob hnext with
    | dup hseen =>
        rw [hseen] at hunseen
        simp at hunseen
    | dupInBatch hseen hslot =>
        obtain ⟨entry, committed, hentry, hcommitted⟩ := (applies_classify hacc).slots _ _ hslot
        have hfree := posts_of_mem_prefix hnone hgrows (List.mem_of_getElem? hentry)
        rw [WireEvent.posts_eq_true_iff.2 ⟨committed, hcommitted⟩] at hfree
        cases hfree
    | reject hseen hnew herr => exact ⟨_, herr⟩
    | commit hseen hnew hok hstage =>
        have hfree := posts_of_mem_prefix hnone hgrows List.mem_concat_self
        simp [WireEvent.posts] at hfree
  · intro hcondition
    suffices hall : ∀ idx ≤ jobs.length, ∀ acc,
        classify state resolved startNow (jobs.take idx) = .ok acc →
          ∀ ev ∈ acc.wires, ev.posts key = false by
      exact hall jobs.length le_rfl batch (by rw [List.take_length]; exact hbatch)
    intro idx
    induction idx with
    | zero =>
        intro _ acc hacc ev hev
        cases hacc
        cases hev
    | succ idx ih =>
        intro hle next hnext ev hev
        obtain ⟨acc, hacc⟩ := classify_isOk state resolved startNow (jobs.take idx)
        have ih := ih (Nat.le_of_succ_le hle) acc hacc
        obtain ⟨⟨job, now⟩, hjob⟩ : ∃ job, jobs[idx]? = some job :=
          ⟨_, List.getElem?_eq_getElem hle⟩
        rw [classify_take_succ hjob hacc] at hnext
        cases jobStep_of_classifyJob hnext with
        | @commit tx scratch hseen hnew hok hstage =>
            rcases Classified.mem_wires_stageEvent.1 hev with hold | rfl
            · exact ih ev hold
            · by_contra hposts
              have hkey : tx.idempotencyKey.key = key := by simpa [WireEvent.posts] using hposts
              rcases hcondition with hsome | hrefuses
              · rw [← hkey, hseen] at hsome
                cases hsome
              · obtain ⟨err, herr⟩ := hrefuses idx tx now acc hjob hkey hacc
                rw [hok] at herr
                cases herr
        | openAccount hnew =>
            rcases Classified.mem_wires_stageEvent.1 hev with hold | rfl
            · exact ih ev hold
            · rfl
        | registerAsset =>
            rcases Classified.mem_wires_stageEvent.1 hev with hold | rfl
            · exact ih ev hold
            · rfl
        | _ => exact ih ev hev

end Staged

/-! ## One batch -/

/-- The events a batch stages. -/
def Writer.stagedUnder (rt : Runtime) (writer : Writer) (lookups : Lookups) (input : BatchInput) :
    List WireEvent :=
  match classify writer.state (writer.resolved rt lookups input) input.startNow input.jobs with
  | .ok batch => batch.wires
  | .error _ => []

/-- The batch stages no transaction under a key that was committed as `rec`, and
answers each commit of it with that record or an error. -/
structure Writer.Dedups (rt : Runtime) (writer : Writer) (lookups : Lookups) (input : BatchInput)
    (key : String) (rec : Committed) : Prop where
  staged : ∀ ev ∈ writer.stagedUnder rt lookups input, ev.posts key = false
  answered : ∀ result,
    writer.batchResolved rt input (writer.resolved rt lookups input) = .done result →
      ∀ idx tx now, input.jobs[idx]? = some (.commit tx, now) → tx.idempotencyKey.key = key →
        ∃ answer, result.sends.filter (fun sent => sent.1 = idx) = [(idx, answer)] ∧
          (answer = .committed (.ok rec) ∨ ∃ err, answer = .committed (.error err))

/-- Every draft of the batch with the key is refused where its turn comes. -/
def Writer.Refuses (rt : Runtime) (writer : Writer) (lookups : Lookups) (input : BatchInput)
    (key : String) : Prop :=
  RefusesAll writer.state (writer.resolved rt lookups input) input.startNow input.jobs key

/-- A batch that runs to its end answers each of its jobs once, whatever phase
2b has resolved. -/
theorem Writer.batchResolved_answers {resolved : HashMap String CommittedRec} {batch : Classified}
    (hbatch : classify writer.state resolved input.startNow input.jobs = .ok batch)
    {result : BatchDone} (hdone : writer.batchResolved rt input resolved = .done result) :
    ∃ (placed : List Staged) (snapResult : Except String Unit),
      placed.map Staged.wire = batch.wires ∧
      ∀ idx job now, input.jobs[idx]? = some (job, now) →
        ∃ answer, result.sends.filter (fun sent => sent.1 = idx) = [(idx, answer)] ∧
          JobAnswer writer.state resolved placed idx snapResult job answer := by
  unfold Writer.batchResolved at hdone
  rw [hbatch] at hdone
  dsimp only at hdone
  have hcases := writePhase_cases rt writer.segments batch.staged
  cases hwrite : writePhase rt writer.segments batch.staged with
  | error left => simp [hwrite] at hdone
  | ok phase =>
      obtain ⟨written, placed⟩ := phase
      obtain ⟨applied, happlied⟩ := applyStaged_isOk hbatch hwrite
      rw [hwrite] at hdone hcases
      dsimp only at hdone hcases
      rw [happlied] at hdone
      cases hdone
      obtain ⟨snapResult, hanswers⟩ := finishBatch_answers writer written applied
        (Classified.aligned_classify hbatch) (applies_classify hbatch).replies hcases
      refine ⟨placed, snapResult, hcases.wires, fun idx job now hjob => ?_⟩
      have hslot : ((job, now), idx) ∈
          repliedSlots input.jobs.zipIdx ++ snapshotSlots input.jobs.zipIdx :=
        (slots_perm input.jobs).mem_iff.2 (List.mem_zipIdx_iff_getElem?.2 hjob)
      exact filter_answers hanswers (slots_nodup input.jobs) hslot

/-- A committed key that is not hot is safe exactly when a lookup reads a run
that has it, or all drafts with it are refused. -/
theorem WriterInv.dedups_iff (hinv : WriterInv rt writer saved) {rec : Committed}
    (hmem : (key, rec) ∈ logCommits (logEvents rt writer.segments.files))
    (hcold : key ∉ writer.state.idem.hot) :
    writer.Dedups rt lookups input key rec ↔
      writer.FindsRun lookups input key ∨ writer.Refuses rt lookups input key := by
  obtain ⟨batch, hbatch⟩ := classify_isOk writer.state (writer.resolved rt lookups input)
    input.startNow input.jobs
  have hstaged : writer.stagedUnder rt lookups input = batch.wires := by
    rw [Writer.stagedUnder, hbatch]
  have hnone := posts_none_iff hbatch key
  rw [hinv.seenRecord_isSome_iff hmem, or_iff_right hcold] at hnone
  refine ⟨fun hdedups => hnone.1 (hstaged ▸ hdedups.staged), fun hcondition => ?_⟩
  have hfree := hnone.2 hcondition
  refine ⟨hstaged ▸ hfree, fun result hdone idx tx now hjob hkey => ?_⟩
  obtain ⟨placed, snapResult, hwires, hanswers⟩ := Writer.batchResolved_answers hbatch hdone
  obtain ⟨answer, hsent, hanswer⟩ := hanswers idx _ now hjob
  have hplaced : ∀ entry ∈ placed, entry.wire.posts key = false := fun entry hentry =>
    hfree _ (hwires ▸ List.mem_map_of_mem (f := Staged.wire) hentry)
  refine ⟨answer, hsent, ?_⟩
  subst hkey
  cases hanswer with
  | dup hrec =>
      rw [hinv.committed_unique (hinv.seenRecord_eq_some_iff.1 hrec).1 hmem]
      exact Or.inl rfl
  | dupInBatch hunseen hentry hcommitted =>
      have hposts := hplaced _ hentry
      rw [WireEvent.posts_eq_true_iff.2 ⟨_, hcommitted⟩] at hposts
      cases hposts
  | reject hunseen => exact Or.inr ⟨_, rfl⟩
  | commit hunseen hentry hidx hevent =>
      have hposts := hplaced _ hentry
      simp [WireEvent.posts, hevent] at hposts

/-- A batch in which every committed key is safe is classified soundly. -/
theorem WriterInv.sound_resolved (hinv : WriterInv rt writer saved)
    (hguarded : ∀ pair ∈ logCommits (logEvents rt writer.segments.files),
      pair.1 ∉ writer.state.idem.hot →
        writer.FindsRun lookups input pair.1 ∨ writer.Refuses rt lookups input pair.1)
    {batch : Classified}
    (hbatch : classify writer.state (writer.resolved rt lookups input) input.startNow
      input.jobs = .ok batch) :
    batch.Sound input.jobs writer.state (logCommits (logEvents rt writer.segments.files))
      (max input.startNow (writer.state.lastAt.getD Classified.unixEpoch)) := by
  set resolved := writer.resolved rt lookups input with hresolved
  set commits := logCommits (logEvents rt writer.segments.files) with hcommits
  -- for the keys with a record in sight the index is a complete one
  have hsub : ∀ pair ∈ commits.filter fun pair => (seenRecord writer.state resolved pair.1).isSome,
      pair ∈ commits := fun pair hpair => (List.mem_filter.1 hpair).1
  have hnodup : ((commits.filter fun pair =>
      (seenRecord writer.state resolved pair.1).isSome).map Prod.fst).Nodup :=
    hinv.keys_nodup.sublist (List.filter_sublist.map _)
  refine (Classified.sound_classify hnodup (fun job _ key _ => ?_) hbatch).of_subset hsub
    hinv.keys_nodup fun pair hpair hmem => ?_
  · change seenRecord writer.state resolved key = _
    cases hseen : seenRecord writer.state resolved key with
    | some rec =>
        refine ((SortedPairs.search_eq_some hnodup).2 (List.mem_filter.2 ⟨?_, ?_⟩)).symm
        · exact (hinv.seenRecord_eq_some_iff.1 hseen).1
        · rw [hseen, Option.isSome_some]
    | none =>
        refine (SortedPairs.search_eq_none.2 fun pair hpair hsame => ?_).symm
        have hsome := (List.mem_filter.1 hpair).2
        rw [hsame, hseen] at hsome
        cases hsome
  · obtain ⟨⟨key, rec⟩, hrec, hsame⟩ := List.mem_map.1 hmem
    have hfree := (posts_none_iff hbatch key).2 (by
      rw [hinv.seenRecord_isSome_iff hrec]
      by_cases hhot : key ∈ writer.state.idem.hot
      · exact Or.inl (Or.inl hhot)
      · exact (hguarded _ hrec hhot).imp_left Or.inr)
    obtain ⟨ev, hev, hcommitted⟩ := List.mem_filterMap.1 hpair
    have hposts := hfree ev hev
    rw [show key = pair.1 from hsame, WireEvent.posts_eq_true_iff.2 ⟨_, hcommitted⟩] at hposts
    cases hposts

/-! ## Runs whose lookups fail -/

/-- The lookups of a step guard a committed key if it is hot, or one of them
reads a run that has it, or its drafts are refused. -/
def Writer.Guards (rt : Runtime) (writer : Writer) (lookups : Lookups) (input : BatchInput)
    (key : String) : Prop :=
  key ∈ writer.state.idem.hot ∨ writer.FindsRun lookups input key ∨
    writer.Refuses rt lookups input key

namespace Run

def batchEach (rt : Runtime) (run : Run) (lookups : Lookups) (input : BatchInput) : Run :=
  match run.status with
  | .stopped _ => run
  | .live writer =>
      run.conclude writer input
        (writer.batchResolved rt input (writer.resolved rt lookups input))

def failStopEach (rt : Runtime) (run : Run) (lookups : Lookups) (input : BatchInput)
    (point : ℕ) : Run :=
  match run.status with
  | .stopped _ => run
  | .live writer =>
      match (writer.traceResolved rt input (writer.resolved rt lookups input))[point]? with
      | none => run
      | some segments => run.stop writer segments

/-- A step whose lookups fail as given. -/
def stepEach (rt : Runtime) (run : Run) (step : Lookups × Action) : Run :=
  match step.2 with
  | .batch input => run.batchEach rt step.1 input
  | .failStop input point => run.failStopEach rt step.1 input point
  | .land task io => run.land task io
  | .reopen opts io => run.reopen rt opts io

/-- A run from a new book on whose lookups fail as given. -/
def execEach (rt : Runtime) (opts : LogStoreOptions) (io : SpillIo)
    (steps : List (Lookups × Action)) : Run :=
  steps.foldl (stepEach rt) (create rt opts io)

/-- The lookups of the step guard every committed key. -/
def Guarded (rt : Runtime) (run : Run) (step : Lookups × Action) : Prop :=
  ∀ writer input, run.status = .live writer → step.2.input = some input →
    ∀ pair ∈ logCommits (run.log rt), writer.Guards rt step.1 input pair.1

/-- So do those of all steps. -/
def AllGuarded (rt : Runtime) : Run → List (Lookups × Action) → Prop
  | _, [] => True
  | run, step :: steps => run.Guarded rt step ∧ (run.stepEach rt step).AllGuarded rt steps

/-- The runs without a failing lookup. -/
theorem stepEach_allReadable (rt : Runtime) (run : Run) (action : Action) :
    run.stepEach rt (fun _ => allReadable, action) = run.step rt action := by
  have hresolved : ∀ (writer : Writer) input, writer.resolved rt (fun _ => allReadable) input =
      resolveKeys rt allReadable writer.state.idem writer.runs (input.jobs.map Prod.fst) :=
    fun writer input => resolveEach_const rt allReadable _ _ _
  cases action with
  | batch input =>
      change run.batchEach rt (fun _ => allReadable) input = run.batch rt input
      rw [batch_eq_conclude, batchEach]
      cases run.status <;> simp only [hresolved, Writer.batch_eq_batchResolved]
  | failStop input point =>
      change run.failStopEach rt (fun _ => allReadable) input point = run.failStop rt input point
      rw [failStop, failStopEach]
      cases run.status with
      | stopped => rfl
      | live writer =>
          have htrace : writer.traceResolved rt input
              (writer.resolved rt (fun _ => allReadable) input) =
                writer.batchTrace rt allReadable input := by
            rw [hresolved, Writer.batchTrace_eq_traceResolved]
          exact congrArg (fun states : List SegmentSet =>
            match states[point]? with
            | none => run
            | some segments => run.stop writer segments) htrace
  | land task io => rfl
  | reopen opts io => rfl

end Run

variable {run : Run}

theorem RunInv.stepEach (hinv : RunInv rt run) {step : Lookups × Action}
    (hguarded : run.Guarded rt step) : RunInv rt (run.stepEach rt step) := by
  have hsound : ∀ writer input, run.status = .live writer → step.2.input = some input →
      WriterInv rt writer run.boundaries ∧ ∀ batch,
        classify writer.state (writer.resolved rt step.1 input) input.startNow input.jobs =
          .ok batch →
        batch.Sound input.jobs writer.state (logCommits (logEvents rt writer.segments.files))
          (max input.startNow (writer.state.lastAt.getD Classified.unixEpoch)) := by
    intro writer input hlive hinput
    have hwriter : WriterInv rt writer run.boundaries := by
      have hbook := hinv.book
      rwa [hlive] at hbook
    refine ⟨hwriter, fun batch => hwriter.sound_resolved fun pair hpair hcold => ?_⟩
    have hlog : run.log rt = logEvents rt writer.segments.files := by
      rw [Run.log, hlive]
      rfl
    exact (hguarded writer input hlive hinput pair (hlog ▸ hpair)).resolve_left hcold
  obtain ⟨lookups, action⟩ := step
  cases action with
  | batch input =>
      change RunInv rt (run.batchEach rt lookups input)
      unfold Run.batchEach
      split
      · exact hinv
      · next writer hlive =>
          obtain ⟨hwriter, hbatch⟩ := hsound writer input hlive rfl
          exact (hinv.conclude hlive (hwriter.batchResolved hbatch)).1
  | failStop input point =>
      change RunInv rt (run.failStopEach rt lookups input point)
      unfold Run.failStopEach
      split
      · exact hinv
      next writer hlive =>
      split
      · exact hinv
      next left hleft =>
      obtain ⟨hwriter, hbatch⟩ := hsound writer input hlive rfl
      exact (hinv.stop hlive (hwriter.traceResolved hbatch (List.mem_of_getElem? hleft))).1
  | land task io => exact (hinv.land task io).1
  | reopen opts io => exact (hinv.reopen opts io).1

theorem RunInv.foldl_stepEach (hinv : RunInv rt run) {steps : List (Lookups × Action)}
    (hguarded : run.AllGuarded rt steps) : RunInv rt (steps.foldl (Run.stepEach rt) run) := by
  induction steps generalizing run with
  | nil => exact hinv
  | cons step steps ih => exact ih (hinv.stepEach hguarded.1) hguarded.2

/-- Lookups that can read every run guard every key. -/
theorem RunInv.guarded_allReadable (hinv : RunInv rt run) (action : Action) :
    run.Guarded rt (fun _ => allReadable, action) := by
  intro writer input hlive hinput pair hpair
  have hwriter : WriterInv rt writer run.boundaries := by
    have hbook := hinv.book
    rwa [hlive] at hbook
  have hlog : run.log rt = logEvents rt writer.segments.files := by
    rw [Run.log, hlive]
    rfl
  refine (hwriter.index.covers pair (hlog ▸ hpair)).imp_right fun hhas => ?_
  by_cases hdraft : ∃ (idx : ℕ) (tx : Transaction) (now : Int),
      input.jobs[idx]? = some (.commit tx, now) ∧
      tx.idempotencyKey.key = pair.1
  · obtain ⟨idx, tx, now, hjob, hkey⟩ := hdraft
    obtain ⟨n, hn, held, hlookup, hheld⟩ := hhas
    obtain ⟨info, hinfo, rfl⟩ := List.mem_map.1 hn
    exact Or.inl ⟨idx, tx, now, hjob, hkey, info, hinfo, rfl, held, hlookup,
      List.mem_map_of_mem hheld⟩
  · exact Or.inr fun idx tx now acc hjob hkey _ => absurd ⟨idx, tx, now, hjob, hkey⟩ hdraft

theorem RunInv.allGuarded_allReadable (hinv : RunInv rt run) (actions : List Action) :
    run.AllGuarded rt (actions.map fun action => (fun _ => allReadable, action)) := by
  induction actions generalizing run with
  | nil => trivial
  | cons action actions ih =>
      refine ⟨hinv.guarded_allReadable action, ?_⟩
      rw [Run.stepEach_allReadable]
      exact ih (hinv.step action).1

/-- In every run whose lookups guard the committed keys, each key has one
transaction at most; and a batch that comes next, with any failing reads, leaves
a committed key that is not hot alone exactly when one of its lookups reads a run
that has the key or each of its drafts is refused. -/
theorem failed_lookups_iff (rt : Runtime) (opts : LogStoreOptions) (io : SpillIo)
    (steps : List (Lookups × Action))
    (hguarded : (Run.create rt opts io).AllGuarded rt steps) :
    let run := Run.execEach rt opts io steps
    (∀ key, ((run.events rt).filter (WireEvent.posts key)).length ≤ 1) ∧
      ∀ writer, run.status = .live writer → ∀ key rec, (key, rec) ∈ logCommits (run.log rt) →
        key ∉ writer.state.idem.hot → ∀ lookups input,
          writer.Dedups rt lookups input key rec ↔
            writer.FindsRun lookups input key ∨ writer.Refuses rt lookups input key := by
  have hinv := (RunInv.create rt opts io).foldl_stepEach hguarded
  refine ⟨hinv.length_filter_posts_le, fun writer hlive key rec hmem hcold lookups input => ?_⟩
  have hwriter : WriterInv rt writer
      (steps.foldl (Run.stepEach rt) (Run.create rt opts io)).boundaries := by
    have hbook := hinv.book
    rwa [show (steps.foldl (Run.stepEach rt) (Run.create rt opts io)).status = .live writer from
      hlive] at hbook
  rw [Run.log, hlive] at hmem
  exact hwriter.dedups_iff hmem hcold

namespace SpilledKey

/-- The actions with lookups that can read every run. -/
def steps : List (Lookups × Action) :=
  actions.map fun action => (fun _ => allReadable, action)

/-- The first key again, for another transaction. -/
def retry : BatchInput :=
  ⟨3, [(.commit (transfer 3 "first"), 3)], .ok, .ok⟩

end SpilledKey

theorem failed_lookups_iff_spilledKey :
    let run := Run.execEach binaryRuntime SpilledKey.opts .ok SpilledKey.steps
    (∀ key, ((run.events binaryRuntime).filter (WireEvent.posts key)).length ≤ 1) ∧
      ∀ writer, run.status = .live writer → ∀ key rec,
        (key, rec) ∈ logCommits (run.log binaryRuntime) →
        key ∉ writer.state.idem.hot → ∀ lookups input,
          writer.Dedups binaryRuntime lookups input key rec ↔
            writer.FindsRun lookups input key ∨
              writer.Refuses binaryRuntime lookups input key :=
  failed_lookups_iff binaryRuntime SpilledKey.opts .ok SpilledKey.steps
    ((RunInv.create binaryRuntime SpilledKey.opts .ok).allGuarded_allReadable SpilledKey.actions)

namespace SpilledKey

/-- The writer behind the actions has the first key in a run file only; if it
cannot read the file, it stages the second transaction. -/
def commitsAgain (writer : Writer) : Bool :=
  decide ("first" ∉ writer.state.idem.hot) &&
    (writer.stagedUnder binaryRuntime (fun _ _ => false) retry).any (WireEvent.posts "first")

end SpilledKey

/-- Not every batch leaves a committed key alone whose run file it cannot read. -/
theorem failed_lookup_commits_again : ¬ ∀ (rt : Runtime) (opts : LogStoreOptions) (io : SpillIo)
    (actions : List Action),
    let run := Run.exec rt opts io actions
    ∀ writer, run.status = .live writer → ∀ key rec, (key, rec) ∈ logCommits (run.log rt) →
      key ∉ writer.state.idem.hot → ∀ lookups input,
        writer.Dedups rt lookups input key rec := by
  intro hdedups
  have hwriter : ((Run.exec binaryRuntime SpilledKey.opts .ok SpilledKey.actions).status.writer.map
      SpilledKey.commitsAgain) = some true := by decide +kernel
  obtain ⟨writer, hlive, hagain⟩ := Option.map_eq_some_iff.1 hwriter
  have hrecorded : ((logCommits ((Run.exec binaryRuntime SpilledKey.opts .ok
      SpilledKey.actions).log binaryRuntime)).find? fun pair => pair.1 = "first").isSome := by
    decide +kernel
  obtain ⟨⟨key, rec⟩, hfound⟩ := Option.isSome_iff_exists.1 hrecorded
  have hkey : key = "first" := by simpa using List.find?_some hfound
  subst hkey
  obtain ⟨hcold, hstaged⟩ := Bool.and_eq_true_iff.1 hagain
  obtain ⟨ev, hev, hposts⟩ := List.any_eq_true.1 hstaged
  have hfree := (hdedups binaryRuntime SpilledKey.opts .ok SpilledKey.actions writer
    (Status.eq_live hlive) "first" rec (List.mem_of_find?_eq_some hfound)
    (of_decide_eq_true hcold) (fun _ _ => false) SpilledKey.retry).staged ev hev
  rw [hposts] at hfree
  cases hfree

end Talea.Log
