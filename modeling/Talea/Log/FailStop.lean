import Talea.Log.Admission
import Talea.Log.JobSteps
import Talea.Log.CrashDurability

/-!
# Fail-stop

Three passes do checked arithmetic on the postings of a draft: `validate`
projects the draft, `stage` folds it into the overlay of the batch, and
`tryApplyTransaction` moves the real balances.  They walk the postings in the
same order over the same balances, so the later two cannot overflow where the
first did not, and the writer has no reason of its own to stop.
-/

namespace Talea.Log

/-! ## Staging what was validated -/

/-- `staged` is the overlay after the postings whose projection over `seeded`
is `projected`. -/
def Scratch.Tracks (seeded : Scratch) (projected : HashMap String Int) (staged : Scratch) :
    Prop :=
  ∀ key ∈ seeded.raw, staged.raw.lookup key =
    some ((projected.lookup key).getD ((seeded.raw.lookup key).getD 0))

namespace Scratch.Tracks

variable {seeded staged : Scratch} {projected : HashMap String Int}

theorem refl (seeded : Scratch) : Tracks seeded ∅ seeded := by
  intro key hkey
  obtain ⟨raw, hraw⟩ := Finmap.mem_iff.1 hkey
  rw [hraw, Finmap.lookup_empty, Option.getD_none, Option.getD_some]

/-- A posting that was projected can be staged. -/
theorem stagePosting (htracks : Tracks seeded projected staged) {posting : Posting}
    (hseeded : posting.account.toKey ∈ seeded.raw) {projected' : HashMap String Int}
    (hproject : BookState.projectPosting seeded projected posting = .ok projected') :
    ∃ staged', staged.stagePosting posting = .ok staged' ∧ Tracks seeded projected' staged' := by
  unfold BookState.projectPosting at hproject
  unfold Scratch.stagePosting
  dsimp only at hproject ⊢
  rw [htracks _ hseeded]
  cases hmove : Direction.move posting.direction
      ((projected.lookup posting.account.toKey).getD
        ((seeded.raw.lookup posting.account.toKey).getD 0)) posting.amount.minor with
  | none =>
      rw [hmove] at hproject
      cases hproject
  | some moved =>
      rw [hmove] at hproject
      cases hproject
      dsimp only
      rw [hmove]
      refine ⟨_, rfl, fun key hkey => ?_⟩
      dsimp only
      rw [HashMap.lookup_insert_ite, HashMap.lookup_insert_ite]
      by_cases hsame : key = posting.account.toKey
      · rw [if_pos hsame, if_pos hsame, Option.getD_some]
      · rw [if_neg hsame, if_neg hsame]
        exact htracks key hkey

theorem stagePostings (htracks : Tracks seeded projected staged) {postings : List Posting}
    (hseeded : ∀ posting ∈ postings, posting.account.toKey ∈ seeded.raw)
    {projected' : HashMap String Int}
    (hproject : postings.foldlM (BookState.projectPosting seeded) projected = .ok projected') :
    ∃ staged', postings.foldlM Scratch.stagePosting staged = .ok staged' := by
  induction postings generalizing projected staged with
  | nil => exact ⟨staged, rfl⟩
  | cons posting postings ih =>
      rw [List.foldlM_cons, Except.bind_eq_ok] at hproject
      obtain ⟨mid, hposting, hrest⟩ := hproject
      obtain ⟨next, hnext, htracks'⟩ :=
        htracks.stagePosting (hseeded posting List.mem_cons_self) hposting
      obtain ⟨final, hfinal⟩ :=
        ih htracks' (fun other hother => hseeded other (List.mem_cons_of_mem _ hother)) hrest
      exact ⟨final, by rw [List.foldlM_cons, hnext]; exact hfinal⟩

end Scratch.Tracks

/-- A draft that any state accepts over any overlay can be staged. -/
theorem BookState.stage_of_validate {state : BookState} {tx : Transaction} {scratch : Scratch}
    (hok : (state.validate tx scratch).1 = .ok ()) :
    ∃ staged, (state.validate tx scratch).2.stage tx = .ok staged := by
  unfold validate at hok ⊢
  split at hok
  · cases hok
  next hopen =>
  rw [if_neg hopen]
  cases hchecked : tx.postings.forM state.checkPosting with
  | error err =>
      rw [hchecked] at hok
      cases hok
  | ok _ =>
      rw [hchecked] at hok
      dsimp only at hok ⊢
      cases hproject : tx.postings.foldlM
          (projectPosting (tx.postings.foldl state.seedPosting scratch)) ∅ with
      | error err =>
          rw [hproject] at hok
          cases hok
      | ok projected =>
          exact (Scratch.Tracks.refl _).stagePostings
            (fun posting hposting => mem_foldl_seedPosting (Or.inr ⟨posting, hposting, rfl⟩))
            hproject

/-! ## Classifying -/

section Classify

variable (state : BookState) (resolved : HashMap String CommittedRec)

theorem classifyCommit_isOk (acc : Classified) (idx : ℕ) (tx : Transaction) (now : Int) :
    ∃ next, classifyCommit state resolved acc idx tx now = .ok next := by
  unfold classifyCommit
  dsimp only
  cases (state.idem.getHot tx.idempotencyKey.key).or
      (resolved.lookup tx.idempotencyKey.key) with
  | some rec => exact ⟨_, rfl⟩
  | none =>
      cases acc.scratch.idem.lookup tx.idempotencyKey.key with
      | some slot => exact ⟨_, rfl⟩
      | none =>
          rcases hvalidate : state.validate tx acc.scratch with ⟨verdict, scratch⟩
          cases verdict with
          | error err => exact ⟨_, rfl⟩
          | ok _ =>
              have hok : (state.validate tx acc.scratch).1 = .ok () := by rw [hvalidate]
              obtain ⟨staged, hstage⟩ := BookState.stage_of_validate hok
              rw [hvalidate] at hstage
              simp only [hstage]
              exact ⟨_, rfl⟩

theorem classifyJob_isOk (acc : Classified) (slot : (Job × Int) × ℕ) :
    ∃ next, classifyJob state resolved acc slot = .ok next := by
  obtain ⟨⟨job, now⟩, idx⟩ := slot
  cases job with
  | commit tx => exact classifyCommit_isOk state resolved acc idx tx now
  | openAccount account cfg => exact ⟨_, rfl⟩
  | registerAsset asset => exact ⟨_, rfl⟩
  | snapshot => exact ⟨_, rfl⟩

/-- The classification of a batch never breaks off. -/
theorem classify_isOk (startNow : Int) (jobs : List (Job × Int)) :
    ∃ batch, classify state resolved startNow jobs = .ok batch := by
  unfold classify
  generalize Classified.start state startNow = acc
  induction jobs.zipIdx generalizing acc with
  | nil => exact ⟨acc, rfl⟩
  | cons slot slots ih =>
      obtain ⟨next, hnext⟩ := classifyJob_isOk state resolved acc slot
      obtain ⟨final, hfinal⟩ := ih next
      exact ⟨final, by rw [List.foldlM_cons, hnext]; exact hfinal⟩

end Classify

/-! ## Applying -/

section Apply

variable (rt : Runtime)

/-- The write phase stops at an event that does not fit a frame; one that runs
to its end places what was staged. -/
theorem writeStaged_cases (segments : SegmentSet) (staged : List Staged) :
    match writeStaged rt segments staged with
    | .error _ => ∃ entry ∈ staged, ¬FrameFits rt entry.wire
    | .ok (_, placed) => SameEntries placed staged := by
  induction staged generalizing segments with
  | nil => exact rfl
  | cons entry staged ih =>
      unfold writeStaged
      cases hframe : encodeFrame rt entry.wire with
      | error err =>
          refine ⟨entry, List.mem_cons_self, fun hfits => ?_⟩
          rw [encodeFrame_eq_ok.2 ⟨hfits, rfl⟩] at hframe
          cases hframe
      | ok frame =>
          have hrest := ih ((segments.maybeRotate entry.wire.seq).append frame)
          dsimp only
          cases hwrite : writeStaged rt
              ((segments.maybeRotate entry.wire.seq).append frame) staged with
          | error left =>
              rw [hwrite] at hrest
              obtain ⟨other, hother, hbig⟩ := hrest
              exact ⟨other, List.mem_cons_of_mem _ hother, hbig⟩
          | ok phase =>
              rw [hwrite] at hrest
              exact congrArg (List.cons (entry.jobIdx, entry.wire)) hrest

theorem writePhase_cases (segments : SegmentSet) (staged : List Staged) :
    match writePhase rt segments staged with
    | .error _ => ∃ entry ∈ staged, ¬FrameFits rt entry.wire
    | .ok (_, placed) => SameEntries placed staged := by
  have hstaged := writeStaged_cases rt segments staged
  unfold writePhase
  cases staged with
  | nil => exact rfl
  | cons entry rest =>
      rw [if_neg (by simp)]
      cases hwrite : writeStaged rt segments (entry :: rest) with
      | error left =>
          rw [hwrite] at hstaged
          exact hstaged
      | ok phase =>
          rw [hwrite] at hstaged
          exact hstaged

variable {rt} {state : BookState} {resolved : HashMap String CommittedRec}

/-- What a batch staged applies once it is written. -/
theorem applyStaged_isOk {startNow : Int} {jobs : List (Job × Int)} {batch : Classified}
    (hbatch : classify state resolved startNow jobs = .ok batch) {segments written : SegmentSet}
    {placed : List Staged}
    (hwrite : writePhase rt segments batch.staged = .ok (written, placed)) :
    ∃ applied, applyStaged state placed = .ok applied := by
  have hsame := writePhase_cases rt segments batch.staged
  rw [hwrite] at hsame
  obtain ⟨applied, happlied, -⟩ := (applies_classify hbatch).applied
  refine BookState.replay_isOk_of_same_events ?_ happlied
  rw [Staged.map_fst_items, Staged.map_fst_items, hsame.wires]

/-- A batch that ends the writer has staged an event that cannot be encoded. -/
theorem exists_not_fits_of_killed {reads : ℕ → Bool} {writer : Writer} {input : BatchInput}
    {left : SegmentSet} {batch : Classified}
    (hbatch : classify writer.state
      (resolveKeys rt reads writer.state.idem writer.runs (input.jobs.map Prod.fst))
      input.startNow input.jobs = .ok batch)
    (hkilled : writer.batch rt reads input = .killed left) :
    ∃ entry ∈ batch.staged, ¬FrameFits rt entry.wire := by
  unfold Writer.batch at hkilled
  dsimp only at hkilled
  rw [hbatch] at hkilled
  dsimp only at hkilled
  have hcases := writePhase_cases rt writer.segments batch.staged
  cases hwrite : writePhase rt writer.segments batch.staged with
  | error segments =>
      rw [hwrite] at hcases
      exact hcases
  | ok phase =>
      obtain ⟨written, placed⟩ := phase
      obtain ⟨applied, happlied⟩ := applyStaged_isOk hbatch hwrite
      rw [hwrite] at hkilled
      dsimp only at hkilled
      rw [happlied] at hkilled
      cases hkilled

end Apply

/-! ## Reachable books -/

/-- What a book's writer and its log are safe from, whatever a lookup of the
run files can read. -/
structure Run.NeverTrips (rt : Runtime) (run : Run) : Prop where
  /-- Any draft, over any overlay a batch may have built. -/
  stages : ∀ writer, run.status = .live writer → ∀ tx scratch,
    (writer.state.validate tx scratch).1 = .ok () →
      ∃ staged, (writer.state.validate tx scratch).2.stage tx = .ok staged
  /-- Any batch is classified to its end, and what it staged applies once it
  is written. -/
  applies : ∀ writer, run.status = .live writer → ∀ reads startNow jobs,
    ∃ batch, classify writer.state
        (resolveKeys rt reads writer.state.idem writer.runs (jobs.map Prod.fst)) startNow jobs =
          .ok batch ∧
      ∀ written placed, writePhase rt writer.segments batch.staged = .ok (written, placed) →
        ∃ applied, applyStaged writer.state placed = .ok applied
  /-- The writer ends for an event that cannot be encoded only. -/
  killed : ∀ writer, run.status = .live writer → ∀ reads input left,
    writer.batch rt reads input = .killed left →
      ∃ batch, classify writer.state
          (resolveKeys rt reads writer.state.idem writer.runs (input.jobs.map Prod.fst))
          input.startNow input.jobs = .ok batch ∧
        ∃ entry ∈ batch.staged, ¬FrameFits rt entry.wire
  replays : ∃ ledger, BookState.initial.replay (run.log rt) = .ok ledger
  opens : ∀ opts io, ∃ opened, openBook rt opts io run.status.disk = .ok opened

theorem RunInv.neverTrips {rt : Runtime} {run : Run} (hinv : RunInv rt run) :
    run.NeverTrips rt where
  stages writer _ tx scratch hok := BookState.stage_of_validate hok
  applies writer _ reads startNow jobs := by
    obtain ⟨batch, hbatch⟩ := classify_isOk writer.state
      (resolveKeys rt reads writer.state.idem writer.runs (jobs.map Prod.fst)) startNow jobs
    exact ⟨batch, hbatch, fun written placed hwrite => applyStaged_isOk hbatch hwrite⟩
  killed writer _ reads input left hkilled := by
    obtain ⟨batch, hbatch⟩ := classify_isOk writer.state
      (resolveKeys rt reads writer.state.idem writer.runs (input.jobs.map Prod.fst))
      input.startNow input.jobs
    exact ⟨batch, hbatch, exists_not_fits_of_killed hbatch hkilled⟩
  replays := hinv.logValid.replays
  opens opts io := by
    obtain ⟨opened, hopen, -⟩ := hinv.book.diskInv.openBook opts io
    exact ⟨opened, hopen⟩

/-- In every run, with interrupted write phases or with crashes: what is
validated can be staged, what is staged can be applied, only an event that
cannot be encoded ends the writer, and the log replays, as it is and after any
further crash. -/
theorem writer_never_trips (rt : Runtime) (opts : LogStoreOptions) (io : SpillIo) :
    (∀ actions, (Run.exec rt opts io actions).NeverTrips rt) ∧
      ∀ actions, (Run.crashExec rt opts io actions).NeverTrips rt ∧
        ∀ point keep opts' io', ∃ opened, openBook rt opts' io'
          (((Run.crashExec rt opts io actions).status.diskAt rt point).survive keep) =
            .ok opened := by
  refine ⟨fun actions => (RunInv.exec rt opts io actions).neverTrips, fun actions => ?_⟩
  obtain ⟨writer, hinv⟩ := CrashInv.crashExec rt opts io actions
  refine ⟨hinv.runInv.neverTrips, fun point keep opts' io' => ?_⟩
  obtain ⟨opened, hopen, -⟩ := (hinv.survive point keep).inv.openBook opts' io'
  exact ⟨opened, hopen⟩

end Talea.Log
