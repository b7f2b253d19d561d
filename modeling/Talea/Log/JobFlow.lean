import Talea.Log.Answers
import Talea.Log.CallSteps

/-!
# The jobs of a writer

A job is queued, taken into a batch, written with its answer and answered, or
it is dropped with its writer.  For a registration in the batch that is written,
the event goes to the log and the answer is `Ok`, whatever else is in the batch.
-/

namespace Talea.Log

open LogTaleaStore

/-! ## Registrations in a batch -/

/-- The asset that a job registers. -/
def Job.asset : Job → Option AssetDef
  | .registerAsset asset => some asset
  | _ => none

@[simp]
theorem registrations_append (left right : List WireEvent) :
    registrations (left ++ right) = registrations left ++ registrations right :=
  List.filterMap_append

theorem registrations_stageEvent (acc : Classified) (idx : ℕ) (now : Int) (event : LedgerEvent) :
    registrations (acc.stageEvent idx now event).wires =
      registrations acc.wires ++ registrations [⟨acc.seq, max acc.batchAt now, event⟩] := by
  unfold Classified.wires Classified.stageEvent
  rw [List.map_append, registrations_append]
  rfl

/-- The events of a batch register the assets of its jobs, in order. -/
theorem registrations_classify {state : BookState} {resolved : HashMap String CommittedRec}
    {startNow : Int} {jobs : List (Job × Int)} {batch : Classified}
    (hbatch : classify state resolved startNow jobs = .ok batch) :
    registrations batch.wires = jobs.filterMap fun job => job.1.asset := by
  have hinv := classify_invariant
    (fun idx acc => registrations acc.wires = (jobs.take idx).filterMap fun job => job.1.asset)
    rfl ?_ hbatch
  · rwa [List.take_length] at hinv
  intro idx job now acc next hjob hacc hstep
  rw [List.take_add_one, hjob, List.filterMap_append, ← hacc]
  cases hstep with
  | commit hseen hnew hok hstage => exact registrations_stageEvent ..
  | openAccount hnew => exact registrations_stageEvent ..
  | registerAsset => exact registrations_stageEvent ..
  | _ => exact (List.append_nil _).symm

/-- A registration in a batch is answered `Ok`. -/
theorem batchAnswers_registerAsset {state : BookState} {io : WriteIo} {jobs : List (Job × Int)}
    {batch : Classified}
    (hbatch : classify state io.resolved io.startNow jobs = .ok batch) {idx : ℕ}
    {asset : AssetDef} {now : Int} (hjob : jobs[idx]? = some (.registerAsset asset, now)) :
    (batchAnswers io jobs batch)[idx]? = some (some (.done (.ok ()))) := by
  rcases hsend : sendReplies batch.staged batch.replies (jobs.map fun job => some job.1) with
    ⟨sends, slots⟩
  have hanswers := sends_answers (Classified.aligned_classify hbatch)
    (applies_classify hbatch).replies rfl io.snap
  rw [hsend] at hanswers
  have hslot : ((.registerAsset asset, now), idx) ∈
      repliedSlots jobs.zipIdx ++ snapshotSlots jobs.zipIdx :=
    (slots_perm jobs).mem_iff.2 (List.mem_zipIdx_iff_getElem?.2 hjob)
  obtain ⟨answer, hfilter, hanswer⟩ := filter_answers hanswers (slots_nodup jobs) hslot
  have hok : answer = .done (.ok ()) := by
    cases hanswer
    rfl
  have hbound : idx < jobs.length := (List.getElem?_eq_some_iff.1 hjob).1
  unfold batchAnswers
  rw [hsend]
  dsimp only
  rw [List.getElem?_map, List.getElem?_range hbound, Option.map_some, ← List.head?_filter]
  rw [show _ = [(idx, answer)] from hfilter, hok]
  rfl

/-! ## Jobs in their list -/

theorem getElem?_of_forall₂ {α β : Type} {rel : α → β → Prop} {left : List α} {right : List β}
    (hrel : List.Forall₂ rel left right) {idx : ℕ} {item : α} (hitem : left[idx]? = some item) :
    ∃ other, right[idx]? = some other ∧ rel item other := by
  induction hrel generalizing idx with
  | nil => cases hitem
  | @cons head other left right hhead hrest ih =>
      cases idx with
      | zero =>
          cases hitem
          exact ⟨other, rfl, hhead⟩
      | succ idx => exact ih hitem

/-- What a step other than the writing of its batch does to a job. -/
inductive JobStatus.Follows : JobStatus → JobStatus → Prop
  | same (status : JobStatus) : Follows status status
  | taken : Follows .queued .taken
  | answered (answer : Option Answer) : Follows (.written answer) (.answered answer)
  | dropQueued : Follows .queued (.answered none)
  | dropTaken : Follows .taken (.answered none)

structure SentJob.Follows (old new : SentJob) : Prop where
  writer : new.writer = old.writer
  job : new.job = old.job
  status : old.status.Follows new.status

namespace SentJob

variable {sent : SentJob} {writer : ℕ}

theorem isQueued_iff : sent.isQueued writer = true ↔
    sent.status = .queued ∧ sent.writer = writer := by
  unfold isQueued
  cases sent.status <;> simp

theorem isTaken_iff : sent.isTaken writer = true ↔
    sent.status = .taken ∧ sent.writer = writer := by
  unfold isTaken
  cases sent.status <;> simp

theorem isWritten_iff : sent.isWritten writer = true ↔
    (∃ answer, sent.status = .written answer) ∧ sent.writer = writer := by
  unfold isWritten
  cases sent.status <;> simp

theorem isOpen_iff : sent.isOpen writer = true ↔
    (∀ answer, sent.status ≠ .answered answer) ∧ sent.writer = writer := by
  unfold isOpen
  cases sent.status <;> simp

theorem Follows.refl (sent : SentJob) : sent.Follows sent :=
  ⟨rfl, rfl, .same sent.status⟩

theorem follows_answerJob (writer : ℕ) (sent : SentJob) : sent.Follows (answerJob writer sent) := by
  unfold answerJob
  split
  · next answer hstatus =>
      split
      · exact ⟨rfl, rfl, by rw [hstatus]; exact .answered answer⟩
      · exact .refl sent
  · exact .refl sent

theorem follows_dropJob (hwritten : sent.isWritten writer = false) :
    sent.Follows (dropJob writer sent) := by
  unfold dropJob
  split
  · next hopen =>
      obtain ⟨hstatus, hwriter⟩ := isOpen_iff.1 hopen
      refine ⟨rfl, rfl, ?_⟩
      cases hcases : sent.status with
      | queued => exact .dropQueued
      | taken => exact .dropTaken
      | written answer =>
          rw [isWritten_iff.2 ⟨⟨answer, hcases⟩, hwriter⟩] at hwritten
          cases hwritten
      | answered answer => exact absurd hcases (hstatus answer)
  · exact .refl sent

end SentJob

theorem follows_takeJobs (writer count : ℕ) (jobs : List SentJob) :
    List.Forall₂ SentJob.Follows jobs (takeJobs writer count jobs) := by
  induction jobs generalizing count with
  | nil => cases count <;> exact .nil
  | cons sent jobs ih =>
      cases count with
      | zero => exact List.forall₂_same.2 fun sent _ => .refl sent
      | succ count =>
          unfold takeJobs
          split
          · next hqueued =>
              refine .cons ⟨rfl, rfl, ?_⟩ (ih count)
              rw [(SentJob.isQueued_iff.1 hqueued).1]
              exact .taken
          · exact .cons (.refl sent) (ih (count + 1))

/-- Only jobs of the writer are taken. -/
theorem mem_takeJobs {writer count : ℕ} {jobs : List SentJob} {sent : SentJob}
    (hmem : sent ∈ takeJobs writer count jobs) (htaken : sent.status = .taken) :
    sent.writer = writer ∨ sent ∈ jobs := by
  induction jobs generalizing count with
  | nil => cases count <;> cases hmem
  | cons head jobs ih =>
      cases count with
      | zero => exact Or.inr hmem
      | succ count =>
          unfold takeJobs at hmem
          split at hmem
          · next hqueued =>
              rcases List.mem_cons.1 hmem with rfl | hlater
              · exact Or.inl (SentJob.isQueued_iff.1 hqueued).2
              · exact (ih hlater).imp_right (List.mem_cons_of_mem _)
          · rcases List.mem_cons.1 hmem with rfl | hlater
            · exact Or.inr List.mem_cons_self
            · exact (ih hlater).imp_right (List.mem_cons_of_mem _)

theorem follows_map {step : SentJob → SentJob} {jobs : List SentJob}
    (hstep : ∀ sent ∈ jobs, sent.Follows (step sent)) :
    List.Forall₂ SentJob.Follows jobs (jobs.map step) :=
  List.forall₂_map_right_iff.2 (List.forall₂_same.2 hstep)

/-- A written batch: each taken job has the answer of its place in the batch. -/
theorem getElem?_writeJobs (writer : ℕ) (jobs : List SentJob) (answers : List (Option Answer))
    (idx : ℕ) :
    (writeJobs writer jobs answers)[idx]? = jobs[idx]?.map fun sent =>
      if sent.isTaken writer then
        { sent with status :=
            .written (answers[(jobs.take idx).countP (·.isTaken writer)]?.join) }
      else sent := by
  induction jobs generalizing answers idx with
  | nil => rfl
  | cons head jobs ih =>
      unfold writeJobs
      cases htaken : head.isTaken writer with
      | true =>
          rw [if_pos rfl]
          cases idx with
          | zero => simp [htaken, List.head?_eq_getElem?]
          | succ idx => simp [ih, htaken, List.getElem?_tail]
      | false =>
          rw [if_neg nofun]
          cases idx with
          | zero => simp [htaken]
          | succ idx => simp [ih, htaken]

/-- The place of a job among those that pass a test. -/
theorem getElem?_filter_countP {α : Type} (test : α → Bool) {items : List α} {idx : ℕ} {item : α}
    (hitem : items[idx]? = some item) (htest : test item = true) :
    (items.filter test)[(items.take idx).countP test]? = some item := by
  induction items generalizing idx with
  | nil => cases hitem
  | cons head items ih =>
      cases idx with
      | zero =>
          cases hitem
          simp [htest]
      | succ idx =>
          have hlater := ih hitem
          cases hhead : test head with
          | true => simpa [hhead] using hlater
          | false => simpa [hhead] using hlater

end Talea.Log
