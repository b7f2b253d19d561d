import Talea.Log.Admitted

/-!
# Every job is answered once

Classification gives each job that is not a snapshot exactly one reply, in the
order of the jobs, and phase 6 takes each job out of its slot for that reply;
the snapshot jobs are answered behind them.  So a batch that runs to its end
sends every job of it one answer, its own.
-/

namespace Talea.Log

variable {rt : Runtime}

/-! ## One reply for each job -/

/-- A reply that classification gives the job with index `idx`. -/
inductive JobReply (state : BookState) (resolved : HashMap String CommittedRec)
    (staged : List Staged) (idx : ℕ) : Job → Reply → Prop
  | dup {tx : Transaction} {rec : CommittedRec}
      (hseen : seenRecord state resolved tx.idempotencyKey.key = some rec) :
      JobReply state resolved staged idx (.commit tx) (.dup idx rec)
  | dupInBatch {tx : Transaction} {slot : ℕ}
      (hseen : seenRecord state resolved tx.idempotencyKey.key = none) :
      JobReply state resolved staged idx (.commit tx) (.dupInBatch idx slot)
  | reject {tx : Transaction} {err : StoreError}
      (hseen : seenRecord state resolved tx.idempotencyKey.key = none) :
      JobReply state resolved staged idx (.commit tx) (.reject idx err)
  | commit {tx : Transaction} {slot : ℕ} {entry : Staged}
      (hseen : seenRecord state resolved tx.idempotencyKey.key = none)
      (hentry : staged[slot]? = some entry) (hidx : entry.jobIdx = idx)
      (hevent : entry.wire.event = .transactionPosted tx) :
      JobReply state resolved staged idx (.commit tx) (.staged slot)
  | openExists {account : AccountDef} {cfg : AccountCfg} {existing : AccountState}
      (hopen : state.accounts.lookup account.id.toKey = some existing)
      (hsame : existing.account = account ∧ existing.cfg = cfg) :
      JobReply state resolved staged idx (.openAccount account cfg) (.openExistsOk idx)
  | openConflict {account : AccountDef} {cfg : AccountCfg} {existing : AccountState}
      (hopen : state.accounts.lookup account.id.toKey = some existing)
      (hdiffer : ¬(existing.account = account ∧ existing.cfg = cfg)) :
      JobReply state resolved staged idx (.openAccount account cfg)
        (.reject idx (.alreadyExists s!"account {account.id.toKey}"))
  | opened {account : AccountDef} {cfg : AccountCfg} {slot : ℕ} {entry : Staged}
      (hnew : state.accounts.lookup account.id.toKey = none)
      (hentry : staged[slot]? = some entry) (hidx : entry.jobIdx = idx)
      (hevent : entry.wire.event = .accountOpened account cfg) :
      JobReply state resolved staged idx (.openAccount account cfg) (.staged slot)
  | registered {asset : AssetDef} {slot : ℕ} {entry : Staged}
      (hentry : staged[slot]? = some entry) (hidx : entry.jobIdx = idx)
      (hevent : entry.wire.event = .assetRegistered asset) :
      JobReply state resolved staged idx (.registerAsset asset) (.staged slot)

section Replies

variable {state : BookState} {resolved : HashMap String CommittedRec} {staged : List Staged}

theorem JobReply.mono {idx : ℕ} {job : Job} {reply : Reply}
    (hreply : JobReply state resolved staged idx job reply) (more : List Staged) :
    JobReply state resolved (staged ++ more) idx job reply := by
  cases hreply with
  | dup hseen => exact .dup hseen
  | dupInBatch hseen => exact .dupInBatch hseen
  | reject hseen => exact .reject hseen
  | commit hseen hentry hidx hevent =>
      exact .commit hseen (getElem?_append_of_some hentry) hidx hevent
  | openExists hopen hsame => exact .openExists hopen hsame
  | openConflict hopen hdiffer => exact .openConflict hopen hdiffer
  | opened hnew hentry hidx hevent =>
      exact .opened hnew (getElem?_append_of_some hentry) hidx hevent
  | registered hentry hidx hevent => exact .registered (getElem?_append_of_some hentry) hidx hevent

/-- The indexed jobs that wait for a snapshot, and the other ones. -/
def snapshotSlots (slots : List ((Job × Int) × ℕ)) : List ((Job × Int) × ℕ) :=
  slots.filter fun slot => slot.1.1 = .snapshot

def repliedSlots (slots : List ((Job × Int) × ℕ)) : List ((Job × Int) × ℕ) :=
  slots.filter fun slot => slot.1.1 ≠ .snapshot

/-- The replies to the first `idx` jobs. -/
structure Classified.Aligned (state : BookState) (resolved : HashMap String CommittedRec)
    (jobs : List (Job × Int)) (idx : ℕ) (acc : Classified) : Prop where
  replies : List.Forall₂
    (fun slot reply => JobReply state resolved acc.staged slot.2 slot.1.1 reply)
    (repliedSlots (jobs.zipIdx.take idx)) acc.replies
  snapJobs : acc.snapJobs = (snapshotSlots (jobs.zipIdx.take idx)).map Prod.snd

theorem take_succ_zipIdx {jobs : List (Job × Int)} {idx : ℕ} {job : Job} {now : Int}
    (hjob : jobs[idx]? = some (job, now)) :
    jobs.zipIdx.take (idx + 1) = jobs.zipIdx.take idx ++ [((job, now), idx)] := by
  rw [List.take_add_one, List.getElem?_zipIdx, hjob]
  simp

variable {jobs : List (Job × Int)} {idx : ℕ} {acc next : Classified} {job : Job} {now : Int}

/-- A job that is not a snapshot gets one more reply. -/
theorem Classified.Aligned.reply (haligned : acc.Aligned state resolved jobs idx)
    (hjob : jobs[idx]? = some (job, now)) (hnot : job ≠ .snapshot) {more : List Staged}
    (hstaged : next.staged = acc.staged ++ more) {reply : Reply}
    (hreplies : next.replies = acc.replies ++ [reply]) (hsnap : next.snapJobs = acc.snapJobs)
    (hreply : JobReply state resolved next.staged idx job reply) :
    next.Aligned state resolved jobs (idx + 1) where
  replies := by
    rw [take_succ_zipIdx hjob, hreplies, repliedSlots, List.filter_append]
    have hlast : List.filter (fun slot : (Job × Int) × ℕ => slot.1.1 ≠ .snapshot)
        [((job, now), idx)] = [((job, now), idx)] := by simp [hnot]
    rw [hlast]
    refine List.rel_append ?_ (.cons hreply .nil)
    refine haligned.replies.imp fun slot old hold => ?_
    rw [hstaged]
    exact hold.mono more
  snapJobs := by
    rw [take_succ_zipIdx hjob, hsnap, haligned.snapJobs, snapshotSlots, snapshotSlots,
      List.filter_append]
    simp [hnot]

/-- One job keeps the replies aligned with the jobs. -/
theorem Classified.Aligned.step (haligned : acc.Aligned state resolved jobs idx)
    (hjob : jobs[idx]? = some (job, now)) (hstep : JobStep state resolved acc idx now job next) :
    next.Aligned state resolved jobs (idx + 1) := by
  cases hstep with
  | dup hseen =>
      exact haligned.reply hjob nofun (List.append_nil _).symm rfl rfl (.dup hseen)
  | dupInBatch hseen hslot =>
      exact haligned.reply hjob nofun (List.append_nil _).symm rfl rfl (.dupInBatch hseen)
  | reject hseen hnew herr =>
      exact haligned.reply hjob nofun (List.append_nil _).symm rfl rfl (.reject hseen)
  | commit hseen hnew hok hstage =>
      exact haligned.reply hjob nofun rfl rfl rfl
        (.commit hseen List.getElem?_concat_length rfl rfl)
  | openExists hopen hsame =>
      exact haligned.reply hjob nofun (List.append_nil _).symm rfl rfl (.openExists hopen hsame)
  | openConflict hopen hdiffer =>
      exact haligned.reply hjob nofun (List.append_nil _).symm rfl rfl
        (.openConflict hopen hdiffer)
  | openAccount hnew =>
      exact haligned.reply hjob nofun rfl rfl rfl
        (.opened hnew List.getElem?_concat_length rfl rfl)
  | registerAsset =>
      exact haligned.reply hjob nofun rfl rfl rfl
        (.registered List.getElem?_concat_length rfl rfl)
  | snapshot =>
      constructor
      · have hlast : List.filter (fun slot : (Job × Int) × ℕ => slot.1.1 ≠ .snapshot)
            [((.snapshot, now), idx)] = [] := by simp
        rw [take_succ_zipIdx hjob, repliedSlots, List.filter_append, hlast, List.append_nil]
        exact haligned.replies
      · rw [take_succ_zipIdx hjob, snapshotSlots, List.filter_append]
        simp [haligned.snapJobs, snapshotSlots]

theorem Classified.aligned_classify {startNow : Int} {batch : Classified}
    (hbatch : classify state resolved startNow jobs = .ok batch) :
    batch.Aligned state resolved jobs jobs.length := by
  refine classify_invariant (fun idx acc => acc.Aligned state resolved jobs idx) ?_ ?_ hbatch
  · exact ⟨by simp [repliedSlots, Classified.start], by simp [snapshotSlots, Classified.start]⟩
  · intro idx job now acc next hjob haligned hstep
    exact haligned.step hjob hstep

end Replies

/-! ## One answer for each reply -/

/-- The answer to a job, given the placed events of its batch. -/
inductive JobAnswer (state : BookState) (resolved : HashMap String CommittedRec)
    (placed : List Staged) (idx : ℕ) (snapResult : Except String Unit) : Job → Answer → Prop
  | dup {tx : Transaction} {rec : CommittedRec}
      (hseen : seenRecord state resolved tx.idempotencyKey.key = some rec) :
      JobAnswer state resolved placed idx snapResult (.commit tx) (.committed (.ok rec))
  | dupInBatch {tx : Transaction} {entry : Staged} {committed : Committed}
      (hseen : seenRecord state resolved tx.idempotencyKey.key = none) (hentry : entry ∈ placed)
      (hkey : entry.wire.committed = some (tx.idempotencyKey.key, committed)) :
      JobAnswer state resolved placed idx snapResult (.commit tx) (.committed (.ok committed))
  | reject {tx : Transaction} {err : StoreError}
      (hseen : seenRecord state resolved tx.idempotencyKey.key = none) :
      JobAnswer state resolved placed idx snapResult (.commit tx) (.committed (.error err))
  | commit {tx : Transaction} {entry : Staged}
      (hseen : seenRecord state resolved tx.idempotencyKey.key = none)
      (hentry : entry ∈ placed) (hidx : entry.jobIdx = idx)
      (hevent : entry.wire.event = .transactionPosted tx) :
      JobAnswer state resolved placed idx snapResult (.commit tx)
        (.committed (.ok ⟨tx.id, entry.wire.seq, entry.wire.at'⟩))
  | openExists {account : AccountDef} {cfg : AccountCfg} {existing : AccountState}
      (hopen : state.accounts.lookup account.id.toKey = some existing)
      (hsame : existing.account = account ∧ existing.cfg = cfg) :
      JobAnswer state resolved placed idx snapResult (.openAccount account cfg) (.done (.ok ()))
  | openConflict {account : AccountDef} {cfg : AccountCfg} {existing : AccountState}
      (hopen : state.accounts.lookup account.id.toKey = some existing)
      (hdiffer : ¬(existing.account = account ∧ existing.cfg = cfg)) :
      JobAnswer state resolved placed idx snapResult (.openAccount account cfg)
        (.done (.error (.alreadyExists s!"account {account.id.toKey}")))
  | opened {account : AccountDef} {cfg : AccountCfg} {entry : Staged}
      (hnew : state.accounts.lookup account.id.toKey = none)
      (hentry : entry ∈ placed) (hidx : entry.jobIdx = idx)
      (hevent : entry.wire.event = .accountOpened account cfg) :
      JobAnswer state resolved placed idx snapResult (.openAccount account cfg) (.done (.ok ()))
  | registered {asset : AssetDef} {entry : Staged}
      (hentry : entry ∈ placed) (hidx : entry.jobIdx = idx)
      (hevent : entry.wire.event = .assetRegistered asset) :
      JobAnswer state resolved placed idx snapResult (.registerAsset asset) (.done (.ok ()))
  | snapshot :
      JobAnswer state resolved placed idx snapResult .snapshot
        (.done (snapResult.mapError StoreError.io))

section Sending

variable {state : BookState} {resolved : HashMap String CommittedRec}
  {staged placed : List Staged} {jobs : List (Job × Int)}
  {pairs : List (String × Committed)}

/-- The entry that was placed for a staged one. -/
theorem SameEntries.placed_of_staged (hsame : SameEntries placed staged) {slot : ℕ}
    {entry : Staged} (hentry : staged[slot]? = some entry) :
    ∃ other, placed[slot]? = some other ∧ other.jobIdx = entry.jobIdx ∧
      other.wire = entry.wire := by
  have hback : SameEntries staged placed := Eq.symm hsame
  exact hback.getElem? hentry

/-- The target and the answer of a reply. -/
theorem JobReply.answer {idx : ℕ} {job : Job} {now : Int} {reply : Reply}
    (hreply : JobReply state resolved staged idx job reply) (hsame : SameEntries placed staged)
    (hjob : jobs[idx]? = some (job, now)) (hslot : reply.SlotStaged jobs staged)
    (snapResult : Except String Unit) :
    ∃ send answer, reply.answer placed = some (idx, send) ∧ send job = some answer ∧
      JobAnswer state resolved placed idx snapResult job answer := by
  cases hreply with
  | dup hseen => exact ⟨_, _, rfl, rfl, .dup hseen⟩
  | @dupInBatch tx slot hseen =>
      obtain ⟨entry, committed, hentry, hkey⟩ := hslot tx now hjob
      obtain ⟨other, hother, -, hwire⟩ := hsame.placed_of_staged hentry
      rw [← hwire] at hkey
      refine ⟨_, .committed (.ok committed), rfl, ?_,
        .dupInBatch hseen (List.mem_of_getElem? hother) hkey⟩
      simp [dupAnswer, hother, hkey]
  | reject hseen => exact ⟨_, _, rfl, rfl, .reject hseen⟩
  | commit hseen hentry hidx hevent =>
      obtain ⟨other, hother, hidx', hwire⟩ := hsame.placed_of_staged hentry
      rw [hidx] at hidx'
      rw [← hwire] at hevent
      refine ⟨stagedAnswer other.wire, _, ?_, rfl,
        .commit hseen (List.mem_of_getElem? hother) hidx' hevent⟩
      rw [Reply.answer, hother, Option.map_some, hidx']
  | openExists hopen hsame => exact ⟨_, _, rfl, rfl, .openExists hopen hsame⟩
  | openConflict hopen hdiffer => exact ⟨_, _, rfl, rfl, .openConflict hopen hdiffer⟩
  | opened hnew hentry hidx hevent =>
      obtain ⟨other, hother, hidx', hwire⟩ := hsame.placed_of_staged hentry
      rw [hidx] at hidx'
      rw [← hwire] at hevent
      refine ⟨stagedAnswer other.wire, _, ?_, rfl,
        .opened hnew (List.mem_of_getElem? hother) hidx' hevent⟩
      rw [Reply.answer, hother, Option.map_some, hidx']
  | registered hentry hidx hevent =>
      obtain ⟨other, hother, hidx', hwire⟩ := hsame.placed_of_staged hentry
      rw [hidx] at hidx'
      rw [← hwire] at hevent
      refine ⟨stagedAnswer other.wire, _, ?_, rfl,
        .registered (List.mem_of_getElem? hother) hidx' hevent⟩
      rw [Reply.answer, hother, Option.map_some, hidx']

/-- A sent answer goes to the index of a job and is that job's. -/
def AnswersSlot (state : BookState) (resolved : HashMap String CommittedRec)
    (placed : List Staged) (snapResult : Except String Unit) (slot : (Job × Int) × ℕ)
    (sent : ℕ × Answer) : Prop :=
  sent.1 = slot.2 ∧ JobAnswer state resolved placed slot.2 snapResult slot.1.1 sent.2

/-- Phase 6 over replies whose jobs are still in their slots. -/
theorem foldl_sendReply {slots : List ((Job × Int) × ℕ)} {replies : List Reply}
    {snapResult : Except String Unit}
    (hreplies : List.Forall₂ (fun slot reply => ∃ send answer,
      Reply.answer placed reply = some (slot.2, send) ∧ send slot.1.1 = some answer ∧
        JobAnswer state resolved placed slot.2 snapResult slot.1.1 answer) slots replies)
    (hnodup : (slots.map Prod.snd).Nodup) {channels : Slots}
    (hopen : ∀ slot ∈ slots, channels[slot.2]?.join = some slot.1.1)
    (sent : List (ℕ × Answer)) :
    ∃ answers channels', replies.foldl (sendReply placed) (sent, channels) =
        (sent ++ answers, channels') ∧
      List.Forall₂ (AnswersSlot state resolved placed snapResult) slots answers ∧
      ∀ idx, idx ∉ slots.map Prod.snd → channels'[idx]?.join = channels[idx]?.join := by
  induction hreplies generalizing channels sent with
  | nil => exact ⟨[], channels, by simp, .nil, fun _ _ => rfl⟩
  | @cons slot reply slots replies hreply hrest ih =>
      obtain ⟨send, answer, htarget, hsend, hanswer⟩ := hreply
      rw [List.map_cons, List.nodup_cons] at hnodup
      have hstep : sendReply placed (sent, channels) reply =
          (sent ++ [(slot.2, answer)], channels.set slot.2 none) := by
        simp [sendReply, htarget, Slots.take, hopen slot List.mem_cons_self, hsend]
      have hother : ∀ other ∈ slots, other.2 ≠ slot.2 := fun other hmem heq =>
        hnodup.1 (heq ▸ List.mem_map_of_mem hmem)
      have hlater : ∀ other ∈ slots, (channels.set slot.2 none)[other.2]?.join = some other.1.1 :=
        fun other hmem => by
          rw [List.getElem?_set_ne (hother other hmem).symm]
          exact hopen other (List.mem_cons_of_mem _ hmem)
      obtain ⟨answers, channels', hfold, hanswers, hkept⟩ :=
        ih hnodup.2 hlater (sent ++ [(slot.2, answer)])
      refine ⟨(slot.2, answer) :: answers, channels', ?_, .cons ⟨rfl, hanswer⟩ hanswers, ?_⟩
      · rw [List.foldl_cons, hstep, hfold, List.append_assoc]
        rfl
      · intro idx hidx
        rw [List.map_cons, List.mem_cons, not_or] at hidx
        rw [hkept idx hidx.2, List.getElem?_set_ne (Ne.symm hidx.1)]

theorem map_fst_answers {slots : List ((Job × Int) × ℕ)} {answers : List (ℕ × Answer)}
    {snapResult : Except String Unit}
    (hanswers : List.Forall₂ (AnswersSlot state resolved placed snapResult) slots answers) :
    answers.map Prod.fst = slots.map Prod.snd := by
  induction hanswers with
  | nil => rfl
  | cons hhead hrest ih => rw [List.map_cons, List.map_cons, ih, hhead.1]

/-- Among answers that go to different jobs, each job finds its own. -/
theorem filter_answers {slots : List ((Job × Int) × ℕ)} {answers : List (ℕ × Answer)}
    {snapResult : Except String Unit}
    (hanswers : List.Forall₂ (AnswersSlot state resolved placed snapResult) slots answers)
    (hnodup : (slots.map Prod.snd).Nodup) {slot : (Job × Int) × ℕ} (hslot : slot ∈ slots) :
    ∃ answer, answers.filter (fun sent => sent.1 = slot.2) = [(slot.2, answer)] ∧
      JobAnswer state resolved placed slot.2 snapResult slot.1.1 answer := by
  induction hanswers with
  | nil => simp at hslot
  | @cons head sent slots answers hhead hrest ih =>
      rw [List.map_cons, List.nodup_cons] at hnodup
      obtain ⟨idx, answer⟩ := sent
      obtain ⟨rfl, hanswer⟩ := hhead
      rcases List.mem_cons.1 hslot with rfl | hlater
      · have hnone : answers.filter (fun sent => sent.1 = slot.2) = [] := by
          rw [List.filter_eq_nil_iff]
          intro sent hsent
          simp only [decide_eq_true_eq]
          intro heq
          refine hnodup.1 ?_
          rw [← heq, ← map_fst_answers hrest]
          exact List.mem_map_of_mem hsent
        exact ⟨answer, by rw [List.filter_cons_of_pos (by simp), hnone], hanswer⟩
      · have hne : ¬head.2 = slot.2 := fun heq => hnodup.1 (heq ▸ List.mem_map_of_mem hlater)
        rw [List.filter_cons_of_neg (by simpa using hne)]
        exact ih hnodup.2 hlater

end Sending

/-! ## A whole batch -/

theorem map_snd_zipIdx_nodup (jobs : List (Job × Int)) :
    (jobs.zipIdx.map Prod.snd).Nodup := by
  rw [List.zipIdx_map_snd]
  exact List.nodup_range' ..

/-- Replied and snapshot jobs together are the jobs of the batch. -/
theorem slots_perm (jobs : List (Job × Int)) :
    (repliedSlots jobs.zipIdx ++ snapshotSlots jobs.zipIdx).Perm jobs.zipIdx := by
  have hsplit := List.filter_append_perm
    (fun slot : (Job × Int) × ℕ => decide (slot.1.1 ≠ .snapshot)) jobs.zipIdx
  simpa [repliedSlots, snapshotSlots] using hsplit

theorem slots_nodup (jobs : List (Job × Int)) :
    ((repliedSlots jobs.zipIdx ++ snapshotSlots jobs.zipIdx).map Prod.snd).Nodup :=
  ((slots_perm jobs).map Prod.snd).nodup_iff.2 (map_snd_zipIdx_nodup jobs)

theorem getElem?_of_mem_zipIdx {jobs : List (Job × Int)} {slot : (Job × Int) × ℕ}
    (hslot : slot ∈ jobs.zipIdx) : jobs[slot.2]? = some slot.1 := by
  obtain ⟨item, idx⟩ := slot
  exact List.mem_zipIdx_iff_getElem?.1 hslot

/-- The snapshot jobs are answered alike. -/
theorem sendSnapshotReplies_answers {state : BookState} {resolved : HashMap String CommittedRec}
    {placed : List Staged} {slots : List ((Job × Int) × ℕ)} {channels : Slots}
    (hopen : ∀ slot ∈ slots, slot.1.1 = .snapshot ∧ channels[slot.2]?.join = some .snapshot)
    (snapResult : Except String Unit) :
    List.Forall₂ (AnswersSlot state resolved placed snapResult) slots
      (sendSnapshotReplies snapResult channels (slots.map Prod.snd)) := by
  induction slots with
  | nil => exact .nil
  | cons slot slots ih =>
      obtain ⟨hjob, hchannel⟩ := hopen slot List.mem_cons_self
      have hrest := ih fun other hother => hopen other (List.mem_cons_of_mem _ hother)
      unfold sendSnapshotReplies at hrest ⊢
      rw [List.map_cons, List.filterMap_cons, hchannel]
      refine .cons ⟨rfl, ?_⟩ hrest
      rw [hjob]
      exact .snapshot

/-- Phase 6 over a whole batch whose classification is aligned with its jobs. -/
theorem sends_answers {state : BookState} {resolved : HashMap String CommittedRec}
    {jobs : List (Job × Int)} {batch : Classified} {placed : List Staged}
    (haligned : batch.Aligned state resolved jobs jobs.length)
    (hslots : ∀ reply ∈ batch.replies, reply.SlotStaged jobs batch.staged)
    (hsame : SameEntries placed batch.staged) (snapResult : Except String Unit) :
    let (sends, slots) := sendReplies placed batch.replies (jobs.map fun job => some job.1)
    List.Forall₂ (AnswersSlot state resolved placed snapResult)
      (repliedSlots jobs.zipIdx ++ snapshotSlots jobs.zipIdx)
      (sends ++ sendSnapshotReplies snapResult slots batch.snapJobs) := by
  obtain ⟨hreplies, hsnapJobs⟩ := haligned
  rw [List.take_of_length_le (by simp)] at hreplies hsnapJobs
  have hchannel : ∀ slot ∈ jobs.zipIdx,
      (jobs.map fun job => some job.1)[slot.2]?.join = some slot.1.1 := by
    intro slot hslot
    rw [List.getElem?_map, getElem?_of_mem_zipIdx hslot]
    rfl
  have hnodup := slots_nodup jobs
  rw [List.map_append, List.nodup_append] at hnodup
  have hsends : List.Forall₂ (fun slot reply => ∃ send answer,
      Reply.answer placed reply = some (slot.2, send) ∧ send slot.1.1 = some answer ∧
        JobAnswer state resolved placed slot.2 snapResult slot.1.1 answer)
      (repliedSlots jobs.zipIdx) batch.replies := by
    refine List.forall₂_iff_get.2 ⟨hreplies.length_eq, fun n hslot hreply => ?_⟩
    have hmem := List.get_mem (repliedSlots jobs.zipIdx) ⟨n, hslot⟩
    exact (hreplies.get hslot hreply).answer hsame
      (getElem?_of_mem_zipIdx (List.mem_filter.1 hmem).1) (hslots _ (List.get_mem _ _)) snapResult
  obtain ⟨answers, channels, hfold, hanswers, hkept⟩ := foldl_sendReply hsends hnodup.1
    (fun slot hslot => hchannel slot (List.mem_filter.1 hslot).1) []
  rw [sendReplies, hfold, hsnapJobs, List.nil_append]
  refine List.rel_append hanswers (sendSnapshotReplies_answers (fun slot hslot => ?_) snapResult)
  have hmem := List.mem_filter.1 hslot
  have hjob : slot.1.1 = .snapshot := by simpa using hmem.2
  refine ⟨hjob, ?_⟩
  rw [hkept slot.2 fun hin => hnodup.2.2 _ hin _ (List.mem_map_of_mem hslot) rfl,
    hchannel slot hmem.1, hjob]

section Batch

variable (writer : Writer) {saved : List BookState} {input : BatchInput}

theorem finishBatch_answers {state : BookState} {resolved : HashMap String CommittedRec}
    {batch : Classified} {placed : List Staged}
    (segments : SegmentSet) (applied : BookState)
    (haligned : batch.Aligned state resolved input.jobs input.jobs.length)
    (hslots : ∀ reply ∈ batch.replies, reply.SlotStaged input.jobs batch.staged)
    (hsame : SameEntries placed batch.staged) :
    ∃ snapResult, List.Forall₂ (AnswersSlot state resolved placed snapResult)
      (repliedSlots input.jobs.zipIdx ++ snapshotSlots input.jobs.zipIdx)
      (finishBatch rt writer input batch segments placed applied).sends :=
  ⟨_, sends_answers haligned hslots hsame _⟩

variable {writer}

/-- A batch that runs to its end answers each of its jobs exactly once. -/
theorem WriterInv.batch_answers (hinv : WriterInv rt writer saved) {result : BatchDone}
    (hdone : writer.batch rt allReadable input = .done result) :
    ∃ placed snapResult, placed.map Staged.wire = writer.stagedWires rt input ∧
      ∀ idx job now, input.jobs[idx]? = some (job, now) →
        ∃ answer, result.sends.filter (fun sent => sent.1 = idx) = [(idx, answer)] ∧
          JobAnswer writer.state
            (resolveKeys rt allReadable writer.state.idem writer.runs (input.jobs.map Prod.fst))
            placed idx snapResult job answer := by
  unfold Writer.batch at hdone
  unfold Writer.stagedWires
  dsimp only at hdone
  cases hbatch : classify writer.state
      (resolveKeys rt allReadable writer.state.idem writer.runs (input.jobs.map Prod.fst))
      input.startNow input.jobs with
  | error message => simp [hbatch] at hdone
  | ok batch =>
      have hsound := hinv.classified hbatch
      have hspec := writePhase_spec hinv.holds (hinv.numbered_staged hsound)
      rw [hbatch] at hdone
      dsimp only at hdone ⊢
      cases hwrite : writePhase rt writer.segments batch.staged with
      | error left => simp [hwrite] at hdone
      | ok phase =>
          obtain ⟨written, placed⟩ := phase
          rw [hwrite] at hspec hdone
          dsimp only at hspec hdone
          cases happlied : applyStaged writer.state placed with
          | error message => simp [happlied] at hdone
          | ok applied =>
              rw [happlied] at hdone
              cases hdone
              obtain ⟨snapResult, hanswers⟩ := finishBatch_answers writer written applied
                (Classified.aligned_classify hbatch) (applies_classify hbatch).replies hspec.same
              refine ⟨placed, snapResult, hspec.same.wires, fun idx job now hjob => ?_⟩
              have hslot : ((job, now), idx) ∈
                  repliedSlots input.jobs.zipIdx ++ snapshotSlots input.jobs.zipIdx :=
                (slots_perm input.jobs).mem_iff.2 (List.mem_zipIdx_iff_getElem?.2 hjob)
              exact filter_answers hanswers (slots_nodup input.jobs) hslot

end Batch

end Talea.Log
