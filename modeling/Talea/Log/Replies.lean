import Talea.Log.Classification
import Talea.Log.Run

/-!
# What a batch answers

Phase 6 takes each job out of its slot and sends it what its classification
says.  An `Ok` to a commit is the record of its key, in the log as it was or
among the events the batch has placed.
-/

namespace Talea.Log

variable {jobs : List (Job × Int)} {pairs : List (String × Committed)}

/-- The answer is not an `Ok` to a commit, or it is in `pairs` under the key of
the commit. -/
def Truthful (jobs : List (Job × Int)) (pairs : List (String × Committed)) (idx : ℕ)
    (answer : Answer) : Prop :=
  ∀ tx now committed, jobs[idx]? = some (.commit tx, now) →
    answer = .committed (.ok committed) → (tx.idempotencyKey.key, committed) ∈ pairs

theorem mem_okAnswers {sends : List (ℕ × Answer)} {pair : String × Committed} :
    pair ∈ okAnswers jobs sends ↔ ∃ idx tx now,
      (idx, Answer.committed (.ok pair.2)) ∈ sends ∧ jobs[idx]? = some (.commit tx, now) ∧
        tx.idempotencyKey.key = pair.1 := by
  unfold okAnswers
  rw [List.mem_filterMap]
  constructor
  · rintro ⟨⟨idx, answer⟩, hsent, hpair⟩
    dsimp only at hpair
    split at hpair
    · next tx now committed hjob =>
        cases hpair
        exact ⟨idx, tx, now, hsent, hjob, rfl⟩
    · simp at hpair
  · rintro ⟨idx, tx, now, hsent, hjob, hkey⟩
    exact ⟨_, hsent, by simp [hjob, hkey]⟩

theorem okAnswers_subset {sends : List (ℕ × Answer)}
    (htruth : ∀ sent ∈ sends, Truthful jobs pairs sent.1 sent.2) :
    ∀ pair ∈ okAnswers jobs sends, pair ∈ pairs := by
  intro pair hpair
  obtain ⟨idx, tx, now, hsent, hjob, hkey⟩ := mem_okAnswers.1 hpair
  have hmem := htruth _ hsent tx now pair.2 hjob rfl
  rwa [hkey] at hmem

/-! ## Placed events -/

/-- The placed entries are the staged ones up to their positions. -/
def SameEntries (placed staged : List Staged) : Prop :=
  placed.map (fun entry => (entry.jobIdx, entry.wire)) =
    staged.map (fun entry => (entry.jobIdx, entry.wire))

variable {placed staged : List Staged}

theorem SameEntries.getElem? (hsame : SameEntries placed staged) {slot : ℕ} {entry : Staged}
    (hentry : placed[slot]? = some entry) :
    ∃ other, staged[slot]? = some other ∧ other.jobIdx = entry.jobIdx ∧
      other.wire = entry.wire := by
  have hmap := congrArg (fun entries => entries[slot]?) hsame
  simp only [List.getElem?_map, hentry, Option.map_some] at hmap
  obtain ⟨other, hother, heq⟩ := Option.map_eq_some_iff.1 hmap.symm
  rw [Prod.mk.injEq] at heq
  exact ⟨other, hother, heq⟩

theorem SameEntries.wires (hsame : SameEntries placed staged) :
    placed.map Staged.wire = staged.map Staged.wire := by
  have hmap := congrArg (List.map Prod.snd) hsame
  rw [List.map_map, List.map_map] at hmap
  exact hmap

/-- The events of placed entries are those of the log they were placed in. -/
theorem Staged.map_fst_items (entries : List Staged) :
    (entries.map fun entry => (entry.wire, entry.pos)).map Prod.fst =
      entries.map Staged.wire := by
  simp

theorem mem_commitsOf {wires : List WireEvent} {ev : WireEvent} (hev : ev ∈ wires)
    {pair : String × Committed} (hpair : ev.committed = some pair) : pair ∈ commitsOf wires :=
  List.mem_filterMap.2 ⟨ev, hev, hpair⟩

/-! ## Replies -/

/-- A justified reply sends the truth. -/
theorem Reply.truthful {reply : Reply} (hjustified : reply.Justified jobs pairs staged)
    (hmatching : ∀ entry ∈ staged, entry.Matches jobs) (hsame : SameEntries placed staged)
    {idx : ℕ} {answer : Job → Option Answer} (hreply : reply.answer placed = some (idx, answer))
    {job : Job} {now : Int} (hjob : jobs[idx]? = some (job, now)) {sent : Answer}
    (hsent : answer job = some sent) :
    Truthful jobs (pairs ++ commitsOf (placed.map Staged.wire)) idx sent := by
  rintro tx now' committed htx rfl
  obtain rfl : job = .commit tx := by
    rw [hjob] at htx
    cases htx
    rfl
  cases reply with
  | staged slot =>
      obtain ⟨entry, hentry, heq⟩ := Option.map_eq_some_iff.1 hreply
      cases heq
      obtain ⟨other, hother, hidx, hwire⟩ := hsame.getElem? hentry
      have hevent : entry.wire.event = .transactionPosted tx := by
        rw [← hwire]
        refine hmatching other (List.mem_of_getElem? hother) tx now ?_
        rwa [hidx]
      cases hsent
      refine List.mem_append_right _ (mem_commitsOf
        (List.mem_map_of_mem (List.mem_of_getElem? hentry)) ?_)
      rw [WireEvent.committed, hevent]
      rfl
  | dup dupIdx rec =>
      cases hreply
      cases hsent
      exact List.mem_append_left _ (hjustified tx now hjob)
  | dupInBatch dupIdx slot =>
      cases hreply
      obtain ⟨entry, first, hentry, hfirst⟩ := hjustified tx now hjob
      have hplaced := congrArg (fun entries => entries[slot]?) hsame.wires
      simp only [List.getElem?_map, hentry, Option.map_some] at hplaced
      obtain ⟨other, hother, hwire⟩ := Option.map_eq_some_iff.1 hplaced
      simp only [dupAnswer, hother, Option.bind_some, hwire, hfirst, Option.map_some,
        Option.some.injEq, Answer.committed.injEq, Except.ok.injEq] at hsent
      subst hsent
      exact List.mem_append_right _ (mem_commitsOf
        (List.mem_map_of_mem (List.mem_of_getElem? hother)) (by rw [hwire, hfirst]))
  | openExistsOk openIdx =>
      cases hreply
      simp at hsent
  | reject rejectIdx err =>
      cases hreply
      simp [rejectAnswer] at hsent

/-- The open slots hold the jobs of the batch. -/
def Slots.Of (slots : Slots) (jobs : List (Job × Int)) : Prop :=
  ∀ (idx : ℕ) (job : Job), slots[idx]?.join = some job →
    ∃ now, jobs[idx]? = some (job, now)

theorem Slots.of_jobs (jobs : List (Job × Int)) :
    Slots.Of (jobs.map fun job => some job.1) jobs := by
  intro idx job hslot
  rw [List.getElem?_map] at hslot
  cases hjob : jobs[idx]? with
  | none => simp [hjob] at hslot
  | some entry =>
      obtain ⟨first, now⟩ := entry
      simp only [hjob, Option.map_some, Option.join_some, Option.some.injEq] at hslot
      exact ⟨now, by rw [hslot]⟩

theorem Slots.Of.set {slots : Slots} (hslots : slots.Of jobs) (idx : ℕ) :
    Slots.Of (slots.set idx none) jobs := by
  intro other job hslot
  rw [List.getElem?_set] at hslot
  split at hslot
  · split at hslot <;> simp at hslot
  · exact hslots other job hslot

/-- Every answer of phase 6 is true. -/
theorem sendReplies_truthful {replies : List Reply}
    (hjustified : ∀ reply ∈ replies, reply.Justified jobs pairs staged)
    (hmatching : ∀ entry ∈ staged, entry.Matches jobs) (hsame : SameEntries placed staged)
    {slots : Slots} (hslots : slots.Of jobs) :
    ∀ sent ∈ (sendReplies placed replies slots).1,
      Truthful jobs (pairs ++ commitsOf (placed.map Staged.wire)) sent.1 sent.2 := by
  have hstep : ∀ (replies : List Reply) (sent : List (ℕ × Answer) × Slots),
      (∀ reply ∈ replies, reply.Justified jobs pairs staged) → sent.2.Of jobs →
      (∀ one ∈ sent.1, Truthful jobs (pairs ++ commitsOf (placed.map Staged.wire)) one.1 one.2) →
      ∀ one ∈ (replies.foldl (sendReply placed) sent).1,
        Truthful jobs (pairs ++ commitsOf (placed.map Staged.wire)) one.1 one.2 := by
    intro replies
    induction replies with
    | nil => exact fun _ _ _ htruth => htruth
    | cons reply replies ih =>
        intro sent hreplies hopen htruth
        rw [List.foldl_cons]
        have hrest := fun other hother => hreplies other (List.mem_cons_of_mem reply hother)
        unfold sendReply
        cases hanswer : reply.answer placed with
        | none => exact ih sent hrest hopen htruth
        | some target =>
            obtain ⟨idx, answer⟩ := target
            dsimp only [Slots.take]
            cases hsent : sent.2[idx]?.join.bind answer with
            | none => exact ih _ hrest (hopen.set idx) htruth
            | some one =>
                refine ih _ hrest (hopen.set idx) fun other hother => ?_
                rcases List.mem_append.1 hother with hold | hnew
                · exact htruth other hold
                · rw [List.mem_singleton.1 hnew]
                  obtain ⟨job, hslot, hone⟩ := Option.bind_eq_some_iff.1 hsent
                  obtain ⟨now, hjob⟩ := hopen idx job hslot
                  exact Reply.truthful (hreplies reply List.mem_cons_self) hmatching hsame
                    hanswer hjob hone
  exact hstep replies ([], slots) hjustified hslots (by simp)

/-- The answers to snapshot jobs are no answers to commits. -/
theorem sendSnapshotReplies_truthful (result : Except String Unit) (slots : Slots)
    (snapJobs : List ℕ) :
    ∀ sent ∈ sendSnapshotReplies result slots snapJobs, Truthful jobs pairs sent.1 sent.2 := by
  intro sent hsent tx now committed _ hanswer
  obtain ⟨idx, -, hidx⟩ := List.mem_filterMap.1 hsent
  split at hidx
  · cases hidx
    simp at hanswer
  · simp at hidx

theorem mem_publishedEvents {replies : List Reply} {ev : WireEvent}
    (hev : ev ∈ publishedEvents placed replies) : ev ∈ placed.map Staged.wire := by
  obtain ⟨reply, -, hreply⟩ := List.mem_filterMap.1 hev
  cases reply with
  | staged slot =>
      obtain ⟨entry, hentry, rfl⟩ := Option.map_eq_some_iff.1 hreply
      exact List.mem_map_of_mem (List.mem_of_getElem? hentry)
  | _ => simp at hreply

end Talea.Log
