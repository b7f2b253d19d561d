import Talea.Lib.Places
import Talea.Service.WriteRouter

/-!
# What one step of the router can do

A submit moves on, spawns a committer or gives its job to one; a committer
takes a job, calls the store, or goes through the stages of its end; an answer
of the store goes to the jobs of its call.
-/

namespace Talea.Service

/-- `try_send` has taken the job. -/
def Stage.accepted : Stage → Bool
  | .awaiting | .gone => true
  | .returned (.error .overloaded) => false
  | .returned _ => true
  | .looking | .sending _ | .panicked => false

/-- What a submit may return: it was turned away, or it says what its reply
channel says. -/
def Submit.Returns (submit : Submit) (result : Except SubmitError Committed) : Prop :=
  result = .error .overloaded ∨
    (∃ sent, submit.reply = .sent sent ∧ result = sent.mapError .store) ∨
    submit.reply = .dropped ∧ result = .error .committerGone

namespace WriteRouter

inductive Move (cfg : WriteConfig) (router : WriteRouter) : Event → WriteRouter → Prop
  | submit (transaction : Transaction) :
      Move cfg router (.submit transaction)
        { router with submits := router.submits ++ [⟨transaction, .looking, .pending⟩] }
  | stage {event : Event} {id : ℕ} {submit : Submit} {stage : Stage}
      (hsubmit : router.submits[id]? = some submit)
      (haccepted : stage.accepted = submit.stage.accepted)
      (hsender : ∀ sender, stage = .sending sender →
        router.books.lookup submit.book = some sender)
      (hreturns : ∀ result, stage = .returned result → submit.Returns result) :
      Move cfg router event (router.setSubmit id { submit with stage })
  | spawn {event : Event} {id : ℕ} {submit : Submit}
      (hsubmit : router.submits[id]? = some submit) (hstage : submit.stage = .looking)
      (hclosed : ∀ sender, router.books.lookup submit.book = some sender →
        router.isClosed sender = true) :
      Move cfg router event
        { router.setSubmit id { submit with stage := .sending router.committers.length } with
          books := router.books.insert submit.book router.committers.length
          committers := router.committers ++ [⟨submit.book, [], false, .receiving⟩] }
  | send {event : Event} {id : ℕ} {submit : Submit} {sender : ℕ} {committer : Committer}
      (hsubmit : router.submits[id]? = some submit) (hstage : submit.stage = .sending sender)
      (hcommitter : router.committers[sender]? = some committer)
      (hopen : committer.closed = false) :
      Move cfg router event
        ((router.setSubmit id { submit with stage := .awaiting }).setCommitter sender
          { committer with buffer := committer.buffer ++ [⟨submit.transaction, id⟩] })
  | receive {event : Event} {id : ℕ} {committer : Committer} {first : Job} {rest : List Job}
      (hcommitter : router.committers[id]? = some committer)
      (hphase : committer.phase = .receiving) (hbuffer : committer.buffer = first :: rest) :
      Move cfg router event
        (router.setCommitter id { committer with buffer := rest, phase := .draining [first] })
  | exit {event : Event} {id : ℕ} {committer : Committer}
      (hcommitter : router.committers[id]? = some committer)
      (hphase : committer.phase = .receiving) (hbuffer : committer.buffer = [])
      (hend : committer.closed = true ∨ router.books.lookup committer.book ≠ some id) :
      Move cfg router event
        (router.setCommitter id { committer with closed := true, phase := .exited })
  | drain {event : Event} {id : ℕ} {committer : Committer} {batch rest : List Job} {job : Job}
      (hcommitter : router.committers[id]? = some committer)
      (hphase : committer.phase = .draining batch) (hbuffer : committer.buffer = job :: rest) :
      Move cfg router event
        (router.setCommitter id
          { committer with buffer := rest, phase := .draining (batch ++ [job]) })
  | call {event : Event} {id : ℕ} {committer : Committer} {batch : List Job}
      (hcommitter : router.committers[id]? = some committer)
      (hphase : committer.phase = .draining batch) :
      Move cfg router event
        { router.setCommitter id { committer with phase := .committing router.calls.length } with
          calls := router.calls ++ [⟨id, batch, none⟩] }
  | close {event : Event} {id : ℕ} {committer : Committer}
      (hcommitter : router.committers[id]? = some committer)
      (hphase : committer.phase = .deregistered) :
      Move cfg router event
        (router.setCommitter id { committer with closed := true, phase := .receiving })
  | deregister {id : ℕ} {committer : Committer}
      (hcommitter : router.committers[id]? = some committer)
      (hphase : committer.phase = .receiving) (hopen : committer.closed = false) :
      Move cfg router (.idle id)
        { router.setCommitter id { committer with phase := .deregistered } with
          books := router.books.erase committer.book }
  | answer {id : ℕ} {results : List Committing} {committer : Committer} {call : ℕ}
      {made : StoreCall}
      (hcommitter : router.committers[id]? = some committer)
      (hphase : committer.phase = .committing call) (hmade : router.calls[call]? = some made) :
      Move cfg router (.answer id results)
        { router.setCommitter id { committer with phase := .receiving } with
          submits := reply router.submits made.batch results
          calls := router.calls.set call { made with results := some results } }

section Moves

variable {cfg : WriteConfig} {router next : WriteRouter} {event : Event} {id : ℕ}
  {submit : Submit} {committer : Committer}

theorem move_of_spawn (hsubmit : router.submits[id]? = some submit)
    (hstage : submit.stage = .looking)
    (hclosed : ∀ sender, router.books.lookup submit.book = some sender →
      router.isClosed sender = true) :
    Move cfg router event (router.spawn cfg id submit) := by
  unfold spawn
  split
  · refine .stage hsubmit ?_ nofun nofun
    rw [hstage]
    rfl
  · exact .spawn hsubmit hstage hclosed

theorem move_of_senderFor (hsubmit : router.submits[id]? = some submit)
    (hstage : submit.stage = .looking) :
    Move cfg router event (router.senderFor cfg id submit) := by
  unfold senderFor
  split
  · next sender hlookup =>
      split
      · next hclosed =>
          refine move_of_spawn hsubmit hstage fun other hother => ?_
          cases hlookup.symm.trans hother
          exact hclosed
      · refine .stage hsubmit ?_ (fun other hother => ?_) nofun
        · rw [hstage]
          rfl
        · cases hother
          exact hlookup
  · next hlookup =>
      refine move_of_spawn hsubmit hstage fun other hother => ?_
      rw [hlookup] at hother
      cases hother

theorem move_of_trySend {sender : ℕ} (hsubmit : router.submits[id]? = some submit)
    (hstage : submit.stage = .sending sender)
    (hcommitter : router.committers[sender]? = some committer) :
    Move cfg router event (router.trySend cfg id submit sender committer) := by
  unfold trySend
  split
  · refine .stage hsubmit ?_ nofun nofun
    rw [hstage]
    rfl
  · next hopen =>
      split
      · refine .stage hsubmit ?_ nofun fun result hresult => ?_
        · rw [hstage]
          rfl
        · cases hresult
          exact Or.inl rfl
      · exact .send hsubmit hstage hcommitter (Bool.eq_false_iff.2 hopen)

theorem move_of_resume (hsubmit : router.submits[id]? = some submit)
    (hstage : submit.stage = .awaiting) (hstep : router.resume id submit = some next) :
    Move cfg router event next := by
  unfold resume at hstep
  split at hstep
  · cases hstep
  · next result hreply =>
      cases hstep
      refine .stage hsubmit ?_ nofun fun returned hreturned => ?_
      · rw [hstage]
        cases result <;> rfl
      · cases hreturned
        exact Or.inr (Or.inl ⟨result, hreply, rfl⟩)
  · next hreply =>
      cases hstep
      refine .stage hsubmit ?_ nofun fun returned hreturned => ?_
      · rw [hstage]
        rfl
      · cases hreturned
        exact Or.inr (Or.inr ⟨hreply, rfl⟩)

theorem move_of_poll (hstep : router.poll cfg id = some next) : Move cfg router event next := by
  unfold poll at hstep
  cases hsubmit : router.submits[id]? with
  | none =>
      rw [hsubmit] at hstep
      cases hstep
  | some submit =>
      rw [hsubmit] at hstep
      dsimp only at hstep
      split at hstep
      · next hstage =>
          cases hstep
          exact move_of_senderFor hsubmit hstage
      · next sender hstage =>
          obtain ⟨committer, hcommitter, rfl⟩ := Option.map_eq_some_iff.1 hstep
          exact move_of_trySend hsubmit hstage hcommitter
      · next hstage => exact move_of_resume hsubmit hstage hstep
      · cases hstep

theorem move_of_cancel (hstep : router.cancel id = some next) : Move cfg router event next := by
  unfold cancel at hstep
  split at hstep
  · next transaction reply hsubmit =>
      cases hstep
      exact .stage hsubmit rfl nofun nofun
  · cases hstep

theorem move_of_receive (hcommitter : router.committers[id]? = some committer)
    (hphase : committer.phase = .receiving) (hstep : router.receive id committer = some next) :
    Move cfg router event next := by
  unfold receive at hstep
  split at hstep
  · next first rest hbuffer =>
      cases hstep
      exact .receive hcommitter hphase hbuffer
  · next hbuffer =>
      split at hstep
      · next hend =>
          cases hstep
          refine .exit hcommitter hphase hbuffer (hend.imp_right fun hnone hentry => ?_)
          exact hnone (Or.inl hentry)
      · cases hstep

theorem move_of_drain {batch : List Job} (hcommitter : router.committers[id]? = some committer)
    (hphase : committer.phase = .draining batch) :
    Move cfg router event (router.drain cfg id committer batch) := by
  unfold drain
  dsimp only
  split
  · split
    · next job rest hbuffer => exact .drain hcommitter hphase hbuffer
    · exact .call hcommitter hphase
  · exact .call hcommitter hphase

theorem move_of_run (hstep : router.run cfg id = some next) : Move cfg router event next := by
  unfold run at hstep
  cases hcommitter : router.committers[id]? with
  | none =>
      rw [hcommitter] at hstep
      cases hstep
  | some committer =>
      rw [hcommitter] at hstep
      dsimp only at hstep
      split at hstep
      · next hphase => exact move_of_receive hcommitter hphase hstep
      · next batch hphase =>
          cases hstep
          exact move_of_drain hcommitter hphase
      · next hphase =>
          cases hstep
          exact .close hcommitter hphase
      · cases hstep
      · cases hstep

/-- A step of the router is one of its moves. -/
theorem move_of_step (hstep : router.step cfg event = some next) : Move cfg router event next := by
  cases event with
  | submit transaction =>
      cases hstep
      exact .submit transaction
  | poll id => exact move_of_poll hstep
  | cancel id => exact move_of_cancel hstep
  | run id => exact move_of_run hstep
  | idle id =>
      change router.idle id = some next at hstep
      unfold idle at hstep
      split at hstep
      · next book buffer hcommitter =>
          cases hstep
          exact .deregister hcommitter rfl rfl
      · cases hstep
  | answer id results =>
      change router.answer id results = some next at hstep
      unfold answer at hstep
      split at hstep
      · next book buffer closed call hcommitter =>
          obtain ⟨made, hmade, rfl⟩ := Option.map_eq_some_iff.1 hstep
          exact .answer hcommitter rfl hmade
      · cases hstep

end Moves

/-! ## Replies -/

theorem getElem?_setReply (submits : List Submit) (id other : ℕ) (reply : Oneshot) :
    (setReply submits id reply)[other]? =
      if id = other then (submits[other]?).map fun submit => { submit with reply }
      else submits[other]? := by
  rw [setReply, List.getElem?_modify]
  split <;> simp

/-- A reply changes what a submit's channel says, nothing else of it. -/
theorem getElem?_reply (submits : List Submit) (jobs : List Job) (results : List Committing)
    (id : ℕ) :
    ∃ reply' : Oneshot → Oneshot, (reply submits jobs results)[id]? =
      (submits[id]?).map fun submit => { submit with reply := reply' submit.reply } := by
  induction jobs generalizing submits results with
  | nil => exact ⟨fun reply => reply, by simp [reply]⟩
  | cons job jobs ih =>
      have hset : ∀ oneshot results, ∃ reply' : Oneshot → Oneshot,
          (reply (setReply submits job.reply oneshot) jobs results)[id]? =
            (submits[id]?).map fun submit => { submit with reply := reply' submit.reply } := by
        intro oneshot results
        obtain ⟨reply', hreply⟩ := ih (setReply submits job.reply oneshot) results
        rw [hreply, getElem?_setReply]
        split
        · exact ⟨fun _ => reply' oneshot, by rw [Option.map_map]; rfl⟩
        · exact ⟨reply', rfl⟩
      cases results with
      | nil => exact hset .dropped []
      | cons result results => exact hset (.sent result) results

theorem getElem?_reply_of_not_mem (submits : List Submit) {jobs : List Job}
    (results : List Committing) {id : ℕ} (hid : id ∉ jobs.map Job.reply) :
    (reply submits jobs results)[id]? = submits[id]? := by
  induction jobs generalizing submits results with
  | nil => rfl
  | cons job jobs ih =>
      rw [List.map_cons, List.mem_cons, not_or] at hid
      have hset : ∀ oneshot, (setReply submits job.reply oneshot)[id]? = submits[id]? := by
        intro oneshot
        rw [getElem?_setReply, if_neg fun h => hid.1 h.symm]
      cases results with
      | nil => exact (ih _ _ hid.2).trans (hset _)
      | cons result results => exact (ih _ _ hid.2).trans (hset _)

/-- With one result for each job, a job's channel gets the result at the job's
own position. -/
theorem getElem?_reply_of_position (submits : List Submit) {jobs : List Job}
    {results : List Committing} (hlength : results.length = jobs.length)
    (hnodup : (jobs.map Job.reply).Nodup) {position : ℕ} {job : Job} {result : Committing}
    (hjob : jobs[position]? = some job) (hresult : results[position]? = some result) :
    (reply submits jobs results)[job.reply]? =
      (submits[job.reply]?).map fun submit => { submit with reply := .sent result } := by
  induction jobs generalizing submits results position with
  | nil => cases hjob
  | cons first jobs ih =>
      rw [List.map_cons, List.nodup_cons] at hnodup
      cases results with
      | nil => cases hlength
      | cons firstResult results =>
          rw [reply]
          cases position with
          | zero =>
              cases hjob
              cases hresult
              rw [getElem?_reply_of_not_mem _ _ hnodup.1, getElem?_setReply, if_pos rfl]
          | succ position =>
              have hrest : jobs[position]? = some job := hjob
              have hmem : job.reply ∈ jobs.map Job.reply :=
                List.mem_map_of_mem (List.mem_of_getElem? hrest)
              have hne : first.reply ≠ job.reply := fun heq => hnodup.1 (heq ▸ hmem)
              rw [ih _ (Nat.succ.inj hlength) hnodup.2 hrest hresult, getElem?_setReply,
                if_neg hne]

end WriteRouter

end Talea.Service
