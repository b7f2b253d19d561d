import Talea.Core.Store
import Talea.Lib.HashMap
import Talea.Lib.Steps

/-!
# The write router

Each book has a committer with a channel, and a map from books to senders.  A
submit takes a sender out of the map and sends later; an idle committer takes
its entry out of the map, closes its channel later, and drains what came in
between.  Every await, every lock of the map and every channel operation is a
step of its own.  A committer is known by the index of its channel, a job's
reply channel by the submit that waits at it.
-/

namespace Talea.Service

structure WriteConfig where
  queueDepth : ℕ
  batchMax : ℕ

inductive SubmitError
  | overloaded
  | committerGone
  | store (error : StoreError)

abbrev Committing := Except StoreError Committed

structure Job where
  transaction : Transaction
  reply : ℕ

/-- The sending side of a job's reply channel. -/
inductive Oneshot
  | pending
  | sent (result : Committing)
  | dropped

/-- Where a submit is: before `sender_for`, before `try_send` with a sender in
hand, at the reply, or over. -/
inductive Stage
  | looking
  | sending (committer : ℕ)
  | awaiting
  | returned (result : Except SubmitError Committed)
  | gone
  | panicked

structure Submit where
  transaction : Transaction
  stage : Stage
  reply : Oneshot

def Submit.book (submit : Submit) : String :=
  submit.transaction.book.name

/-- The clone of a sender that a submit holds. -/
def Submit.sender (submit : Submit) : Option ℕ :=
  match submit.stage with
  | .sending sender => some sender
  | _ => none

/-- Where a committer is: at `recv`, in `drain_batch`, in `commit_batch`, behind
the removal of its entry, or over. -/
inductive Phase
  | receiving
  | draining (batch : List Job)
  | committing (call : ℕ)
  | deregistered
  | exited

/-- A committer and its channel.  Behind `close` it is in its last loop. -/
structure Committer where
  book : String
  buffer : List Job
  closed : Bool
  phase : Phase

/-- A call of `Store::commit_batch`. -/
structure StoreCall where
  committer : ℕ
  batch : List Job
  results : Option (List Committing)

structure WriteRouter where
  books : HashMap String ℕ
  committers : List Committer
  submits : List Submit
  calls : List StoreCall

namespace WriteRouter

def fresh : WriteRouter :=
  ⟨∅, [], [], []⟩

def setSubmit (router : WriteRouter) (id : ℕ) (submit : Submit) : WriteRouter :=
  { router with submits := router.submits.set id submit }

def setCommitter (router : WriteRouter) (id : ℕ) (committer : Committer) : WriteRouter :=
  { router with committers := router.committers.set id committer }

variable (cfg : WriteConfig) (router : WriteRouter)

/-- A channel without a receiver counts as closed. -/
def isClosed (id : ℕ) : Bool :=
  match router.committers[id]? with
  | some committer => committer.closed
  | none => true

/-- A fresh channel takes over the entry of the book; one without capacity
panics. -/
def spawn (id : ℕ) (submit : Submit) : WriteRouter :=
  if cfg.queueDepth = 0 then router.setSubmit id { submit with stage := .panicked }
  else
    { router.setSubmit id { submit with stage := .sending router.committers.length } with
      books := router.books.insert submit.book router.committers.length
      committers := router.committers ++ [⟨submit.book, [], false, .receiving⟩] }

/-- `sender_for`, under the lock of the map. -/
def senderFor (id : ℕ) (submit : Submit) : WriteRouter :=
  match router.books.lookup submit.book with
  | some sender =>
      if router.isClosed sender then router.spawn cfg id submit
      else router.setSubmit id { submit with stage := .sending sender }
  | none => router.spawn cfg id submit

/-- `try_send`: a closed channel gives the job back, a full one ends the submit. -/
def trySend (id : ℕ) (submit : Submit) (sender : ℕ) (committer : Committer) : WriteRouter :=
  if committer.closed then router.setSubmit id { submit with stage := .looking }
  else if cfg.queueDepth ≤ committer.buffer.length then
    router.setSubmit id { submit with stage := .returned (.error .overloaded) }
  else
    (router.setSubmit id { submit with stage := .awaiting }).setCommitter sender
      { committer with buffer := committer.buffer ++ [⟨submit.transaction, id⟩] }

/-- The submit at the end of its await. -/
def resume (id : ℕ) (submit : Submit) : Option WriteRouter :=
  match submit.reply with
  | .pending => none
  | .sent result =>
      some (router.setSubmit id { submit with stage := .returned (result.mapError .store) })
  | .dropped =>
      some (router.setSubmit id { submit with stage := .returned (.error .committerGone) })

def poll (id : ℕ) : Option WriteRouter :=
  match router.submits[id]? with
  | none => none
  | some submit =>
      match submit.stage with
      | .looking => some (router.senderFor cfg id submit)
      | .sending sender =>
          router.committers[sender]?.map (router.trySend cfg id submit sender)
      | .awaiting => router.resume id submit
      | _ => none

/-- A submit can be given up where it waits, and nowhere else. -/
def cancel (id : ℕ) : Option WriteRouter :=
  match router.submits[id]? with
  | some ⟨transaction, .awaiting, reply⟩ => some (router.setSubmit id ⟨transaction, .gone, reply⟩)
  | _ => none

def HasSender (id : ℕ) (committer : Committer) : Prop :=
  router.books.lookup committer.book = some id ∨
    ∃ submit ∈ router.submits, submit.sender = some id

instance (id : ℕ) (committer : Committer) : Decidable (router.HasSender id committer) :=
  inferInstanceAs (Decidable (_ ∨ _))

/-- `recv`: the first job of a batch, or the end of a channel that is empty and
closed or has no sender left. -/
def receive (id : ℕ) (committer : Committer) : Option WriteRouter :=
  match committer.buffer with
  | first :: rest =>
      some (router.setCommitter id { committer with buffer := rest, phase := .draining [first] })
  | [] =>
      if committer.closed ∨ ¬ router.HasSender id committer then
        some (router.setCommitter id { committer with closed := true, phase := .exited })
      else none

/-- One turn of `drain_batch`, or the call of `commit_batch` behind the last one. -/
def drain (id : ℕ) (committer : Committer) (batch : List Job) : WriteRouter :=
  let call : WriteRouter :=
    { router.setCommitter id { committer with phase := .committing router.calls.length } with
      calls := router.calls ++ [⟨id, batch, none⟩] }
  if batch.length < cfg.batchMax then
    match committer.buffer with
    | job :: rest =>
        router.setCommitter id { committer with buffer := rest, phase := .draining (batch ++ [job]) }
    | [] => call
  else call

/-- A committer's own step, up to the next answer of the store. -/
def run (id : ℕ) : Option WriteRouter :=
  match router.committers[id]? with
  | none => none
  | some committer =>
      match committer.phase with
      | .receiving => router.receive id committer
      | .draining batch => some (router.drain cfg id committer batch)
      | .deregistered =>
          some (router.setCommitter id { committer with closed := true, phase := .receiving })
      | .committing _ | .exited => none

/-- The wait of a committer's first loop runs out. -/
def idle (id : ℕ) : Option WriteRouter :=
  match router.committers[id]? with
  | some ⟨book, buffer, false, .receiving⟩ =>
      some { router.setCommitter id ⟨book, buffer, false, .deregistered⟩ with
        books := router.books.erase book }
  | _ => none

def setReply (submits : List Submit) (id : ℕ) (reply : Oneshot) : List Submit :=
  submits.modify id fun submit => { submit with reply }

/-- The replies, by position; a job without a result drops its channel. -/
def reply : List Submit → List Job → List Committing → List Submit
  | submits, [], _ => submits
  | submits, job :: jobs, [] => reply (setReply submits job.reply .dropped) jobs []
  | submits, job :: jobs, result :: results =>
      reply (setReply submits job.reply (.sent result)) jobs results

/-- `commit_batch` returns. -/
def answer (id : ℕ) (results : List Committing) : Option WriteRouter :=
  match router.committers[id]? with
  | some ⟨book, buffer, closed, .committing call⟩ =>
      router.calls[call]?.map fun made =>
        { router.setCommitter id ⟨book, buffer, closed, .receiving⟩ with
          submits := reply router.submits made.batch results
          calls := router.calls.set call { made with results := some results } }
  | _ => none

inductive Event
  | submit (transaction : Transaction)
  | poll (id : ℕ)
  | cancel (id : ℕ)
  | run (committer : ℕ)
  | idle (committer : ℕ)
  | answer (committer : ℕ) (results : List Committing)

def step (router : WriteRouter) : Event → Option WriteRouter
  | .submit transaction =>
      some { router with submits := router.submits ++ [⟨transaction, .looking, .pending⟩] }
  | .poll id => router.poll cfg id
  | .cancel id => router.cancel id
  | .run committer => router.run cfg committer
  | .idle committer => router.idle committer
  | .answer committer results => router.answer committer results

end WriteRouter

end Talea.Service
