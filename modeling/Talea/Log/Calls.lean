import Talea.Lib.Steps
import Talea.Lib.Totals
import Talea.Log.Writer

/-!
# Calls on the store

Any number of calls share one store: the map of the books with its lock, the
asset registry with its lock, and the flag that `shutdown` sets.  A call runs
from one await to the next, and in between any other call may run, or a writer
task.  A call holds a handle, and with it a sender of the job channel, for each
writer it has got; a writer task ends when its channel is empty and the last
sender is gone.  The future of a call may be dropped at any await.
-/

namespace Talea.Log

/-! ## Books and their directories -/

/-- Book names that are rejected: empty ones, and those with a separator or two
dots in a row. -/
def validateBookName (book : String) : Bool :=
  decide (book ≠ "" ∧ '/' ∉ book.toList ∧ '\\' ∉ book.toList ∧ ¬ ['.', '.'] <:+: book.toList)

/-- The directory of a book, as a path below `books/`; the name `.` is resolved
to `books/` itself. -/
def bookDir (book : String) : String :=
  if book = "." then "" else book

/-! ## Calls -/

/-- What is asked of the store.  A `read` stands for the calls that only look
at a book: balances, histories, transactions, trial balances and events. -/
inductive Op
  | commit (tx : Transaction)
  | commitBatch (txs : List Transaction)
  | openAccount (account : AccountDef) (cfg : AccountCfg)
  | registerAsset (asset : AssetDef)
  | snapshotNow (book : String)
  | read (book : String)
  | subscribe (book : String)
  | shutdown
  deriving DecidableEq

namespace Op

/-- The books a call needs the writer of, and the jobs it submits to them. -/
def targets : Op → List (String × Option Job)
  | .commit tx => [(tx.book.name, some (.commit tx))]
  | .commitBatch txs => txs.map fun tx => (tx.book.name, some (.commit tx))
  | .openAccount account cfg => [(account.id.book.name, some (.openAccount account cfg))]
  | .registerAsset asset => [(systemBook.name, some (.registerAsset asset))]
  | .snapshotNow book => [(book, some .snapshot)]
  | .read book => [(book, none)]
  | .subscribe book => [(book, none)]
  | .shutdown => []

/-- `book_writer` and `existing_book` look at the flag first; `subscribe` finds
the writer by itself, and does not. -/
def checksFlag : Op → Bool
  | .subscribe _ => false
  | _ => true

/-- A book that is not there is created by `book_writer` and by `subscribe`,
not by `existing_book`. -/
def creates : Op → Bool
  | .snapshotNow _ => false
  | .read _ => false
  | _ => true

def isSubscribe : Op → Bool
  | .subscribe _ => true
  | _ => false

end Op

/-- Where a call is, at an await or between two of them. -/
inductive Stage
  | start
  /-- Waits for the lock of the registry. -/
  | registry
  /-- Is about to look for the next writer. -/
  | enter
  /-- Waits for the read lock of the map. -/
  | fast
  /-- Waits for the write lock of the map. -/
  | slow
  /-- Holds it and creates a book. -/
  | creating
  /-- A read that has the writer. -/
  | reading
  /-- A stream that pages through history, and then tails; `received` broadcasts
  of its writer were before it, or have been received. -/
  | paging (received : ℕ)
  | tailing (received : ℕ)
  /-- Sends the next job. -/
  | submitting
  /-- Waits for the reply to a job. -/
  | awaiting (idx : ℕ)
  /-- `shutdown` waits for the write lock of the map. -/
  | draining
  /-- `shutdown` waits for the first of these writers. -/
  | joining (writers : List ℕ)
  /-- The results by job; where there is none the call failed on its way. -/
  | finished (results : List (Option Answer))

namespace Stage

def isSlow : Stage → Bool
  | .slow => true
  | _ => false

def isCreating : Stage → Bool
  | .creating => true
  | _ => false

def isDraining : Stage → Bool
  | .draining => true
  | _ => false

/-- The writer whose end `shutdown` waits for. -/
def waitsFor : Stage → Option ℕ
  | .joining writers => writers.head?
  | _ => none

end Stage

/-- A call: the writers it has got for its first targets, where it got one, and
the jobs it has sent for the first of these, by their number. -/
structure Call where
  op : Op
  stage : Stage
  acquired : List (Option ℕ)
  sent : List (Option ℕ)

namespace Call

def new (op : Op) : Call :=
  ⟨op, .start, [], []⟩

/-- The next target. -/
def target (call : Call) : Option String :=
  (call.op.targets[call.acquired.length]?).map Prod.fst

/-- The result for an earlier target of the same book. -/
def cached (call : Call) (book : String) : Option (Option ℕ) :=
  (((call.op.targets.map Prod.fst).zip call.acquired).find? fun pair => pair.1 = book).map
    Prod.snd

def acquire (call : Call) (result : Option ℕ) : Call :=
  { call with stage := .enter, acquired := call.acquired ++ [result] }

def finish (call : Call) (results : List (Option Answer)) : Call :=
  { call with stage := .finished results, acquired := [], sent := [] }

/-- The writers a call holds a handle of.  `shutdown` has dropped the handle of
the one it waits for. -/
def handles (call : Call) : List ℕ :=
  match call.stage with
  | .joining writers => writers.tail
  | _ => call.acquired.filterMap id

end Call

/-! ## Jobs and writers -/

/-- Where a job is: in the channel, in the batch that is being written, on disk
and applied with the answer it will receive, or answered; where there is no
answer its reply channel is dropped. -/
inductive JobStatus
  | queued
  | taken
  | written (answer : Option Answer)
  | answered (answer : Option Answer)

structure SentJob where
  writer : ℕ
  job : Job
  status : JobStatus

namespace SentJob

def isQueued (sent : SentJob) (writer : ℕ) : Bool :=
  match sent.status with
  | .queued => sent.writer = writer
  | _ => false

def isTaken (sent : SentJob) (writer : ℕ) : Bool :=
  match sent.status with
  | .taken => sent.writer = writer
  | _ => false

def isWritten (sent : SentJob) (writer : ℕ) : Bool :=
  match sent.status with
  | .written _ => sent.writer = writer
  | _ => false

/-- The job is not answered. -/
def isOpen (sent : SentJob) (writer : ℕ) : Bool :=
  match sent.status with
  | .answered _ => false
  | _ => sent.writer = writer

end SentJob

/-- A writer task: the directory it writes to, its state, and the events it has
broadcast and is about to. -/
structure WriterTask where
  dir : String
  state : BookState
  published : ℕ
  unpublished : ℕ
  exited : Bool

def WriterTask.spawn (dir : String) (state : BookState) : WriterTask :=
  ⟨dir, state, 0, 0, false⟩

/-- The store, its calls and its writers; `logs` are the events in the files of
each directory. -/
structure LogTaleaStore where
  shutDown : Bool
  books : HashMap String ℕ
  booksWriter : Option ℕ
  registry : HashMap AssetId AssetDef
  registryWriter : Option ℕ
  locked : Bool
  calls : HashMap ℕ Call
  jobs : List SentJob
  writers : List WriterTask
  logs : HashMap String (List WireEvent)

def batchMax : ℕ := 1024

/-- The capacity of a job channel. -/
def channelCapacity : ℕ := 4096

namespace LogTaleaStore

variable (store : LogTaleaStore)

def setCall (id : ℕ) (call : Call) : LogTaleaStore :=
  { store with calls := store.calls.insert id call }

def setWriter (id : ℕ) (task : WriterTask) : LogTaleaStore :=
  { store with writers := store.writers.set id task }

/-- The events in the files of a directory. -/
def log (dir : String) : List WireEvent :=
  (store.logs.lookup dir).getD []

def append (dir : String) (wires : List WireEvent) : LogTaleaStore :=
  { store with logs := store.logs.insert dir (store.log dir ++ wires) }

/-- Somebody holds a sender of a writer's channel: the map, or a call. -/
def HasSender (writer : ℕ) : Prop :=
  (∃ entry ∈ store.books.sorted, entry.2 = writer) ∨
    ∃ entry ∈ store.calls.sorted, writer ∈ entry.2.handles

instance (writer : ℕ) : Decidable (store.HasSender writer) :=
  inferInstanceAs (Decidable (_ ∨ _))

/-- The writer waits for a job: it has no batch, and its channel is empty. -/
def Idle (writer : ℕ) : Prop :=
  ∀ sent ∈ store.jobs, sent.isOpen writer = false

instance (writer : ℕ) : Decidable (store.Idle writer) :=
  inferInstanceAs (Decidable (∀ sent ∈ store.jobs, sent.isOpen writer = false))

/-! ## A call goes on -/

/-- What a call leaves to its surroundings: whether the directory of a book can
be created and its writer spawned, and the order in which a map is drained. -/
structure PollIo where
  creates : Bool
  order : List String

/-- The first poll. -/
def pollStart (id : ℕ) (call : Call) : LogTaleaStore :=
  match call.op with
  | .openAccount account _ =>
      if account.id.book.isReserved then
        store.setCall id (call.finish [some (.done (.error (.invalidBook account.id.book)))])
      else store.setCall id { call with stage := .registry }
  | .registerAsset _ =>
      if store.shutDown then store.setCall id (call.finish [none])
      else store.setCall id { call with stage := .registry }
  | .shutdown => { store.setCall id { call with stage := .draining } with shutDown := true }
  | _ => store.setCall id { call with stage := .enter }

/-- `open_account` looks into the registry; `register_asset` keeps its write
lock when the asset is new. -/
def pollRegistry (id : ℕ) (call : Call) : Option LogTaleaStore :=
  if store.registryWriter.isSome then none
  else
    match call.op with
    | .openAccount account _ =>
        if account.asset ∈ store.registry then
          some (store.setCall id { call with stage := .enter })
        else
          some (store.setCall id (call.finish
            [some (.done (.error (.unknownAsset account.asset)))]))
    | .registerAsset asset =>
        match store.registry.lookup asset.id with
        | some existing =>
            if existing = asset then some (store.setCall id (call.finish [some (.done (.ok ()))]))
            else
              some (store.setCall id (call.finish
                [some (.done (.error (.alreadyExists s!"asset {asset.id.id}")))]))
        | none =>
            some { store.setCall id { call with stage := .enter } with
              registryWriter := some id }
    | _ => none

/-- What a call does when it has looked for all of its writers. -/
def afterAcquire (call : Call) : Call :=
  match call.op, call.acquired with
  | .subscribe _, [some writer] =>
      { call with
        stage := .paging ((store.writers[writer]?.map WriterTask.published).getD 0) }
  | .subscribe _, _ => call.finish []
  | .read _, [some _] => { call with stage := .reading }
  | .read _, _ => call.finish []
  | _, _ => { call with stage := .submitting }

/-- The start of `book_writer`, `existing_book` and `subscribe`. -/
def pollEnter (id : ℕ) (call : Call) : LogTaleaStore :=
  match call.target with
  | none => store.setCall id (store.afterAcquire call)
  | some book =>
      match call.cached book with
      | some result => store.setCall id (call.acquire result)
      | none =>
          if (call.op.checksFlag ∧ store.shutDown) ∨ ¬ validateBookName book then
            store.setCall id (call.acquire none)
          else store.setCall id { call with stage := .fast }

/-- The fast path: the read lock. -/
def pollFast (id : ℕ) (call : Call) : Option LogTaleaStore :=
  if store.booksWriter.isSome then none
  else
    match call.target with
    | none => none
    | some book =>
        match store.books.lookup book with
        | some writer => some (store.setCall id (call.acquire (some writer)))
        | none =>
            if call.op.creates then some (store.setCall id { call with stage := .slow })
            else some (store.setCall id (call.acquire none))

/-- The slow path: the write lock, which is kept when the book is not there. -/
def pollSlow (id : ℕ) (call : Call) : Option LogTaleaStore :=
  if store.booksWriter.isSome then none
  else
    match call.target with
    | none => none
    | some book =>
        match store.books.lookup book with
        | some writer => some (store.setCall id (call.acquire (some writer)))
        | none =>
            some { store.setCall id { call with stage := .creating } with
              booksWriter := some id }

/-- A writer over an empty state; the directory is created when it is not
there. -/
def spawnBook (book : String) : LogTaleaStore :=
  { store with
    books := store.books.insert book store.writers.length
    writers := store.writers ++ [.spawn (bookDir book) .initial]
    logs := store.logs.insert (bookDir book) (store.log (bookDir book)) }

/-- The book is created, or that fails; the write lock is given back. -/
def pollCreating (id : ℕ) (call : Call) (io : PollIo) : Option LogTaleaStore :=
  match call.target with
  | none => none
  | some book =>
      if io.creates then
        some { (store.spawnBook book).setCall id (call.acquire (some store.writers.length)) with
          booksWriter := none }
      else some { store.setCall id (call.acquire none) with booksWriter := none }

/-- Send the next job, unless its writer was not found or has gone.  A full
channel has to be waited for. -/
def pollSubmitting (id : ℕ) (call : Call) : Option LogTaleaStore :=
  let failed := store.setCall id { call with sent := call.sent ++ [none] }
  match call.acquired[call.sent.length]?, call.op.targets[call.sent.length]? with
  | some (some writer), some (_, some job) =>
      if (store.writers[writer]?.map WriterTask.exited).getD true then some failed
      else if store.jobs.countP (·.isQueued writer) < channelCapacity then
        some { store.setCall id { call with sent := call.sent ++ [some store.jobs.length] } with
          jobs := store.jobs ++ [⟨writer, job, .queued⟩] }
      else none
  | some _, _ => some failed
  | none, _ => some (store.setCall id { call with stage := .awaiting 0 })

/-- The answer to a job a call has sent. -/
def answerOf (sent : Option ℕ) : Option Answer :=
  match sent.bind fun idx => store.jobs[idx]? with
  | some ⟨_, _, .answered answer⟩ => answer
  | _ => none

/-- The call returns, and gives back what it holds.  A registered asset enters
the registry when the writer has answered `Ok`. -/
def returns (id : ℕ) (call : Call) : LogTaleaStore :=
  let results := call.sent.map store.answerOf
  match call.op with
  | .registerAsset asset =>
      { store.setCall id (call.finish results) with
        registry :=
          match results with
          | [some (.done (.ok ()))] => store.registry.insert asset.id asset
          | _ => store.registry
        registryWriter := none }
  | _ => store.setCall id (call.finish results)

/-- Wait for the reply to the job at `idx`. -/
def pollAwaiting (id : ℕ) (call : Call) (idx : ℕ) : Option LogTaleaStore :=
  match call.sent[idx]? with
  | none => some (store.returns id call)
  | some none => some (store.setCall id { call with stage := .awaiting (idx + 1) })
  | some (some job) =>
      match store.jobs[job]? with
      | some ⟨_, _, .answered _⟩ =>
          some (store.setCall id { call with stage := .awaiting (idx + 1) })
      | _ => none

/-- Receive a broadcast; with the handle the stream holds a sender of the
channel, which is therefore never closed. -/
def pollTailing (id : ℕ) (call : Call) (received : ℕ) : Option LogTaleaStore :=
  match call.acquired with
  | [some writer] =>
      let published := (store.writers[writer]?.map WriterTask.published).getD 0
      if received < published then
        some (store.setCall id { call with stage := .tailing (received + 1) })
      else none
  | _ => none

/-- `shutdown` takes every writer out of the map. -/
def pollDraining (id : ℕ) (call : Call) (io : PollIo) : Option LogTaleaStore :=
  if store.booksWriter.isSome then none
  else if io.order.Nodup ∧ io.order.toFinset = store.books.keys then
    some { store.setCall id
        { call with stage := .joining (io.order.filterMap fun book => store.books.lookup book) }
      with books := ∅ }
  else none

/-- `shutdown` waits for its writers in turn, and releases the lock file behind
the last. -/
def pollJoining (id : ℕ) (call : Call) (writers : List ℕ) : Option LogTaleaStore :=
  match writers with
  | [] => some { store.setCall id (call.finish []) with locked := false }
  | writer :: rest =>
      if (store.writers[writer]?.map WriterTask.exited).getD true then
        some (store.setCall id { call with stage := .joining rest })
      else none

/-- One call goes on to its next await; `none` where it has to wait. -/
def poll (id : ℕ) (io : PollIo) : Option LogTaleaStore :=
  match store.calls.lookup id with
  | none => none
  | some call =>
      match call.stage with
      | .start => some (store.pollStart id call)
      | .registry => store.pollRegistry id call
      | .enter => some (store.pollEnter id call)
      | .fast => store.pollFast id call
      | .slow => store.pollSlow id call
      | .creating => store.pollCreating id call io
      | .reading => some (store.setCall id (call.finish []))
      | .paging received => some (store.setCall id { call with stage := .tailing received })
      | .tailing received => store.pollTailing id call received
      | .submitting => store.pollSubmitting id call
      | .awaiting idx => store.pollAwaiting id call idx
      | .draining => store.pollDraining id call io
      | .joining writers => store.pollJoining id call writers
      | .finished _ => none

/-- The future of a call is dropped, with its guards and handles.  Its jobs
stay where they are. -/
def cancel (id : ℕ) : Option LogTaleaStore :=
  match store.calls.lookup id with
  | none => none
  | some call =>
      some { store.setCall id (call.finish []) with
        booksWriter := if store.booksWriter = some id then none else store.booksWriter
        registryWriter :=
          if store.registryWriter = some id then none else store.registryWriter }

/-! ## A writer goes on -/

/-- Drain up to `count` jobs of a writer from its channel. -/
def takeJobs (writer : ℕ) : ℕ → List SentJob → List SentJob
  | 0, jobs => jobs
  | _, [] => []
  | count + 1, sent :: jobs =>
      if sent.isQueued writer then { sent with status := .taken } :: takeJobs writer count jobs
      else sent :: takeJobs writer (count + 1) jobs

/-- The jobs of a batch learn what they will be answered. -/
def writeJobs (writer : ℕ) : List SentJob → List (Option Answer) → List SentJob
  | [], _ => []
  | sent :: jobs, answers =>
      if sent.isTaken writer then
        { sent with status := .written (answers.head?.join) } ::
          writeJobs writer jobs answers.tail
      else sent :: writeJobs writer jobs answers

/-- The batch is answered. -/
def answerJob (writer : ℕ) (sent : SentJob) : SentJob :=
  match sent.status with
  | .written answer =>
      if sent.writer = writer then { sent with status := .answered answer } else sent
  | _ => sent

/-- The writer has gone, and with it the reply channels it had. -/
def dropJob (writer : ℕ) (sent : SentJob) : SentJob :=
  if sent.isOpen writer then { sent with status := .answered none } else sent

/-- What a batch depends on besides its jobs: clock readings, what the run
files have under its keys, and how a snapshot goes. -/
structure WriteIo where
  startNow : Int
  nows : ℕ → Int
  resolved : HashMap String CommittedRec
  snap : Except String Unit

/-- The batch of a writer, each job with its clock reading. -/
def batchJobs (writer : ℕ) (io : WriteIo) : List (Job × Int) :=
  ((store.jobs.filter (·.isTaken writer)).map SentJob.job).zipIdx.map fun (job, idx) =>
    (job, io.nows idx)

/-- The answers to the jobs of a batch, by job. -/
def batchAnswers (io : WriteIo) (jobs : List (Job × Int)) (batch : Classified) :
    List (Option Answer) :=
  let (sends, slots) := sendReplies batch.staged batch.replies (jobs.map fun job => some job.1)
  let sends := sends ++ sendSnapshotReplies io.snap slots batch.snapJobs
  (List.range jobs.length).map fun idx =>
    (sends.find? fun sent => sent.1 = idx).map Prod.snd

/-- The writer ends; the files keep what was written to them. -/
def kill (writer : ℕ) (task : WriterTask) (wires : List WireEvent) : LogTaleaStore :=
  { (store.append task.dir wires).setWriter writer { task with exited := true } with
    jobs := store.jobs.map (dropJob writer) }

/-- A live writer. -/
def live (writer : ℕ) : Option WriterTask :=
  store.writers[writer]?.filter fun task => !task.exited

def take (writer count : ℕ) : Option LogTaleaStore :=
  (store.live writer).bind fun _ =>
    if 0 < count ∧ count ≤ batchMax ∧ (∃ sent ∈ store.jobs, sent.isQueued writer) ∧
        ∀ sent ∈ store.jobs, ¬ sent.isTaken writer ∧ ¬ sent.isWritten writer then
      some { store with jobs := takeJobs writer count store.jobs }
    else none

/-- The batch is classified, written, synced and applied. -/
def write (writer : ℕ) (io : WriteIo) : Option LogTaleaStore :=
  (store.live writer).bind fun task =>
    if ∃ sent ∈ store.jobs, sent.isTaken writer then
      let jobs := store.batchJobs writer io
      match classify task.state io.resolved io.startNow jobs with
      | .error _ => some (store.kill writer task [])
      | .ok batch =>
          let wires := batch.staged.map Staged.wire
          match applyStaged task.state batch.staged with
          | .error _ => some (store.kill writer task wires)
          | .ok state =>
              some { (store.append task.dir wires).setWriter writer
                  { task with state, unpublished := batch.staged.length }
                with jobs := writeJobs writer store.jobs (batchAnswers io jobs batch) }
    else none

/-- An I/O error ends the writer while it writes its batch, of which the first
`kept` events are in the file. -/
def fail (writer : ℕ) (io : WriteIo) (kept : ℕ) : Option LogTaleaStore :=
  (store.live writer).bind fun task =>
    if ∃ sent ∈ store.jobs, sent.isTaken writer then
      match classify task.state io.resolved io.startNow (store.batchJobs writer io) with
      | .error _ => some (store.kill writer task [])
      | .ok batch => some (store.kill writer task ((batch.staged.map Staged.wire).take kept))
    else none

/-- The events of the batch are broadcast and its jobs are answered. -/
def answer (writer : ℕ) : Option LogTaleaStore :=
  (store.live writer).bind fun task =>
    if ∃ sent ∈ store.jobs, sent.isWritten writer then
      some { store.setWriter writer
          { task with published := task.published + task.unpublished, unpublished := 0 }
        with jobs := store.jobs.map (answerJob writer) }
    else none

/-- The channel is empty and its last sender is gone. -/
def exit (writer : ℕ) : Option LogTaleaStore :=
  (store.live writer).bind fun task =>
    if store.Idle writer ∧ ¬ store.HasSender writer then
      some (store.setWriter writer { task with exited := true })
    else none

/-! ## The store is opened -/

/-- The assets that events register. -/
def registrations (wires : List WireEvent) : List AssetDef :=
  wires.filterMap fun wire =>
    match wire.event with
    | .assetRegistered asset => some asset
    | _ => none

def register (registry : HashMap AssetId AssetDef) (assets : List AssetDef) :
    HashMap AssetId AssetDef :=
  assets.foldl (fun registry asset => registry.insert asset.id asset) registry

/-- A store without books on the files of an earlier one. -/
def onLogs (logs : HashMap String (List WireEvent)) : LogTaleaStore where
  shutDown := false
  books := ∅
  booksWriter := none
  registry := ∅
  registryWriter := none
  locked := true
  calls := ∅
  jobs := []
  writers := []
  logs

/-- A book is replayed and gets its writer.  A snapshot stands for the replay of
the events it covers; the registry is not in it, and hears only of the events
behind it. -/
def openBook (skipped : String → ℕ) (dir : String) : Except String LogTaleaStore :=
  (BookState.initial.replay ((store.log dir).map fun wire => (wire, (0, 0)))).map fun state =>
    { store with
      books := store.books.insert dir store.writers.length
      writers := store.writers ++ [.spawn dir state]
      registry := register store.registry
        (registrations ((store.log dir).drop (skipped dir))) }

/-- The process ends wherever it is, and the store is opened again on its files:
every directory below `books/` is a book, in the order in which they are
found. -/
def restart (order : List String) (skipped : String → ℕ) : Option LogTaleaStore :=
  if order.Nodup ∧ order.toFinset = store.logs.keys.erase "" then
    (order.foldlM (openBook · skipped) (onLogs store.logs)).toOption
  else none

end LogTaleaStore

/-! ## Runs -/

inductive Event
  /-- A call is made, under a name of its own. -/
  | call (id : ℕ) (op : Op)
  | poll (id : ℕ) (io : LogTaleaStore.PollIo)
  | cancel (id : ℕ)
  | take (writer count : ℕ)
  | write (writer : ℕ) (io : LogTaleaStore.WriteIo)
  | fail (writer : ℕ) (io : LogTaleaStore.WriteIo) (kept : ℕ)
  | answer (writer : ℕ)
  | exit (writer : ℕ)
  | restart (order : List String) (skipped : String → ℕ)

namespace LogTaleaStore

def step (store : LogTaleaStore) : Event → Option LogTaleaStore
  | .call id op => if id ∈ store.calls then none else some (store.setCall id (.new op))
  | .poll id io => store.poll id io
  | .cancel id => store.cancel id
  | .take writer count => store.take writer count
  | .write writer io => store.write writer io
  | .fail writer io kept => store.fail writer io kept
  | .answer writer => store.answer writer
  | .exit writer => store.exit writer
  | .restart order skipped => store.restart order skipped

/-- The store on a new directory. -/
def fresh : LogTaleaStore :=
  onLogs ∅

end LogTaleaStore

/-- A call goes on as often as it is polled. -/
def polls (id count : ℕ) : List Event :=
  List.replicate count (.poll id ⟨true, []⟩)

/-- A writer takes one job and gets through with it. -/
def serves (writer : ℕ) : List Event :=
  [.take writer 1, .write writer ⟨0, fun _ => 0, ∅, .ok ()⟩, .answer writer]

end Talea.Log
