import Talea.Log.Recovery
import Talea.Log.IdemIndex

/-!
# Runs of a book

A run starts with a new book and goes on through batches, interrupted batches,
snapshots that a background task finishes at some later point, and reopenings
with any options.  Next to the book it collects what the outside has seen: the
commits answered `Ok`, the published events, and the states at the ends of
batches, from which snapshots are taken.
-/

namespace Talea.Log

variable (rt : Runtime)

/-- The `Ok` replies to the commits of a batch, with their keys. -/
def okAnswers (jobs : List (Job × Int)) (sends : List (ℕ × Answer)) :
    List (String × Committed) :=
  sends.filterMap fun sent =>
    match jobs[sent.1]?, sent.2 with
    | some (.commit tx, _), .committed (.ok committed) =>
        some (tx.idempotencyKey.key, committed)
    | _, _ => none

/-- A book has a writer, or it has only its files. -/
inductive Status
  | live (writer : Writer)
  | stopped (disk : Disk)

def Status.disk : Status → Disk
  | .live writer => writer.disk
  | .stopped disk => disk

def Status.withSnaps (status : Status) (snaps : SnapDir) : Status :=
  match status with
  | .live writer => .live { writer with snaps }
  | .stopped disk => .stopped { disk with snaps }

def Status.clearInflight : Status → Status
  | .live writer => .live { writer with snapInflight := false }
  | .stopped disk => .stopped disk

structure Run where
  status : Status
  /-- Snapshots handed to background tasks, and whether the present writer
  waits for them. -/
  tasks : List (SnapshotTask × Bool)
  answered : List (String × Committed)
  published : List WireEvent
  boundaries : List BookState

inductive Action
  /-- A batch that no I/O error interrupts. -/
  | batch (input : BatchInput)
  /-- A batch whose write phase is interrupted at the given point. -/
  | failStop (input : BatchInput) (point : ℕ)
  /-- A background task writes its snapshot. -/
  | land (task : ℕ) (io : SnapIo)
  /-- The book is closed, if it is open, and opened again. -/
  | reopen (opts : LogStoreOptions) (io : SpillIo)

namespace Run

/-- A new book. -/
def create (opts : LogStoreOptions) (io : SpillIo) : Run where
  status :=
    match createBook rt opts io Disk.empty with
    | .ok writer => .live writer
    | .error _ => .stopped Disk.empty
  tasks := []
  answered := []
  published := []
  boundaries := []

/-- The decodable log of the book. -/
def log (run : Run) : List (WireEvent × FramePos) :=
  logEvents rt run.status.disk.segments

def events (run : Run) : List WireEvent :=
  (run.log rt).map Prod.fst

/-- The writer is gone; the files are as the write phase has left them. -/
def stop (run : Run) (writer : Writer) (segments : SegmentSet) : Run :=
  { run with status := .stopped ⟨segments.files, writer.runs, writer.snaps⟩ }

def batch (run : Run) (input : BatchInput) : Run :=
  match run.status with
  | .stopped _ => run
  | .live writer =>
      match writer.batch rt allReadable input with
      | .killed segments => run.stop writer segments
      | .done result =>
          { status := .live result.writer
            tasks := run.tasks ++ result.task.toList.map fun task => (task, true)
            answered := run.answered ++ okAnswers input.jobs result.sends
            published := run.published ++ result.published
            boundaries := run.boundaries ++ [result.writer.state] }

def failStop (run : Run) (input : BatchInput) (point : ℕ) : Run :=
  match run.status with
  | .stopped _ => run
  | .live writer =>
      match (writer.batchTrace rt allReadable input)[point]? with
      | none => run
      | some segments => run.stop writer segments

def land (run : Run) (idx : ℕ) (io : SnapIo) : Run :=
  match run.tasks[idx]? with
  | none => run
  | some (task, own) =>
      let (_, snaps) := writeSnapshot io run.status.disk.snaps task.state task.seq
      let status := run.status.withSnaps snaps
      { run with
        status := if own then status.clearInflight else status
        tasks := run.tasks.eraseIdx idx }

def reopen (run : Run) (opts : LogStoreOptions) (io : SpillIo) : Run :=
  match openBook rt opts io run.status.disk with
  | .error _ => { run with status := .stopped run.status.disk }
  | .ok opened =>
      { run with
        status := .live opened.writer
        tasks := run.tasks.map fun task => (task.1, false) }

def step (run : Run) : Action → Run
  | .batch input => run.batch rt input
  | .failStop input point => run.failStop rt input point
  | .land task io => run.land task io
  | .reopen opts io => run.reopen rt opts io

/-- What a batch of the writer does to the run. -/
def conclude (run : Run) (writer : Writer) (input : BatchInput) : BatchResult → Run
  | .killed segments => run.stop writer segments
  | .done result =>
      { status := .live result.writer
        tasks := run.tasks ++ result.task.toList.map fun task => (task, true)
        answered := run.answered ++ okAnswers input.jobs result.sends
        published := run.published ++ result.published
        boundaries := run.boundaries ++ [result.writer.state] }

theorem batch_eq_conclude (run : Run) (input : BatchInput) :
    run.batch rt input =
      match run.status with
      | .stopped _ => run
      | .live writer => run.conclude writer input (writer.batch rt allReadable input) := by
  unfold batch
  cases run.status with
  | stopped disk => rfl
  | live writer =>
      dsimp only
      cases writer.batch rt allReadable input <;> rfl

/-- A run from a new book on. -/
def exec (opts : LogStoreOptions) (io : SpillIo) (actions : List Action) : Run :=
  actions.foldl (step rt) (create rt opts io)

end Run

end Talea.Log
