import Talea.Log.Snapshot

/-!
# The writer of a book

One task per book takes jobs from its channel in batches.  A batch is
classified against the committed state and an overlay of what it has accepted
so far, the accepted events are appended to the log and synced once, and only
then applied, published and answered.

An I/O error before the sync ends the writer: nobody is answered, and what the
files hold is left to the next open.
-/

namespace Talea.Log

inductive Job
  | commit (tx : Transaction)
  | openAccount (account : AccountDef) (cfg : AccountCfg)
  | registerAsset (asset : AssetDef)
  | snapshot
  deriving DecidableEq

/-- What a job's reply channel receives. -/
inductive Answer
  | committed (result : Except StoreError Committed)
  | done (result : Except StoreError Unit)

/-- Classification of a job. -/
inductive Reply
  | dup (jobIdx : ℕ) (rec : CommittedRec)
  | dupInBatch (jobIdx stagedSlot : ℕ)
  | reject (jobIdx : ℕ) (err : StoreError)
  | openExistsOk (jobIdx : ℕ)
  | staged (stagedSlot : ℕ)

/-- One accepted write awaiting the sync. -/
structure Staged where
  jobIdx : ℕ
  wire : WireEvent
  pos : FramePos

/-- A batch: its jobs, each with the clock reading it is staged under, the
reading at the start, and what the operating system does to the I/O that does
not end the writer. -/
structure BatchInput where
  startNow : Int
  jobs : List (Job × Int)
  spill : SpillIo
  snap : SnapIo

/-! ## Classification -/

structure Classified where
  replies : List Reply
  staged : List Staged
  scratch : Scratch
  snapJobs : List ℕ
  batchAt : Int
  seq : Int

namespace Classified

/-- `chrono`'s default timestamp. -/
def unixEpoch : Int := 0

def start (state : BookState) (startNow : Int) : Classified where
  replies := []
  staged := []
  scratch := .initial
  snapJobs := []
  batchAt := max startNow (state.lastAt.getD unixEpoch)
  seq := state.nextSeq

def reply (acc : Classified) (reply : Reply) : Classified :=
  { acc with replies := acc.replies ++ [reply] }

/-- Stage an event under the next seq and a timestamp that does not step
back. -/
def stageEvent (acc : Classified) (jobIdx : ℕ) (now : Int) (event : LedgerEvent) :
    Classified :=
  let batchAt := max acc.batchAt now
  { acc with
    replies := acc.replies ++ [.staged acc.staged.length]
    staged := acc.staged ++ [⟨jobIdx, ⟨acc.seq, batchAt, event⟩, (0, 0)⟩]
    batchAt
    seq := acc.seq + 1 }

end Classified

/-- The idempotency key of a commit job. -/
def Job.key : Job → Option String
  | .commit tx => some tx.idempotencyKey.key
  | _ => none

/-- The record in a run file for a key that is not hot and that the Bloom
filter lets through. -/
def diskRecord (rt : Runtime) (reads : ℕ → Bool) (idem : TieredIdem) (dir : RunDir)
    (key : String) : Option CommittedRec :=
  if (idem.getHot key).isNone ∧ idem.bloomMightContain rt key then
    idem.lookupRuns reads dir key
  else none

/-- Phases 2a and 2b for one job. -/
def resolveJob (rt : Runtime) (reads : ℕ → Bool) (idem : TieredIdem) (dir : RunDir)
    (resolved : HashMap String CommittedRec) (job : Job) : HashMap String CommittedRec :=
  match job.key with
  | none => resolved
  | some key =>
      match diskRecord rt reads idem dir key with
      | some rec => resolved.insert key rec
      | none => resolved

/-- Phases 2a and 2b: what the run files have under the keys of a batch. -/
def resolveKeys (rt : Runtime) (reads : ℕ → Bool) (idem : TieredIdem) (dir : RunDir)
    (jobs : List Job) : HashMap String CommittedRec :=
  jobs.foldl (resolveJob rt reads idem dir) ∅

variable (state : BookState) (resolved : HashMap String CommittedRec)

def classifyCommit (acc : Classified) (idx : ℕ) (tx : Transaction) (now : Int) :
    Except String Classified :=
  let key := tx.idempotencyKey.key
  match (state.idem.getHot key).or (resolved.lookup key) with
  | some rec => .ok (acc.reply (.dup idx rec))
  | none =>
      match acc.scratch.idem.lookup key with
      | some slot => .ok (acc.reply (.dupInBatch idx slot))
      | none =>
          match state.validate tx acc.scratch with
          | (.error err, scratch) => .ok (Classified.reply { acc with scratch } (.reject idx err))
          | (.ok (), scratch) =>
              match scratch.stage tx with
              | .error message => .error message
              | .ok scratch =>
                  let scratch := { scratch with
                    idem := scratch.idem.insert key acc.staged.length }
                  .ok (Classified.stageEvent { acc with scratch } idx now (.transactionPosted tx))

def classifyOpenAccount (acc : Classified) (idx : ℕ) (account : AccountDef) (cfg : AccountCfg)
    (now : Int) : Classified :=
  let key := account.id.toKey
  match state.accounts.lookup key with
  | some existing =>
      if existing.account = account ∧ existing.cfg = cfg then acc.reply (.openExistsOk idx)
      else acc.reply (.reject idx (.alreadyExists s!"account {key}"))
  | none => acc.stageEvent idx now (.accountOpened account cfg)

/-- Phase 2c for one job. -/
def classifyJob (acc : Classified) (slot : (Job × Int) × ℕ) : Except String Classified :=
  let ((job, now), idx) := slot
  match job with
  | .commit tx => classifyCommit state resolved acc idx tx now
  | .openAccount account cfg => .ok (classifyOpenAccount state acc idx account cfg now)
  | .registerAsset asset => .ok (acc.stageEvent idx now (.assetRegistered asset))
  | .snapshot => .ok { acc with snapJobs := acc.snapJobs ++ [idx] }

/-- Phase 2c: an error is a broken projection, which ends the writer. -/
def classify (startNow : Int) (jobs : List (Job × Int)) : Except String Classified :=
  jobs.zipIdx.foldlM (classifyJob state resolved) (Classified.start state startNow)

/-! ## Writing -/

/-- Phase 3: rotate and append, event by event.  When an event cannot be
encoded the files are left as they are. -/
def writeStaged (rt : Runtime) : SegmentSet → List Staged →
    Except SegmentSet (SegmentSet × List Staged)
  | segments, [] => .ok (segments, [])
  | segments, staged :: rest =>
      match encodeFrame rt staged.wire with
      | .error _ => .error segments
      | .ok frame =>
          let rotated := segments.maybeRotate staged.wire.seq
          match writeStaged rt (rotated.append frame) rest with
          | .error segments => .error segments
          | .ok (segments, placed) =>
              .ok (segments, { staged with pos := rotated.nextPos } :: placed)

/-- Phases 3 and 4: write everything, then sync once. -/
def writePhase (rt : Runtime) (segments : SegmentSet) (staged : List Staged) :
    Except SegmentSet (SegmentSet × List Staged) :=
  if staged.isEmpty then .ok (segments, [])
  else
    match writeStaged rt segments staged with
    | .error segments => .error segments
    | .ok (segments, placed) => .ok (segments.sync, placed)

/-- The states of the files during a rotation. -/
def rotateTrace (segments : SegmentSet) (nextSeq : Int) : List SegmentSet :=
  if segments.segmentMax ≤ segments.activeLen then
    [segments, segments.sync, segments.sync.startSegment nextSeq]
  else [segments]

/-- The states of the files while a frame is appended, byte by byte. -/
def appendTrace (segments : SegmentSet) (frame : List UInt8) : List SegmentSet :=
  (List.range (frame.length + 1)).map fun len => segments.append (frame.take len)

/-- Every state the files go through in phases 3 and 4: the points at which an
I/O error or a crash can interrupt them. -/
def writeTrace (rt : Runtime) : SegmentSet → List Staged → List SegmentSet
  | segments, [] => [segments, segments.sync]
  | segments, staged :: rest =>
      match encodeFrame rt staged.wire with
      | .error _ => [segments]
      | .ok frame =>
          let rotated := segments.maybeRotate staged.wire.seq
          rotateTrace segments staged.wire.seq ++ appendTrace rotated frame ++
            writeTrace rt (rotated.append frame) rest

/-- Phase 5: apply in acceptance order. -/
def applyStaged (staged : List Staged) : Except String BookState :=
  state.replay (staged.map fun entry => (entry.wire, entry.pos))

/-- Phase 5.5: flush the hot map when it has outgrown its capacity. -/
def flushIdem (rt : Runtime) (io : SpillIo) (dir : RunDir) : BookState × RunDir :=
  if state.idem.needsFlush then
    let (idem, dir) := state.idem.flushSpill rt io dir
    ({ state with idem }, dir)
  else (state, dir)

/-! ## Replying -/

/-- The reply channels that are still open, with their jobs. -/
abbrev Slots := List (Option Job)

def Slots.take (slots : Slots) (idx : ℕ) : Option Job × Slots :=
  (slots[idx]?.join, slots.set idx none)

/-- The answer to a job whose event was written. -/
def stagedAnswer (wire : WireEvent) : Job → Option Answer
  | .commit tx => some (.committed (.ok ⟨tx.id, wire.seq, wire.at'⟩))
  | .openAccount _ _ => some (.done (.ok ()))
  | .registerAsset _ => some (.done (.ok ()))
  | .snapshot => none

/-- The answer that passes on an error. -/
def rejectAnswer (err : StoreError) : Job → Answer
  | .commit _ => .committed (.error err)
  | _ => .done (.error err)

/-- The answer to a duplicate of a commit: the one of the first transaction. -/
def dupAnswer (result : Option Committed) : Job → Option Answer
  | .commit _ => result.map fun committed => .committed (.ok committed)
  | _ => none

/-- The job a reply goes to and what it receives. -/
def Reply.answer (placed : List Staged) : Reply → Option (ℕ × (Job → Option Answer))
  | .staged slot => placed[slot]?.map fun entry => (entry.jobIdx, stagedAnswer entry.wire)
  | .dup idx rec => some (idx, dupAnswer (some rec))
  | .dupInBatch idx slot =>
      some (idx, dupAnswer ((placed[slot]?.bind fun entry => entry.wire.committed).map Prod.snd))
  | .openExistsOk idx => some (idx, fun job =>
      match job with
      | .openAccount _ _ => some (.done (.ok ()))
      | _ => none)
  | .reject idx err => some (idx, fun job => some (rejectAnswer err job))

/-- Phase 6 for one reply: take the job out of its slot and send. -/
def sendReply (placed : List Staged) (sent : List (ℕ × Answer) × Slots) (reply : Reply) :
    List (ℕ × Answer) × Slots :=
  match reply.answer placed with
  | none => sent
  | some (idx, answer) =>
      let (job, slots) := sent.2.take idx
      match job.bind answer with
      | none => (sent.1, slots)
      | some sentAnswer => (sent.1 ++ [(idx, sentAnswer)], slots)

/-- Phase 6: every reply in turn. -/
def sendReplies (placed : List Staged) (replies : List Reply) (slots : Slots) :
    List (ℕ × Answer) × Slots :=
  replies.foldl (sendReply placed) ([], slots)

/-- The events published in phase 6. -/
def publishedEvents (placed : List Staged) (replies : List Reply) : List WireEvent :=
  replies.filterMap fun reply =>
    match reply with
    | .staged slot => placed[slot]?.map Staged.wire
    | _ => none

/-- Answer the snapshot jobs of a batch. -/
def sendSnapshotReplies (result : Except String Unit) (slots : Slots) (snapJobs : List ℕ) :
    List (ℕ × Answer) :=
  snapJobs.filterMap fun idx =>
    match slots[idx]?.join with
    | some Job.snapshot => some (idx, .done (result.mapError StoreError.io))
    | _ => none

/-! ## The loop -/

/-- The files of a book's directory. -/
structure Disk where
  segments : List Segment
  runs : RunDir
  snaps : SnapDir

def Disk.empty : Disk :=
  ⟨[], ∅, ∅⟩

structure Writer where
  segments : SegmentSet
  state : BookState
  runs : RunDir
  snaps : SnapDir
  eventsSinceSnap : ℕ
  snapshotEvery : ℕ
  snapInflight : Bool

def Writer.disk (writer : Writer) : Disk :=
  ⟨writer.segments.files, writer.runs, writer.snaps⟩

/-- A snapshot handed to a background task. -/
structure SnapshotTask where
  state : BookState
  seq : Int

structure BatchDone where
  writer : Writer
  sends : List (ℕ × Answer)
  published : List WireEvent
  task : Option SnapshotTask

inductive BatchResult
  | done (result : BatchDone)
  | killed (segments : SegmentSet)

/-- Phase 6.5a: a snapshot in the loop when a job asks for one. -/
def explicitSnapshot (io : SnapIo) (dir : SnapDir) (state : BookState) (asked : Bool) :
    Except String Unit × SnapDir :=
  let snapSeq := state.nextSeq - 1
  if asked ∧ 0 < snapSeq then writeSnapshot io dir state snapSeq else (.ok (), dir)

/-- Phases 5.5 to 6.5: the batch is on disk as `placed` and applied as
`state`. -/
def finishBatch (rt : Runtime) (writer : Writer) (input : BatchInput) (batch : Classified)
    (segments : SegmentSet) (placed : List Staged) (applied : BookState) : BatchDone :=
  let (state, runs) := flushIdem applied rt input.spill writer.runs
  let (sends, slots) :=
    sendReplies placed batch.replies (input.jobs.map fun job => some job.1)
  let (snapResult, snaps) :=
    explicitSnapshot input.snap writer.snaps state (!batch.snapJobs.isEmpty)
  let counts := decide (0 < writer.snapshotEvery ∧ 0 < placed.length)
  let since := if counts then writer.eventsSinceSnap + placed.length else writer.eventsSinceSnap
  let periodic := decide (counts ∧ writer.snapshotEvery ≤ since ∧ writer.snapInflight = false ∧
    0 < state.nextSeq - 1)
  { writer :=
      { segments, state, runs, snaps
        eventsSinceSnap := if periodic then 0 else since
        snapshotEvery := writer.snapshotEvery
        snapInflight := writer.snapInflight || periodic }
    sends := sends ++ sendSnapshotReplies snapResult slots batch.snapJobs
    published := publishedEvents placed batch.replies
    task := if periodic then some ⟨state, state.nextSeq - 1⟩ else none }

/-- One turn of the loop.  `reads n` says whether lookups can read run `n`. -/
def Writer.batch (rt : Runtime) (reads : ℕ → Bool) (writer : Writer) (input : BatchInput) :
    BatchResult :=
  let resolved := resolveKeys rt reads writer.state.idem writer.runs (input.jobs.map Prod.fst)
  match classify writer.state resolved input.startNow input.jobs with
  | .error _ => .killed writer.segments
  | .ok batch =>
      match writePhase rt writer.segments batch.staged with
      | .error segments => .killed segments
      | .ok (segments, placed) =>
          match applyStaged writer.state placed with
          | .error _ => .killed segments
          | .ok applied => .done (finishBatch rt writer input batch segments placed applied)

/-- The states the files go through while the batch is written; a batch that
stages nothing does not touch them. -/
def Writer.batchTrace (rt : Runtime) (reads : ℕ → Bool) (writer : Writer)
    (input : BatchInput) : List SegmentSet :=
  let resolved := resolveKeys rt reads writer.state.idem writer.runs (input.jobs.map Prod.fst)
  match classify writer.state resolved input.startNow input.jobs with
  | .error _ => [writer.segments]
  | .ok batch =>
      if batch.staged.isEmpty then [writer.segments]
      else writeTrace rt writer.segments batch.staged

/-! ## Lookups that fail -/

/-- What the lookups of a batch can read: `lookups idx n` says whether the one for
the job with index `idx` can read run `n`. -/
abbrev Lookups := ℕ → ℕ → Bool

/-- Phases 2a and 2b when every lookup fails on its own. -/
def resolveEach (rt : Runtime) (lookups : Lookups) (idem : TieredIdem) (dir : RunDir)
    (jobs : List Job) : HashMap String CommittedRec :=
  jobs.zipIdx.foldl
    (fun resolved slot => resolveJob rt (lookups slot.2) idem dir resolved slot.1) ∅

/-- One turn of the loop behind phase 2b. -/
def Writer.batchResolved (rt : Runtime) (writer : Writer) (input : BatchInput)
    (resolved : HashMap String CommittedRec) : BatchResult :=
  match classify writer.state resolved input.startNow input.jobs with
  | .error _ => .killed writer.segments
  | .ok batch =>
      match writePhase rt writer.segments batch.staged with
      | .error segments => .killed segments
      | .ok (segments, placed) =>
          match applyStaged writer.state placed with
          | .error _ => .killed segments
          | .ok applied => .done (finishBatch rt writer input batch segments placed applied)

def Writer.traceResolved (rt : Runtime) (writer : Writer) (input : BatchInput)
    (resolved : HashMap String CommittedRec) : List SegmentSet :=
  match classify writer.state resolved input.startNow input.jobs with
  | .error _ => [writer.segments]
  | .ok batch =>
      if batch.staged.isEmpty then [writer.segments]
      else writeTrace rt writer.segments batch.staged

theorem Writer.batch_eq_batchResolved (rt : Runtime) (reads : ℕ → Bool) (writer : Writer)
    (input : BatchInput) :
    writer.batch rt reads input = writer.batchResolved rt input
      (resolveKeys rt reads writer.state.idem writer.runs (input.jobs.map Prod.fst)) :=
  rfl

theorem Writer.batchTrace_eq_traceResolved (rt : Runtime) (reads : ℕ → Bool) (writer : Writer)
    (input : BatchInput) :
    writer.batchTrace rt reads input = writer.traceResolved rt input
      (resolveKeys rt reads writer.state.idem writer.runs (input.jobs.map Prod.fst)) :=
  rfl

/-- One pattern for all lookups. -/
theorem resolveEach_const (rt : Runtime) (reads : ℕ → Bool) (idem : TieredIdem) (dir : RunDir)
    (jobs : List Job) :
    resolveEach rt (fun _ => reads) idem dir jobs = resolveKeys rt reads idem dir jobs := by
  have hjobs : jobs.zipIdx.map Prod.fst = jobs := List.zipIdx_map_fst 0 jobs
  conv_rhs => rw [resolveKeys, ← hjobs, List.foldl_map]
  rfl

end Talea.Log
