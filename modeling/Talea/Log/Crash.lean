import Talea.Log.RunInvariant

/-!
# Crashes

A crash ends the writer at some point of its work.  Each segment file survives
with the bytes its last completed sync covers and any number of the bytes
behind them; what has survived is on disk.  Snapshots and run files are renamed
into place when they are whole, so they survive as they are.

A book that a crash has taken down is opened again.  A writer that an I/O error
has stopped leaves unsynced frames behind which a later open would take as they
are, so in these runs it stays down until a crash decides what is left of them.
-/

namespace Talea.Log

open FrameScan

variable (rt : Runtime)

/-- Where in its work a crash finds the writer. -/
inductive CrashPoint
  /-- Between two batches. -/
  | idle
  /-- While a batch is written. -/
  | writing (input : BatchInput) (point : ℕ)
  /-- Behind the sync of a batch; how far its flush and its snapshot come is
  up to the I/O of `input`, and nobody is answered. -/
  | replying (input : BatchInput)

/-- The files at a point of the writer's work. -/
def Writer.diskAt (writer : Writer) : CrashPoint → Disk
  | .idle => writer.disk
  | .writing input point =>
      let left := ((writer.batchTrace rt allReadable input)[point]?).getD writer.segments
      ⟨left.files, writer.runs, writer.snaps⟩
  | .replying input =>
      match writer.batch rt allReadable input with
      | .killed left => ⟨left.files, writer.runs, writer.snaps⟩
      | .done result => result.writer.disk

def Status.diskAt (status : Status) (point : CrashPoint) : Disk :=
  match status with
  | .live writer => writer.diskAt rt point
  | .stopped disk => disk

/-- The file keeps its synced bytes, and more of them if `keep` says so. -/
def Segment.survive (keep : Int → ℕ) (segment : Segment) : Segment :=
  let bytes := segment.bytes.take (max segment.synced (keep segment.base))
  { segment with bytes, synced := bytes.length }

def Disk.survive (keep : Int → ℕ) (disk : Disk) : Disk :=
  { disk with segments := disk.segments.map (Segment.survive keep) }

/-- A crash, which no background task outlives, and the reopening after it. -/
def Run.crash (run : Run) (point : CrashPoint) (keep : Int → ℕ) (opts : LogStoreOptions)
    (io : SpillIo) : Run :=
  Run.reopen rt
    { run with status := .stopped ((run.status.diskAt rt point).survive keep), tasks := [] }
    opts io

/-- The book is closed and opened again; nothing happens to a book whose writer
is gone. -/
def Run.restart (run : Run) (opts : LogStoreOptions) (io : SpillIo) : Run :=
  match run.status with
  | .live _ => run.reopen rt opts io
  | .stopped _ => run

/-- What happens to a book in a run with crashes. -/
inductive CrashAction
  | batch (input : BatchInput)
  | land (task : ℕ) (io : SnapIo)
  | restart (opts : LogStoreOptions) (io : SpillIo)
  | crash (point : CrashPoint) (keep : Int → ℕ) (opts : LogStoreOptions) (io : SpillIo)

def Run.crashStep (run : Run) : CrashAction → Run
  | .batch input => run.batch rt input
  | .land task io => run.land task io
  | .restart opts io => run.restart rt opts io
  | .crash point keep opts io => run.crash rt point keep opts io

/-- A run with crashes, from a new book on. -/
def Run.crashExec (opts : LogStoreOptions) (io : SpillIo) (actions : List CrashAction) : Run :=
  actions.foldl (Run.crashStep rt) (Run.create rt opts io)

/-! ## What survives of a log -/

variable {rt : Runtime} {sealed : List Segment} {active : Segment} {before last : List WireEvent}
  {tail : List UInt8}

theorem Segment.survive_of_synced {segment : Segment}
    (hsynced : segment.synced = segment.bytes.length) (keep : Int → ℕ) :
    segment.survive keep = segment := by
  have htake : segment.bytes.take (max segment.synced (keep segment.base)) = segment.bytes :=
    List.take_of_length_le (hsynced ▸ le_max_left _ _)
  simp only [survive, htake, ← hsynced]

theorem Segment.synced_survive (segment : Segment) (keep : Int → ℕ) :
    (segment.survive keep).synced = (segment.survive keep).bytes.length := rfl

/-- Sealed files are synced, so they survive as they are. -/
theorem map_survive_of_synced {files : List Segment}
    (hsynced : ∀ segment ∈ files, segment.synced = segment.bytes.length) (keep : Int → ℕ) :
    files.map (Segment.survive keep) = files := by
  calc files.map (Segment.survive keep)
      = files.map id := List.map_congr_left fun segment hmem =>
          Segment.survive_of_synced (hsynced segment hmem) keep
    _ = files := List.map_id _

/-- The final file survives with some of its last events. -/
theorem Stored.survive (hstored : Stored rt sealed active before last tail) (keep : Int → ℕ) :
    ∃ kept rest, kept <+: last ∧ Stored rt sealed (active.survive keep) before kept rest := by
  have hpre : (active.survive keep).bytes <+: frames (frameBytes rt) last ++ tail := by
    rw [← hstored.bytes_eq]
    exact List.take_prefix _ _
  obtain ⟨kept, rest, hkept, hbytes, htorn⟩ := prefix_frames (frameBytes_encodes rt)
    (fun ev hev => hstored.fits ev (List.mem_append_right _ hev)) hstored.torn hpre
  have hevents : before ++ kept <+: before ++ last := (List.prefix_append_right_inj _).2 hkept
  exact ⟨kept, rest, hkept, hstored.sealed_hold, hstored.base_eq, hbytes, htorn,
    fun ev hev => hstored.fits ev (hevents.subset hev), hstored.numbered.of_isPrefix hevents⟩

theorem Stored.logEvents_survive_isPrefix (hstored : Stored rt sealed active before last tail)
    (keep : Int → ℕ) :
    logEvents rt (sealed ++ [active.survive keep]) <+: logEvents rt (sealed ++ [active]) := by
  obtain ⟨kept, rest, ⟨more, rfl⟩, hsurvive⟩ := hstored.survive keep
  rw [logEvents_concat, logEvents_concat, hsurvive.active_events, hstored.active_events,
    placeFrames_append, ← List.append_assoc]
  exact List.prefix_append _ _

/-- What the syncs cover survives. -/
theorem SegmentSet.Durable.survive {segments : SegmentSet} {acked : List WireEvent}
    (hdurable : segments.Durable rt acked) (keep : Int → ℕ) :
    acked <+: (logEvents rt (segments.sealed ++ [segments.active.survive keep])).map Prod.fst := by
  refine hdurable.covered.trans ?_
  rw [SegmentSet.syncedEvents, logEvents_concat, List.map_append, Segment.map_fst_events]
  refine (List.prefix_append_right_inj _).2 (events_isPrefix _ ?_)
  exact List.take_prefix_take_left (le_max_left _ _)

theorem Disk.survive_segments {segments : SegmentSet} {acked : List WireEvent}
    (hdurable : segments.Durable rt acked) (keep : Int → ℕ) (runs : RunDir) (snaps : SnapDir) :
    Disk.survive keep ⟨segments.files, runs, snaps⟩ =
      ⟨segments.sealed ++ [segments.active.survive keep], runs, snaps⟩ := by
  simp only [Disk.survive, SegmentSet.files, List.map_append, List.map_singleton,
    map_survive_of_synced hdurable.sealed_synced]

end Talea.Log
