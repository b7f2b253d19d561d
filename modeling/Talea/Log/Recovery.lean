import Talea.Log.Writer

/-!
# Opening a book

A book's directory is opened by repairing the segment files, loading the newest
valid snapshot, replaying the tail of the log from the seq after it, and
attaching the run files of the idempotency index.
-/

namespace Talea.Log

structure LogStoreOptions where
  idemHotCap : ℕ
  snapshotEvery : ℕ
  segmentMax : ℕ
  deriving DecidableEq

def defaultSegmentMax : ℕ := 134217728

/-- An opened book: its writer, and the assets registered in the part of the
log that was replayed. -/
structure Opened where
  writer : Writer
  registered : List AssetDef

/-- The asset an event registers. -/
def WireEvent.registers (ev : WireEvent) : Option AssetDef :=
  match ev.event with
  | .assetRegistered asset => some asset
  | _ => none

variable (rt : Runtime)

/-- The state a replay starts from and the seq it starts at. -/
def replayStart (snaps : SnapDir) : BookState × Int :=
  match loadLatest snaps with
  | some (state, snapSeq) => (state, snapSeq + 1)
  | none => (BookState.initial, 1)

/-- Replay one event of the log; an event that does not apply is corruption at
its position. -/
def replayItem (state : BookState) (item : WireEvent × FramePos) :
    Except OpenError BookState :=
  (state.applyEvent item).mapError (OpenError.corruptLog item.2)

def BookState.withCap (state : BookState) (cap : ℕ) : BookState :=
  { state with idem := { state.idem with cap } }

/-- Open a book that is on disk. -/
def openBook (opts : LogStoreOptions) (io : SpillIo) (disk : Disk) :
    Except OpenError Opened := do
  let replaySet ← SegmentSet.openWithMax rt defaultSegmentMax disk.segments
  let (loaded, replayFrom) := replayStart disk.snaps
  let items ← scanWithPos rt replayFrom replaySet.files
  let state ← items.foldlM replayItem (loaded.withCap opts.idemHotCap)
  let (idem, runs) := state.idem.attachDir rt io disk.runs
    (items.filterMap fun item => item.1.committed)
  let segments ← SegmentSet.openWithMax rt opts.segmentMax replaySet.files
  .ok
    { writer :=
        { segments, state := { state with idem }, runs
          snaps := disk.snaps
          eventsSinceSnap := 0
          snapshotEvery := opts.snapshotEvery
          snapInflight := false }
      registered := items.filterMap fun item => item.1.registers }

/-- Create a book on its first write.  Its state starts out empty; the
capacity of its hot map is the default one, not the one of the options. -/
def createBook (opts : LogStoreOptions) (io : SpillIo) (disk : Disk) :
    Except OpenError Writer := do
  let (idem, runs) := BookState.initial.idem.attachDir rt io disk.runs []
  let segments ← SegmentSet.openWithMax rt opts.segmentMax disk.segments
  .ok
    { segments, state := { BookState.initial with idem }, runs
      snaps := disk.snaps
      eventsSinceSnap := 0
      snapshotEvery := opts.snapshotEvery
      snapInflight := false }

end Talea.Log
