import Talea.Log.Frame

/-!
# Segment files

A book's log is a series of segment files, each named by the seq of its first
event.  Only the newest one is written to; a rotation seals it first.  A file
remembers how many of its bytes the last completed sync covers, which is what a
crash cannot take away.

The catalog of segments is kept in ascending order of the base seqs, as the
ordered map of the source is: a rotation names the new file by the next seq,
which lies above every base handed out before.
-/

namespace Talea.Log

open FrameScan

/-- Base seq of the segment and byte offset of the frame in it. -/
abbrev FramePos := Int × ℕ

structure Segment where
  base : Int
  bytes : List UInt8
  synced : ℕ
  deriving DecidableEq

def Segment.append (segment : Segment) (bytes : List UInt8) : Segment :=
  { segment with bytes := segment.bytes ++ bytes }

def Segment.sync (segment : Segment) : Segment :=
  { segment with synced := segment.bytes.length }

/-- An empty file whose directory entry has been made durable. -/
def Segment.create (base : Int) : Segment :=
  ⟨base, [], 0⟩

/-- What opening a book's directory fails with. -/
inductive OpenError
  | corruptSegment (base : Int) (offset : ℕ)
  | decode (base : Int) (offset : ℕ)
  | corruptLog (pos : FramePos) (message : String)
  deriving DecidableEq

inductive Validation
  | clean
  | truncate (goodLen : ℕ)
  | corrupt (offset : ℕ)
  deriving DecidableEq

variable (rt : Runtime)

/-- Validate a segment file: a frame that does not decode ends the good part of
the final segment, and is corruption in any other. -/
def validate (bytes : List UInt8) (isFinal : Bool) : Validation :=
  let scan := (frameDecoder rt).scan bytes
  match scan.stop with
  | none => .clean
  | some _ => if isFinal then .truncate scan.used else .corrupt scan.used

structure SegmentSet where
  sealed : List Segment
  active : Segment
  activeLen : ℕ
  segmentMax : ℕ
  deriving DecidableEq

namespace SegmentSet

/-- The files of the set, oldest first. -/
def files (segments : SegmentSet) : List Segment :=
  segments.sealed ++ [segments.active]

/-- Validate and repair the files `first :: rest`; the result is the sealed
ones and the final one. -/
def openFiles (first : Segment) : List Segment → Except OpenError (List Segment × Segment)
  | [] =>
      match validate rt first.bytes true with
      | .clean => .ok ([], first)
      | .truncate goodLen =>
          .ok ([], Segment.sync { first with bytes := first.bytes.take goodLen })
      | .corrupt offset => .error (.corruptSegment first.base offset)
  | next :: rest =>
      match validate rt first.bytes false with
      | .clean => do
          let (sealed, active) ← openFiles next rest
          .ok (first :: sealed, active)
      | .truncate goodLen => do
          let (sealed, active) ← openFiles next rest
          .ok (Segment.sync { first with bytes := first.bytes.take goodLen } :: sealed, active)
      | .corrupt offset => .error (.corruptSegment first.base offset)

/-- Open the segment files of a directory, or create the first one. -/
def openWithMax (segmentMax : ℕ) (dir : List Segment) : Except OpenError SegmentSet := do
  let (sealed, active) ←
    match dir with
    | [] => .ok ([], Segment.create 1)
    | first :: rest => openFiles rt first rest
  .ok { sealed, active, activeLen := active.bytes.length, segmentMax }

def append (segments : SegmentSet) (frame : List UInt8) : SegmentSet :=
  { segments with
    active := segments.active.append frame
    activeLen := segments.activeLen + frame.length }

def sync (segments : SegmentSet) : SegmentSet :=
  { segments with active := segments.active.sync }

/-- Make the file named by `nextSeq` the active one.  A file of that name that
is active already is opened again as it is. -/
def startSegment (segments : SegmentSet) (nextSeq : Int) : SegmentSet :=
  if nextSeq = segments.active.base then { segments with activeLen := 0 }
  else
    { segments with
      sealed := segments.sealed ++ [segments.active]
      active := Segment.create nextSeq
      activeLen := 0 }

/-- Rotate to a new segment when the active one has reached its maximum. -/
def maybeRotate (segments : SegmentSet) (nextSeq : Int) : SegmentSet :=
  if segments.segmentMax ≤ segments.activeLen then segments.sync.startSegment nextSeq
  else segments

/-- Position of the next append. -/
def nextPos (segments : SegmentSet) : FramePos :=
  (segments.active.base, segments.activeLen)

end SegmentSet

/-! ## Reading -/

/-- Pair decoded events with the positions of their frames. -/
def placeItems (base : Int) : ℕ → List (WireEvent × ℕ) → List (WireEvent × FramePos)
  | _, [] => []
  | offset, (ev, used) :: items => (ev, (base, offset)) :: placeItems base (offset + used) items

/-- The decodable events of a segment file, with their positions. -/
def Segment.events (segment : Segment) : List (WireEvent × FramePos) :=
  placeItems segment.base 0 ((frameDecoder rt).scan segment.bytes).items

/-- The events with `seq ≥ from` of a list of segments whose last one may end
in a torn frame. -/
def scanSegments (fromSeq : Int) :
    List Segment → Except OpenError (List (WireEvent × FramePos))
  | [] => .ok []
  | segment :: rest =>
      let scan := (frameDecoder rt).scan segment.bytes
      let here := (segment.events rt).filter fun item => fromSeq ≤ item.1.seq
      match scan.stop with
      | some _ => if rest = [] then .ok here else .error (.decode segment.base scan.used)
      | none => do
          let later ← scanSegments fromSeq rest
          .ok (here ++ later)

/-- Base of the segment a scan starts in: the last one not above `from`, or the
first one. -/
def startBase (fromSeq : Int) (files : List Segment) : Int :=
  match (files.filter fun segment => segment.base ≤ fromSeq).getLast? with
  | some segment => segment.base
  | none => (files.head?.map Segment.base).getD fromSeq

/-- Scan ascending with `seq ≥ from`, without a limit. -/
def scanWithPos (fromSeq : Int) (files : List Segment) :
    Except OpenError (List (WireEvent × FramePos)) :=
  scanSegments rt fromSeq (files.filter fun segment => startBase fromSeq files ≤ segment.base)

/-- The decodable log of a directory: the events of its files in file order. -/
def logEvents (files : List Segment) : List (WireEvent × FramePos) :=
  files.flatMap (Segment.events rt)

end Talea.Log
