import Talea.Lib.Path
import Talea.Log.Answers

/-!
# What the handles of a book share

The writer, the readers and the subscribers of a book share its catalog of
segment files, its state and a broadcast channel.  Between two turns of the
writer these go through a number of moments: the files grow byte by byte and
rotate, then the state moves, then the events are broadcast one by one.  A
reader that takes several looks sees several of these moments, the later ones
extending the earlier.
-/

namespace Talea.Log

variable {rt : Runtime}

/-! ## Files that grow -/

namespace SegmentSet

/-- Sealed files stay, the active one is only added to, and new ones come
behind it. -/
def Extends (earlier later : SegmentSet) : Prop :=
  ∃ grown more, later.files = earlier.sealed ++ grown :: more ∧
    grown.base = earlier.active.base ∧ earlier.active.bytes <+: grown.bytes

instance : Std.Refl Extends :=
  ⟨fun segments => ⟨segments.active, [], rfl, rfl, List.prefix_rfl⟩⟩

theorem Extends.trans {first second third : SegmentSet} (hleft : first.Extends second)
    (hright : second.Extends third) : first.Extends third := by
  obtain ⟨grown, more, hfiles, hbase, hbytes⟩ := hleft
  obtain ⟨last, rest, hlater, hlastBase, hlastBytes⟩ := hright
  rcases List.eq_nil_or_concat' more with rfl | ⟨middle, active, rfl⟩
  · -- no rotation in the first part: the file that grew is the active one
    obtain ⟨hsealed, hactive⟩ := List.append_inj' hfiles rfl
    obtain rfl : second.active = grown := by simpa using hactive
    exact ⟨last, rest, by rw [hlater, hsealed], hlastBase.trans hbase, hbytes.trans hlastBytes⟩
  · rw [← List.cons_append, ← List.append_assoc] at hfiles
    obtain ⟨hsealed, -⟩ := List.append_inj' hfiles rfl
    exact ⟨grown, middle ++ last :: rest, by rw [hlater, hsealed]; simp, hbase, hbytes⟩

instance : IsTrans SegmentSet Extends :=
  ⟨fun _ _ _ => Extends.trans⟩

theorem extends_append (segments : SegmentSet) (bytes : List UInt8) :
    segments.Extends (segments.append bytes) :=
  ⟨segments.active.append bytes, [], rfl, rfl, List.prefix_append ..⟩

/-- Appending more of a frame. -/
theorem extends_append_take (segments : SegmentSet) (frame : List UInt8) (len : ℕ) :
    (segments.append (frame.take len)).Extends (segments.append (frame.take (len + 1))) := by
  refine ⟨segments.active.append (frame.take (len + 1)), [], rfl, rfl, ?_⟩
  exact (List.prefix_append_right_inj _).2 (List.take_prefix_take_left (Nat.le_succ len))

theorem extends_sync (segments : SegmentSet) : segments.Extends segments.sync :=
  ⟨segments.active.sync, [], rfl, rfl, List.prefix_rfl⟩

theorem extends_startSegment (segments : SegmentSet) (nextSeq : Int) :
    segments.Extends (segments.startSegment nextSeq) := by
  unfold startSegment
  split
  · exact ⟨segments.active, [], rfl, rfl, List.prefix_rfl⟩
  · exact ⟨segments.active, [Segment.create nextSeq], by simp [files], rfl, List.prefix_rfl⟩

theorem extends_maybeRotate (segments : SegmentSet) (nextSeq : Int) :
    segments.Extends (segments.maybeRotate nextSeq) := by
  unfold maybeRotate
  split
  · exact segments.extends_sync.trans (extends_startSegment _ _)
  · exact Std.Refl.refl segments

end SegmentSet

open SegmentSet

theorem path_rotateTrace (segments : SegmentSet) (nextSeq : Int) :
    Path Extends segments (rotateTrace segments nextSeq) (segments.maybeRotate nextSeq) := by
  unfold rotateTrace SegmentSet.maybeRotate
  split
  · exact ⟨Std.Refl.refl _, segments.extends_sync, extends_startSegment _ _, Std.Refl.refl _⟩
  · exact ⟨Std.Refl.refl _, Std.Refl.refl _⟩

theorem path_appendTrace (segments : SegmentSet) (frame : List UInt8) :
    Path Extends segments (appendTrace segments frame) (segments.append frame) := by
  have hpath : Path Extends (segments.append (frame.take 0)) (appendTrace segments frame)
      (segments.append (frame.take frame.length)) :=
    Path.of_range (fun len => segments.append (frame.take len)) frame.length
      fun len _ => segments.extends_append_take frame len
  rw [List.take_length] at hpath
  exact hpath.of_rel (segments.extends_append _)

/-- The files of a written batch, and of one that cannot be encoded. -/
theorem path_writeTrace (segments : SegmentSet) (staged : List Staged) :
    Path Extends segments (writeTrace rt segments staged)
      (match writeStaged rt segments staged with
        | .error left => left
        | .ok (written, _) => written.sync) := by
  induction staged generalizing segments with
  | nil => exact ⟨Std.Refl.refl _, segments.extends_sync, Std.Refl.refl _⟩
  | cons entry staged ih =>
      unfold writeTrace writeStaged
      cases encodeFrame rt entry.wire with
      | error err => exact ⟨Std.Refl.refl _, Std.Refl.refl _⟩
      | ok frame =>
          have hhere := (path_rotateTrace segments entry.wire.seq).append
            (path_appendTrace (segments.maybeRotate entry.wire.seq) frame)
          have hrest := ih ((segments.maybeRotate entry.wire.seq).append frame)
          dsimp only
          cases hwrite : writeStaged rt ((segments.maybeRotate entry.wire.seq).append frame)
              staged with
          | error left =>
              rw [hwrite] at hrest
              exact hhere.append hrest
          | ok phase =>
              rw [hwrite] at hrest
              exact hhere.append hrest

/-- The files a batch leaves. -/
def BatchResult.segments : BatchResult → SegmentSet
  | .done result => result.writer.segments
  | .killed segments => segments

theorem Writer.path_batchTrace (writer : Writer) (reads : ℕ → Bool) (input : BatchInput) :
    Path Extends writer.segments (writer.batchTrace rt reads input)
      (writer.batch rt reads input).segments := by
  unfold Writer.batchTrace Writer.batch
  dsimp only
  cases classify writer.state
      (resolveKeys rt reads writer.state.idem writer.runs (input.jobs.map Prod.fst))
      input.startNow input.jobs with
  | error message => exact ⟨Std.Refl.refl _, Std.Refl.refl _⟩
  | ok batch =>
      have hpath : Path Extends writer.segments
          (writeTrace rt writer.segments batch.staged) _ :=
        path_writeTrace writer.segments batch.staged
      dsimp only
      unfold writePhase
      cases hempty : batch.staged.isEmpty with
      | true =>
          simp only [if_true]
          cases applyStaged writer.state [] <;> exact ⟨Std.Refl.refl _, Std.Refl.refl _⟩
      | false =>
          rw [if_neg Bool.false_ne_true, if_neg Bool.false_ne_true]
          cases hwrite : writeStaged rt writer.segments batch.staged with
          | error left =>
              rw [hwrite] at hpath
              exact hpath
          | ok phase =>
              rw [hwrite] at hpath
              dsimp only
              cases applyStaged writer.state phase.2 <;> exact hpath

/-! ## Moments -/

/-- What the handles of a book see: the files, through the catalog, the state,
and the events broadcast since the writer was started. -/
structure Shared where
  segments : SegmentSet
  state : BookState
  sent : List WireEvent

namespace Shared

/-- The events of the files. -/
def events (rt : Runtime) (shared : Shared) : List WireEvent :=
  (logEvents rt shared.segments.files).map Prod.fst

/-- The events that are applied to the state. -/
def applied (rt : Runtime) (shared : Shared) : List WireEvent :=
  (shared.events rt).filter fun ev => ev.seq < shared.state.nextSeq

/-- A later moment. -/
structure Extends (earlier later : Shared) : Prop where
  files : earlier.segments.Extends later.segments
  nextSeq : earlier.state.nextSeq ≤ later.state.nextSeq
  sent : earlier.sent <+: later.sent

instance : Std.Refl Shared.Extends :=
  ⟨fun _ => ⟨Std.Refl.refl _, le_rfl, List.prefix_rfl⟩⟩

instance : IsTrans Shared Shared.Extends :=
  ⟨fun _ _ _ hleft hright => ⟨hleft.files.trans hright.files,
    hleft.nextSeq.trans hright.nextSeq, hleft.sent.trans hright.sent⟩⟩

/-- The state is the one after the first events of the log, and of these the
ones behind the first `start` have been broadcast in order. -/
structure Sound (rt : Runtime) (start : ℕ) (shared : Shared) : Prop where
  holds : ∃ events tail, shared.segments.Holds rt events tail
  valid : LogValid (logEvents rt shared.segments.files)
  state : ∃ (count : ℕ) (ledger : BookState),
    count ≤ (logEvents rt shared.segments.files).length ∧
    shared.state.nextSeq = count + 1 ∧
    BookState.initial.replay ((logEvents rt shared.segments.files).take count) = .ok ledger ∧
    shared.state.forgetIdem = ledger.forgetIdem
  sent : shared.sent <+: (shared.events rt).drop start
  sent_applied : (start : Int) + shared.sent.length < shared.state.nextSeq

end Shared

/-- The state behind the apply phase of a batch, before its hot map is
flushed. -/
def Writer.appliedState (rt : Runtime) (writer : Writer) (input : BatchInput) :
    Option BookState :=
  match classify writer.state
      (resolveKeys rt allReadable writer.state.idem writer.runs (input.jobs.map Prod.fst))
      input.startNow input.jobs with
  | .error _ => none
  | .ok batch =>
      match writePhase rt writer.segments batch.staged with
      | .error _ => none
      | .ok (_, placed) => (applyStaged writer.state placed).toOption

/-- The moments of a batch.  The state is moved under its lock when everything
is synced, and flushed under its lock; the broadcasts follow, one at a time. -/
def Writer.moments (rt : Runtime) (writer : Writer) (sent : List WireEvent)
    (input : BatchInput) : List Shared :=
  (writer.batchTrace rt allReadable input).map (fun segments => ⟨segments, writer.state, sent⟩) ++
    match writer.batch rt allReadable input with
    | .killed _ => []
    | .done result =>
        (writer.appliedState rt input).toList.map
            (fun applied => ⟨result.writer.segments, applied, sent⟩) ++
          (List.range (result.published.length + 1)).map fun count =>
            ⟨result.writer.segments, result.writer.state, sent ++ result.published.take count⟩

/-- What happens while a writer lives. -/
inductive Turn
  /-- A batch that no I/O error interrupts. -/
  | batch (input : BatchInput)
  /-- A batch that an I/O error ends at the given point of its write phase. -/
  | fail (input : BatchInput) (point : ℕ)
  /-- A background task writes its snapshot. -/
  | land (task : ℕ) (io : SnapIo)

def Turn.action : Turn → Action
  | .batch input => .batch input
  | .fail input point => .failStop input point
  | .land task io => .land task io

/-- A book and what its handles see now. -/
structure Served where
  run : Run
  shared : Shared

/-- The handles of a writer that has just been started. -/
def Run.serve (run : Run) (writer : Writer) : Served :=
  ⟨run, ⟨writer.segments, writer.state, []⟩⟩

namespace Served

/-- The moments of a turn.  When the writer fails, the handles keep what they
see at that point. -/
def moments (rt : Runtime) (served : Served) (turn : Turn) : List Shared :=
  match served.run.status, turn with
  | .live writer, .batch input => writer.moments rt served.shared.sent input
  | .live writer, .fail input point =>
      if point < (writer.batchTrace rt allReadable input).length then
        ((writer.batchTrace rt allReadable input).take (point + 1)).map fun segments =>
          ⟨segments, writer.state, served.shared.sent⟩
      else []
  | _, _ => []

def turn (rt : Runtime) (served : Served) (turn : Turn) : Served :=
  ⟨served.run.step rt turn.action, (served.moments rt turn).getLast?.getD served.shared⟩

/-- All moments of a number of turns. -/
def life (rt : Runtime) : Served → List Turn → List Shared
  | _, [] => []
  | served, turn :: turns => served.moments rt turn ++ life rt (served.turn rt turn) turns

/-- What the handles see at a time. -/
def atTime (rt : Runtime) (served : Served) (turns : List Turn) (time : ℕ) : Shared :=
  Path.atTime served.shared (served.life rt turns) time

end Served

end Talea.Log
