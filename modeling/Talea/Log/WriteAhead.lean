import Talea.Log.Layout
import Talea.Log.Writer

/-!
# The write phase

Appending the staged events of a batch, with the rotations between them, adds
exactly these events to the log.  Wherever an I/O error or a crash interrupts
the phase, the files hold the old log and some first part of the batch, and the
events that were there before stay within what the completed syncs cover.
-/

namespace Talea.Log

open FrameScan

variable {rt : Runtime}

/-! ## What syncs cover -/

/-- The events that the completed syncs cover. -/
def SegmentSet.syncedEvents (rt : Runtime) (segments : SegmentSet) : List WireEvent :=
  (logEvents rt segments.sealed).map Prod.fst ++
    (frameDecoder rt).events (segments.active.bytes.take segments.active.synced)

/-- The sealed files are synced, and the syncs cover `events`. -/
structure SegmentSet.Durable (rt : Runtime) (segments : SegmentSet)
    (events : List WireEvent) : Prop where
  sealed_synced : ∀ segment ∈ segments.sealed, segment.synced = segment.bytes.length
  bounded : segments.active.synced ≤ segments.active.bytes.length
  covered : events <+: segments.syncedEvents rt

/-- Every byte of the log is synced. -/
def SegmentSet.Synced (segments : SegmentSet) : Prop :=
  ∀ segment ∈ segments.files, segment.synced = segment.bytes.length

theorem SegmentSet.synced_iff {segments : SegmentSet} :
    segments.Synced ↔ (∀ segment ∈ segments.sealed, segment.synced = segment.bytes.length) ∧
      segments.active.synced = segments.active.bytes.length := by
  simp [SegmentSet.Synced, SegmentSet.files, or_imp, forall_and]

variable {segments : SegmentSet} {events : List WireEvent} {tail : List UInt8}

theorem Segment.map_fst_events (segment : Segment) :
    (segment.events rt).map Prod.fst = (frameDecoder rt).events segment.bytes := by
  unfold Segment.events Decoder.events
  generalize ((frameDecoder rt).scan segment.bytes).items = items
  generalize 0 = offset
  induction items generalizing offset with
  | nil => rfl
  | cons item items ih => rw [placeItems, List.map_cons, List.map_cons, ih]

theorem SegmentSet.Holds.durable_of_synced (hholds : segments.Holds rt events tail)
    (hsynced : segments.Synced) : segments.Durable rt events := by
  obtain ⟨hsealed, hactive⟩ := SegmentSet.synced_iff.1 hsynced
  refine ⟨hsealed, hactive.le, ?_⟩
  rw [SegmentSet.syncedEvents, hactive, List.take_length, ← Segment.map_fst_events,
    ← List.map_append, ← logEvents_concat]
  rw [← hholds.map_fst_logEvents]
  exact List.prefix_rfl

theorem SegmentSet.Durable.append (hdurable : segments.Durable rt events)
    (bytes : List UInt8) : (segments.append bytes).Durable rt events := by
  refine ⟨hdurable.sealed_synced, ?_, ?_⟩
  · have := hdurable.bounded
    simp only [SegmentSet.append, Segment.append, List.length_append]
    omega
  · simpa only [SegmentSet.syncedEvents, SegmentSet.append, Segment.append,
      List.take_append_of_le_length hdurable.bounded] using hdurable.covered

theorem SegmentSet.Durable.sync (hdurable : segments.Durable rt events) :
    segments.sync.Durable rt events := by
  refine ⟨hdurable.sealed_synced, le_rfl, hdurable.covered.trans ?_⟩
  simp only [SegmentSet.syncedEvents, SegmentSet.sync, Segment.sync, List.take_length]
  exact (List.prefix_append_right_inj _).2 (events_isPrefix _ (List.take_prefix _ _))

/-- Starting a new file after a sync moves what the syncs cover into a sealed
file. -/
theorem SegmentSet.Durable.startSegment (hdurable : segments.Durable rt events)
    (hsynced : segments.active.synced = segments.active.bytes.length) (nextSeq : Int) :
    (segments.startSegment nextSeq).Durable rt events := by
  unfold SegmentSet.startSegment
  split
  · exact ⟨hdurable.sealed_synced, hdurable.bounded, hdurable.covered⟩
  · refine ⟨?_, Nat.zero_le _, ?_⟩
    · intro segment hmem
      rcases List.mem_append.1 hmem with hold | hnew
      · exact hdurable.sealed_synced segment hold
      · rwa [List.mem_singleton.1 hnew]
    · have hcovered := hdurable.covered
      rw [SegmentSet.syncedEvents, hsynced, List.take_length, ← Segment.map_fst_events,
        ← List.map_append, ← logEvents_concat] at hcovered
      simpa [SegmentSet.syncedEvents, Segment.create] using hcovered

theorem SegmentSet.Durable.maybeRotate (hdurable : segments.Durable rt events)
    (nextSeq : Int) : (segments.maybeRotate nextSeq).Durable rt events := by
  unfold SegmentSet.maybeRotate
  split
  · exact hdurable.sync.startSegment rfl nextSeq
  · exact hdurable

/-! ## The whole phase -/

theorem encodeFrame_eq_ok {ev : WireEvent} {frame : List UInt8} :
    encodeFrame rt ev = .ok frame ↔ FrameFits rt ev ∧ frame = frameBytes rt ev := by
  unfold encodeFrame
  split
  · next hfits => simp [hfits, eq_comm]
  · next hbig => simp [hbig]

/-- What an interruption of the write phase leaves behind: the old log and the
first events of the batch. -/
structure Interrupted (rt : Runtime) (segments : SegmentSet) (events wires : List WireEvent)
    (left : SegmentSet) : Prop where
  holds : ∃ count tail, left.Holds rt (events ++ wires.take count) tail
  log_eq : ∃ extra, logEvents rt left.files = logEvents rt segments.files ++ extra
  durable : ∀ acked, segments.Durable rt acked → left.Durable rt acked

theorem Interrupted.refl (hholds : segments.Holds rt events []) (wires : List WireEvent) :
    Interrupted rt segments events wires segments where
  holds := ⟨0, [], by simpa using hholds⟩
  log_eq := ⟨[], by simp⟩
  durable _ hdurable := hdurable

variable {wires : List WireEvent}

/-- The rest of the phase after one event was written. -/
theorem Interrupted.of_append {ev : WireEvent} (hholds : segments.Holds rt events [])
    (hfits : FrameFits rt ev) (hseq : ev.seq = 1 + events.length) {left : SegmentSet}
    (hrest : Interrupted rt ((segments.maybeRotate ev.seq).append (frameBytes rt ev))
      (events ++ [ev]) wires left) :
    Interrupted rt segments events (ev :: wires) left where
  holds := by
    obtain ⟨count, tail, hleft⟩ := hrest.holds
    exact ⟨count + 1, tail, by simpa using hleft⟩
  log_eq := by
    obtain ⟨extra, hextra⟩ := hrest.log_eq
    rw [(hholds.maybeRotate hseq).logEvents_append hfits hseq,
      SegmentSet.logEvents_maybeRotate, List.append_assoc] at hextra
    exact ⟨_, hextra⟩
  durable acked hdurable := hrest.durable acked ((hdurable.maybeRotate _).append _)

/-- Everywhere in the write phase. -/
theorem interrupted_of_mem_writeTrace {staged : List Staged}
    (hholds : segments.Holds rt events [])
    (hnumbered : Numbered (1 + events.length) (staged.map Staged.wire)) {left : SegmentSet}
    (hmem : left ∈ writeTrace rt segments staged) :
    Interrupted rt segments events (staged.map Staged.wire) left := by
  induction staged generalizing segments events with
  | nil =>
      have hrefl := Interrupted.refl hholds []
      simp only [writeTrace, List.mem_cons, List.not_mem_nil, or_false] at hmem
      rcases hmem with rfl | rfl
      · exact hrefl
      · exact ⟨⟨0, [], by simpa using hholds.sync⟩, ⟨[], by simp⟩, fun _ h => h.sync⟩
  | cons entry staged ih =>
      rw [List.map_cons, numbered_cons] at hnumbered
      obtain ⟨hseq, hrest⟩ := hnumbered
      rw [List.map_cons]
      unfold writeTrace at hmem
      split at hmem
      · rw [List.mem_singleton.1 hmem]
        exact .refl hholds _
      next frame hframe =>
      obtain ⟨hfits, rfl⟩ := encodeFrame_eq_ok.1 hframe
      have hrotated := hholds.maybeRotate hseq
      rcases List.mem_append.1 hmem with hwriting | hlater
      · rcases List.mem_append.1 hwriting with hrotate | happend
        · -- during the rotation the events do not change
          unfold rotateTrace at hrotate
          split at hrotate
          · simp only [List.mem_cons, List.not_mem_nil, or_false] at hrotate
            rcases hrotate with rfl | rfl | rfl
            · exact .refl hholds _
            · exact ⟨⟨0, [], by simpa using hholds.sync⟩, ⟨[], by simp⟩, fun _ h => h.sync⟩
            · exact ⟨⟨0, [], by simpa using hholds.sync.startSegment hseq⟩, ⟨[], by simp⟩,
                fun _ h => h.sync.startSegment rfl _⟩
          · rw [List.mem_singleton.1 hrotate]
            exact .refl hholds _
        · -- part of a frame is a torn tail, all of it is one more event
          obtain ⟨len, hlen, rfl⟩ := List.mem_map.1 happend
          rw [List.mem_range] at hlen
          by_cases hwhole : len = (frameBytes rt entry.wire).length
          · rw [hwhole, List.take_length]
            exact .of_append hholds hfits hseq (.refl (hrotated.append hfits hseq) _)
          · have hpart : len < (frameBytes rt entry.wire).length := by omega
            have htorn := hrotated.append_torn hfits hpart
            refine ⟨⟨0, _, by simpa using htorn⟩, ⟨[], ?_⟩, fun _ h => (h.maybeRotate _).append _⟩
            obtain ⟨before, last, rfl, hstored⟩ := hrotated.stored
            have hsame := hstored.append_torn hfits hpart
            rw [List.append_nil, ← SegmentSet.logEvents_maybeRotate segments entry.wire.seq]
            simp only [SegmentSet.files, SegmentSet.append, logEvents_concat, hsame.active_events,
              hstored.active_events]
            rfl
      · have hnext := ih (hrotated.append hfits hseq)
          (by rw [List.length_append]; push_cast; simpa [add_assoc] using hrest) hlater
        exact .of_append hholds hfits hseq hnext

/-- The write phase that runs to its end, or into an event that cannot be
encoded. -/
theorem writeStaged_spec {staged : List Staged} (hholds : segments.Holds rt events [])
    (hnumbered : Numbered (1 + events.length) (staged.map Staged.wire)) :
    match writeStaged rt segments staged with
    | .error left => Interrupted rt segments events (staged.map Staged.wire) left
    | .ok (written, placed) =>
        written.Holds rt (events ++ staged.map Staged.wire) [] ∧
          logEvents rt written.files =
            logEvents rt segments.files ++ placed.map (fun entry => (entry.wire, entry.pos)) ∧
          placed.map (fun entry => (entry.jobIdx, entry.wire)) =
            staged.map (fun entry => (entry.jobIdx, entry.wire)) ∧
          ∀ acked, segments.Durable rt acked → written.Durable rt acked := by
  induction staged generalizing segments events with
  | nil => exact ⟨by simpa using hholds, by simp, rfl, fun _ h => h⟩
  | cons entry staged ih =>
      rw [List.map_cons, numbered_cons] at hnumbered
      obtain ⟨hseq, hrest⟩ := hnumbered
      unfold writeStaged
      cases hframe : encodeFrame rt entry.wire with
      | error err => exact .refl hholds _
      | ok frame =>
          obtain ⟨hfits, rfl⟩ := encodeFrame_eq_ok.1 hframe
          have hrotated := hholds.maybeRotate hseq
          have hnext := ih (hrotated.append hfits hseq)
            (by rw [List.length_append]; push_cast; simpa [add_assoc] using hrest)
          dsimp only
          cases hwrite : writeStaged rt
              ((segments.maybeRotate entry.wire.seq).append (frameBytes rt entry.wire)) staged with
          | error left =>
              rw [hwrite] at hnext
              exact .of_append hholds hfits hseq hnext
          | ok phase =>
              obtain ⟨written, placed⟩ := phase
              rw [hwrite] at hnext
              obtain ⟨hwritten, hlog, hplaced, hdurable⟩ := hnext
              refine ⟨by simpa using hwritten, ?_, by simp [hplaced],
                fun acked h => hdurable acked ((h.maybeRotate _).append _)⟩
              rw [hlog, hrotated.logEvents_append hfits hseq, SegmentSet.logEvents_maybeRotate]
              simp

end Talea.Log
