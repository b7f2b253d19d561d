import Talea.Log.Segment

/-!
# How a log lies in its segment files

The events of a log are numbered from one and cut into blocks, one a file: the
sealed files hold frames only, each file is named by the seq of its first
event, and only the newest one may end in bytes that are not a frame.  The
operations of `SegmentSet` keep this shape, opening restores it, and a scan of
files of this shape returns the events from the requested seq on.
-/

namespace Talea.Log

open FrameScan

/-! ## Numbered events -/

/-- The events carry consecutive seqs from `first` on. -/
def Numbered : Int → List WireEvent → Prop
  | _, [] => True
  | first, ev :: evs => ev.seq = first ∧ Numbered (first + 1) evs

@[simp]
theorem numbered_nil (first : Int) : Numbered first [] := trivial

@[simp]
theorem numbered_cons (first : Int) (ev : WireEvent) (evs : List WireEvent) :
    Numbered first (ev :: evs) ↔ ev.seq = first ∧ Numbered (first + 1) evs := Iff.rfl

theorem numbered_append (first : Int) (left right : List WireEvent) :
    Numbered first (left ++ right) ↔
      Numbered first left ∧ Numbered (first + left.length) right := by
  induction left generalizing first with
  | nil => simp
  | cons ev evs ih =>
      simp only [List.cons_append, numbered_cons, ih, List.length_cons, and_assoc]
      rw [show first + 1 + (evs.length : Int) = first + ((evs.length + 1 : ℕ) : Int) by
        push_cast; ring]

theorem Numbered.of_isPrefix {first : Int} {part whole : List WireEvent}
    (hnumbered : Numbered first whole) (hpre : part <+: whole) : Numbered first part := by
  obtain ⟨rest, rfl⟩ := hpre
  exact ((numbered_append first part rest).1 hnumbered).1

/-- The seqs of numbered events lie in the interval their number announces. -/
theorem Numbered.mem_bounds {first : Int} {evs : List WireEvent}
    (hnumbered : Numbered first evs) {ev : WireEvent} (hev : ev ∈ evs) :
    first ≤ ev.seq ∧ ev.seq < first + evs.length := by
  induction evs generalizing first with
  | nil => simp at hev
  | cons head rest ih =>
      rw [numbered_cons] at hnumbered
      rw [List.length_cons]
      rcases List.mem_cons.1 hev with rfl | hrest
      · have := hnumbered.1
        push_cast
        omega
      · have := ih hnumbered.2 hrest
        push_cast
        omega

theorem Numbered.getElem {first : Int} {evs : List WireEvent}
    (hnumbered : Numbered first evs) {idx : ℕ} (hidx : idx < evs.length) :
    evs[idx].seq = first + idx := by
  induction evs generalizing first idx with
  | nil => simp at hidx
  | cons head rest ih =>
      rw [numbered_cons] at hnumbered
      cases idx with
      | zero => simpa using hnumbered.1
      | succ idx =>
          have hshort : idx < rest.length := by simpa using hidx
          simp only [List.getElem_cons_succ, ih hnumbered.2 hshort]
          push_cast
          ring

/-- Keeping the events above a seq drops as many events as lie below. -/
theorem Numbered.filter_eq_drop {α : Type*} {first : Int} {items : List α}
    {event : α → WireEvent} (hnumbered : Numbered first (items.map event)) (count : ℕ) :
    (items.filter fun item => first + count ≤ (event item).seq) = items.drop count := by
  induction items generalizing first count with
  | nil => simp
  | cons item items ih =>
      rw [List.map_cons, numbered_cons] at hnumbered
      cases count with
      | zero =>
          rw [List.drop_zero, List.filter_eq_self]
          intro other hother
          have := (numbered_cons first (event item) (items.map event)).2 hnumbered
            |>.mem_bounds (List.mem_map_of_mem hother)
          simp only [decide_eq_true_eq]
          push_cast
          omega
      | succ count =>
          have hhead : ¬ first + ((count + 1 : ℕ) : Int) ≤ (event item).seq := by
            rw [hnumbered.1]
            push_cast
            omega
          rw [List.filter_cons_of_neg (by simpa using hhead), List.drop_succ_cons,
            ← ih hnumbered.2 count]
          congr 1
          funext other
          congr 2
          push_cast
          ring

variable {rt : Runtime}

/-! ## Frames with their positions -/

/-- The events of a block of frames, with the positions they are written at. -/
def placeFrames (rt : Runtime) (base : Int) : ℕ → List WireEvent → List (WireEvent × FramePos)
  | _, [] => []
  | offset, ev :: evs =>
      (ev, (base, offset)) :: placeFrames rt base (offset + (frameBytes rt ev).length) evs

theorem placeFrames_append (base : Int) (offset : ℕ) (left right : List WireEvent) :
    placeFrames rt base offset (left ++ right) =
      placeFrames rt base offset left ++
        placeFrames rt base (offset + (frames (frameBytes rt) left).length) right := by
  induction left generalizing offset with
  | nil => simp [placeFrames]
  | cons ev evs ih => simp [placeFrames, ih, Nat.add_assoc]

@[simp]
theorem map_fst_placeFrames (base : Int) (offset : ℕ) (evs : List WireEvent) :
    (placeFrames rt base offset evs).map Prod.fst = evs := by
  induction evs generalizing offset with
  | nil => rfl
  | cons ev evs ih => simp [placeFrames, ih]

theorem getElem?_placeFrames (base : Int) (offset : ℕ) (evs : List WireEvent) (idx : ℕ) :
    (placeFrames rt base offset evs)[idx]? = evs[idx]?.map fun ev =>
      (ev, (base, offset + (frames (frameBytes rt) (evs.take idx)).length)) := by
  induction evs generalizing offset idx with
  | nil => simp [placeFrames]
  | cons ev evs ih =>
      cases idx with
      | zero => simp [placeFrames]
      | succ idx => simp [placeFrames, ih, Nat.add_assoc]

theorem placeItems_frames (base : Int) (offset : ℕ) (evs : List WireEvent) :
    placeItems base offset (evs.map fun ev => (ev, (frameBytes rt ev).length)) =
      placeFrames rt base offset evs := by
  induction evs generalizing offset with
  | nil => rfl
  | cons ev evs ih => rw [List.map_cons, placeItems, placeFrames, ih]

theorem scan_torn {tail : List UInt8} (htorn : Torn (frameDecoder rt) tail) :
    ((frameDecoder rt).scan tail).items = [] := by
  rcases htorn with rfl | ⟨err, herr⟩
  · simp
  · rw [scan_of_error _ herr]

/-- The events of a file that holds frames and then nothing decodable. -/
theorem Segment.events_of_bytes {segment : Segment} {evs : List WireEvent}
    {tail : List UInt8} (hbytes : segment.bytes = frames (frameBytes rt) evs ++ tail)
    (hfits : ∀ ev ∈ evs, FrameFits rt ev) (htorn : Torn (frameDecoder rt) tail) :
    segment.events rt = placeFrames rt segment.base 0 evs := by
  rw [Segment.events, hbytes, scan_frames_append (frameBytes_encodes rt) hfits,
    scan_torn htorn, List.append_nil, placeItems_frames]

@[simp]
theorem Segment.events_of_frames {segment : Segment} {evs : List WireEvent}
    (hbytes : segment.bytes = frames (frameBytes rt) evs) (hfits : ∀ ev ∈ evs, FrameFits rt ev) :
    segment.events rt = placeFrames rt segment.base 0 evs := by
  rw [← List.append_nil (frames _ _)] at hbytes
  exact Segment.events_of_bytes hbytes hfits (Or.inl rfl)

theorem Segment.events_create (base : Int) : (Segment.create base).events rt = [] := by
  simp [Segment.create, Segment.events, placeItems]

/-! ## The shape of a log -/

/-- The sealed files hold the events `evs`, the first of which has seq
`first`. -/
def SealedHold (rt : Runtime) : Int → List Segment → List WireEvent → Prop
  | _, [], evs => evs = []
  | first, segment :: rest, evs =>
      ∃ here later, evs = here ++ later ∧ here ≠ [] ∧ segment.base = first ∧
        segment.bytes = frames (frameBytes rt) here ∧
        SealedHold rt (first + here.length) rest later

theorem SealedHold.concat {first : Int} {sealed : List Segment} {before here : List WireEvent}
    (hsealed : SealedHold rt first sealed before) {segment : Segment} (hne : here ≠ [])
    (hbase : segment.base = first + before.length)
    (hbytes : segment.bytes = frames (frameBytes rt) here) :
    SealedHold rt first (sealed ++ [segment]) (before ++ here) := by
  induction sealed generalizing first before with
  | nil =>
      cases hsealed
      exact ⟨here, [], by simp, hne, by simpa using hbase, hbytes, rfl⟩
  | cons head rest ih =>
      obtain ⟨block, later, rfl, hblock, hheadBase, hheadBytes, hrest⟩ := hsealed
      refine ⟨block, later ++ here, by simp, hblock, hheadBase, hheadBytes, ih hrest ?_⟩
      rw [hbase, List.length_append]
      push_cast
      ring

/-- The files hold the events `before ++ last`, the newest one the events
`last` and behind them the bytes `tail`. -/
structure Stored (rt : Runtime) (sealed : List Segment) (active : Segment)
    (before last : List WireEvent) (tail : List UInt8) : Prop where
  sealed_hold : SealedHold rt 1 sealed before
  base_eq : active.base = 1 + before.length
  bytes_eq : active.bytes = frames (frameBytes rt) last ++ tail
  torn : Torn (frameDecoder rt) tail
  fits : ∀ ev ∈ before ++ last, FrameFits rt ev
  numbered : Numbered 1 (before ++ last)

/-- The sealed files' events with their positions. -/
theorem SealedHold.map_fst_events {first : Int} {sealed : List Segment}
    {before : List WireEvent} (hsealed : SealedHold rt first sealed before)
    (hfits : ∀ ev ∈ before, FrameFits rt ev) :
    (logEvents rt sealed).map Prod.fst = before := by
  induction sealed generalizing first before with
  | nil => simpa [logEvents] using hsealed.symm
  | cons segment rest ih =>
      obtain ⟨here, later, rfl, -, -, hbytes, hrest⟩ := hsealed
      have hhere : segment.events rt = placeFrames rt segment.base 0 here :=
        Segment.events_of_frames hbytes fun ev hev => hfits ev (by simp [hev])
      have hlater := ih hrest fun ev hev => hfits ev (by simp [hev])
      simp only [logEvents, List.flatMap_cons, List.map_append] at hlater ⊢
      rw [hhere, map_fst_placeFrames, hlater]

variable {sealed : List Segment} {active : Segment} {before last : List WireEvent}
  {tail : List UInt8}

theorem Stored.active_events (hstored : Stored rt sealed active before last tail) :
    active.events rt = placeFrames rt active.base 0 last :=
  Segment.events_of_bytes hstored.bytes_eq
    (fun ev hev => hstored.fits ev (by simp [hev])) hstored.torn

theorem logEvents_concat (files : List Segment) (segment : Segment) :
    logEvents rt (files ++ [segment]) = logEvents rt files ++ segment.events rt := by
  simp [logEvents]

theorem Stored.map_fst_logEvents (hstored : Stored rt sealed active before last tail) :
    (logEvents rt (sealed ++ [active])).map Prod.fst = before ++ last := by
  rw [logEvents_concat, List.map_append, hstored.active_events, map_fst_placeFrames,
    hstored.sealed_hold.map_fst_events fun ev hev => hstored.fits ev (by simp [hev])]

/-! ## Appending and rotating -/

theorem Stored.append (hstored : Stored rt sealed active before last []) {ev : WireEvent}
    (hfits : FrameFits rt ev) (hseq : ev.seq = 1 + (before ++ last).length) :
    Stored rt sealed (active.append (frameBytes rt ev)) before (last ++ [ev]) [] where
  sealed_hold := hstored.sealed_hold
  base_eq := hstored.base_eq
  bytes_eq := by simp [Segment.append, hstored.bytes_eq]
  torn := Or.inl rfl
  fits := by
    intro other hother
    rw [← List.append_assoc] at hother
    rcases List.mem_append.1 hother with hold | hnew
    · exact hstored.fits other hold
    · rwa [List.mem_singleton.1 hnew]
  numbered := by
    rw [← List.append_assoc, numbered_append]
    exact ⟨hstored.numbered, hseq, trivial⟩

/-- A frame that is written in part leaves the events as they were and a torn
tail behind them. -/
theorem Stored.append_torn (hstored : Stored rt sealed active before last [])
    {ev : WireEvent} (hfits : FrameFits rt ev) {len : ℕ}
    (hlen : len < (frameBytes rt ev).length) :
    Stored rt sealed (active.append ((frameBytes rt ev).take len)) before last
      ((frameBytes rt ev).take len) where
  sealed_hold := hstored.sealed_hold
  base_eq := hstored.base_eq
  bytes_eq := by simp [Segment.append, hstored.bytes_eq]
  torn := by
    by_cases hnil : (frameBytes rt ev).take len = []
    · exact Or.inl hnil
    · refine Or.inr ((frameBytes_encodes rt).decode_torn ev hfits _ (List.take_prefix _ _)
        hnil fun heq => ?_)
      have := congrArg List.length heq
      rw [List.length_take] at this
      omega
  fits := hstored.fits
  numbered := hstored.numbered

/-- The files of a segment set hold `events` and then `tail`. -/
structure SegmentSet.Holds (rt : Runtime) (segments : SegmentSet) (events : List WireEvent)
    (tail : List UInt8) : Prop where
  len_eq : segments.activeLen = segments.active.bytes.length
  stored : ∃ before last, before ++ last = events ∧
    Stored rt segments.sealed segments.active before last tail

variable {segments : SegmentSet} {events : List WireEvent}

theorem SegmentSet.Holds.map_fst_logEvents (hholds : segments.Holds rt events tail) :
    (logEvents rt segments.files).map Prod.fst = events := by
  obtain ⟨before, last, rfl, hstored⟩ := hholds.stored
  exact hstored.map_fst_logEvents

theorem SegmentSet.Holds.append (hholds : segments.Holds rt events []) {ev : WireEvent}
    (hfits : FrameFits rt ev) (hseq : ev.seq = 1 + events.length) :
    (segments.append (frameBytes rt ev)).Holds rt (events ++ [ev]) [] := by
  obtain ⟨before, last, rfl, hstored⟩ := hholds.stored
  refine ⟨?_, before, last ++ [ev], by simp, hstored.append hfits hseq⟩
  simp [SegmentSet.append, Segment.append, hholds.len_eq]

theorem SegmentSet.Holds.logEvents_append (hholds : segments.Holds rt events [])
    {ev : WireEvent} (hfits : FrameFits rt ev) (hseq : ev.seq = 1 + events.length) :
    logEvents rt (segments.append (frameBytes rt ev)).files =
      logEvents rt segments.files ++ [(ev, segments.nextPos)] := by
  obtain ⟨before, last, rfl, hstored⟩ := hholds.stored
  have hbytes : segments.activeLen = (frames (frameBytes rt) last).length := by
    rw [hholds.len_eq, hstored.bytes_eq, List.append_nil]
  simp only [SegmentSet.files, logEvents_concat, SegmentSet.append, hstored.active_events,
    (hstored.append hfits hseq).active_events, placeFrames_append, List.append_assoc]
  simp [placeFrames, Segment.append, SegmentSet.nextPos, hbytes]

theorem SegmentSet.Holds.append_torn (hholds : segments.Holds rt events []) {ev : WireEvent}
    (hfits : FrameFits rt ev) {len : ℕ} (hlen : len < (frameBytes rt ev).length) :
    (segments.append ((frameBytes rt ev).take len)).Holds rt events
      ((frameBytes rt ev).take len) := by
  obtain ⟨before, last, rfl, hstored⟩ := hholds.stored
  refine ⟨?_, before, last, rfl, hstored.append_torn hfits hlen⟩
  simp [SegmentSet.append, Segment.append, hholds.len_eq]

theorem SegmentSet.Holds.sync (hholds : segments.Holds rt events tail) :
    segments.sync.Holds rt events tail := by
  obtain ⟨before, last, rfl, hstored⟩ := hholds.stored
  exact ⟨hholds.len_eq, before, last, rfl,
    ⟨hstored.sealed_hold, hstored.base_eq, hstored.bytes_eq, hstored.torn, hstored.fits,
      hstored.numbered⟩⟩

/-- A new segment is named by the next seq, or, when the active one is still
empty, is the active one. -/
theorem SegmentSet.Holds.startSegment (hholds : segments.Holds rt events [])
    {nextSeq : Int} (hseq : nextSeq = 1 + events.length) :
    (segments.startSegment nextSeq).Holds rt events [] := by
  obtain ⟨before, last, rfl, hstored⟩ := hholds.stored
  have hbytes := hstored.bytes_eq
  rw [List.append_nil] at hbytes
  have hbase := hstored.base_eq
  rw [List.length_append] at hseq
  push_cast at hseq
  unfold SegmentSet.startSegment
  split
  · next hsame =>
      have hlast : last = [] := by
        rw [← List.length_eq_zero_iff]
        omega
      subst hlast
      exact ⟨by simp [hbytes], before, [], rfl, hstored⟩
  · next hnew =>
      have hlast : last ≠ [] := by
        rintro rfl
        simp only [List.length_nil] at hseq
        omega
      refine ⟨rfl, before ++ last, [], by simp, ?_⟩
      refine ⟨hstored.sealed_hold.concat hlast hbase hbytes, ?_, by simp [Segment.create],
        Or.inl rfl, by simpa using hstored.fits, by simpa using hstored.numbered⟩
      simp only [Segment.create, List.length_append]
      push_cast
      omega

@[simp]
theorem SegmentSet.logEvents_sync (segments : SegmentSet) :
    logEvents rt segments.sync.files = logEvents rt segments.files := by
  simp [SegmentSet.files, SegmentSet.sync, logEvents_concat, Segment.sync, Segment.events]

@[simp]
theorem SegmentSet.logEvents_startSegment (segments : SegmentSet) (nextSeq : Int) :
    logEvents rt (segments.startSegment nextSeq).files = logEvents rt segments.files := by
  unfold SegmentSet.startSegment
  split
  · rfl
  · simp only [SegmentSet.files]
    rw [logEvents_concat, Segment.events_create, List.append_nil]

theorem SegmentSet.Holds.maybeRotate (hholds : segments.Holds rt events [])
    {nextSeq : Int} (hseq : nextSeq = 1 + events.length) :
    (segments.maybeRotate nextSeq).Holds rt events [] := by
  unfold SegmentSet.maybeRotate
  split
  · exact hholds.sync.startSegment hseq
  · exact hholds

@[simp]
theorem SegmentSet.logEvents_maybeRotate (segments : SegmentSet) (nextSeq : Int) :
    logEvents rt (segments.maybeRotate nextSeq).files = logEvents rt segments.files := by
  unfold SegmentSet.maybeRotate
  split <;> simp

/-! ## Opening -/

/-- The final file after the repair of its tail. -/
def Segment.repaired (rt : Runtime) (segment : Segment) : Segment :=
  match validate rt segment.bytes true with
  | .truncate goodLen => Segment.sync { segment with bytes := segment.bytes.take goodLen }
  | _ => segment

theorem sum_map_length_frames (evs : List WireEvent) :
    (evs.map fun ev => (frameBytes rt ev).length).sum =
      (frames (frameBytes rt) evs).length := by
  induction evs with
  | nil => rfl
  | cons ev evs ih => rw [List.map_cons, List.sum_cons, ih, frames_cons, List.length_append]

theorem validate_frames {evs : List WireEvent} (hfits : ∀ ev ∈ evs, FrameFits rt ev)
    (isFinal : Bool) : validate rt (frames (frameBytes rt) evs) isFinal = .clean := by
  simp only [validate, scan_frames (frameBytes_encodes rt) hfits]

theorem validate_torn {evs : List WireEvent} (hfits : ∀ ev ∈ evs, FrameFits rt ev)
    {tail : List UInt8} {err : FrameError} (herr : (frameDecoder rt).decode tail = .error err) :
    validate rt (frames (frameBytes rt) evs ++ tail) true =
      .truncate (frames (frameBytes rt) evs).length := by
  simp only [validate, scan_frames_append (frameBytes_encodes rt) hfits,
    scan_of_error _ herr, List.append_nil, Scan.used, List.map_map, Function.comp_def, if_true]
  rw [sum_map_length_frames]

/-- The repair cuts the tail off; it leaves a file alone that ends in a
frame. -/
theorem Stored.repaired_eq (hstored : Stored rt sealed active before last tail) :
    active.repaired rt =
      if tail = [] then active
      else ⟨active.base, frames (frameBytes rt) last,
        (frames (frameBytes rt) last).length⟩ := by
  have hfits : ∀ ev ∈ last, FrameFits rt ev := fun ev hev => hstored.fits ev (by simp [hev])
  by_cases htail : tail = []
  · have hbytes := hstored.bytes_eq
    rw [htail, List.append_nil] at hbytes
    rw [if_pos htail, Segment.repaired, hbytes, validate_frames hfits]
  · obtain ⟨err, herr⟩ := hstored.torn.resolve_left htail
    rw [if_neg htail, Segment.repaired, hstored.bytes_eq, validate_torn hfits herr]
    simp [Segment.sync]

theorem Stored.repaired (hstored : Stored rt sealed active before last tail) :
    Stored rt sealed (active.repaired rt) before last [] := by
  have hshape : (active.repaired rt).base = active.base ∧
      (active.repaired rt).bytes = frames (frameBytes rt) last := by
    rw [hstored.repaired_eq]
    split
    · next htail => exact ⟨rfl, by simpa [htail] using hstored.bytes_eq⟩
    · exact ⟨rfl, rfl⟩
  exact ⟨hstored.sealed_hold, hshape.1.trans hstored.base_eq, by simpa using hshape.2,
    Or.inl rfl, hstored.fits, hstored.numbered⟩

/-- Repairing the tail does not change the decodable events. -/
theorem Stored.logEvents_repaired (hstored : Stored rt sealed active before last tail) :
    logEvents rt (sealed ++ [active.repaired rt]) = logEvents rt (sealed ++ [active]) := by
  have hbase := hstored.repaired.base_eq.trans hstored.base_eq.symm
  rw [logEvents_concat, logEvents_concat, hstored.active_events,
    hstored.repaired.active_events, hbase]

/-- Opening leaves sealed files as they are and repairs the final one. -/
theorem SealedHold.openFiles {first : Int} (hsealed : SealedHold rt first sealed before)
    (hfits : ∀ ev ∈ before, FrameFits rt ev) (active : Segment) {head : Segment}
    {rest : List Segment} (hfiles : sealed ++ [active] = head :: rest) :
    SegmentSet.openFiles rt head rest = .ok (sealed, active.repaired rt) := by
  induction sealed generalizing first before head rest with
  | nil =>
      obtain ⟨rfl, rfl⟩ := List.cons.inj hfiles
      unfold SegmentSet.openFiles Segment.repaired
      cases hvalid : validate rt active.bytes true with
      | clean => rfl
      | truncate goodLen => rfl
      | corrupt offset =>
          unfold validate at hvalid
          dsimp only at hvalid
          split at hvalid <;> simp at hvalid
  | cons segment sealed ih =>
      obtain ⟨here, later, rfl, -, -, hbytes, hrest⟩ := hsealed
      obtain ⟨rfl, rfl⟩ := List.cons.inj hfiles
      obtain ⟨next, others, hnext⟩ : ∃ next others, sealed ++ [active] = next :: others :=
        List.exists_cons_of_ne_nil (by simp)
      have hhead : validate rt segment.bytes false = .clean := by
        rw [hbytes]
        exact validate_frames (fun ev hev => hfits ev (by simp [hev])) false
      rw [List.append_eq, hnext, SegmentSet.openFiles, hhead]
      simp only [ih hrest (fun ev hev => hfits ev (by simp [hev])) hnext]
      rfl

/-- Opening files that hold a log. -/
theorem Stored.openWithMax (hstored : Stored rt sealed active before last tail)
    (segmentMax : ℕ) :
    SegmentSet.openWithMax rt segmentMax (sealed ++ [active]) =
      .ok ⟨sealed, active.repaired rt, (active.repaired rt).bytes.length, segmentMax⟩ := by
  obtain ⟨head, rest, hfiles⟩ : ∃ head rest, sealed ++ [active] = head :: rest :=
    List.exists_cons_of_ne_nil (by simp)
  have hopen := hstored.sealed_hold.openFiles
    (fun ev hev => hstored.fits ev (by simp [hev])) active hfiles
  simp only [SegmentSet.openWithMax, hfiles, hopen]
  rfl

/-! ## Scanning -/

/-- A file that comes before another has only events below its base. -/
def Segment.Precedes (rt : Runtime) (segment next : Segment) : Prop :=
  segment.base < next.base ∧ ∀ item ∈ segment.events rt, item.1.seq < next.base

/-- A sealed file holds frames only. -/
theorem SealedHold.exists_frames {first : Int} (hsealed : SealedHold rt first sealed before)
    {segment : Segment} (hmem : segment ∈ sealed) :
    ∃ here, segment.bytes = frames (frameBytes rt) here ∧ ∀ ev ∈ here, ev ∈ before := by
  induction sealed generalizing first before with
  | nil => simp at hmem
  | cons head rest ih =>
      obtain ⟨here, later, rfl, -, -, hbytes, hrest⟩ := hsealed
      rcases List.mem_cons.1 hmem with rfl | hlater
      · exact ⟨here, hbytes, fun ev hev => List.mem_append_left _ hev⟩
      · obtain ⟨block, hblock, hsub⟩ := ih hrest hlater
        exact ⟨block, hblock, fun ev hev => List.mem_append_right _ (hsub ev hev)⟩

theorem SealedHold.stop_none {first : Int} (hsealed : SealedHold rt first sealed before)
    (hfits : ∀ ev ∈ before, FrameFits rt ev) {segment : Segment} (hmem : segment ∈ sealed) :
    ((frameDecoder rt).scan segment.bytes).stop = none := by
  obtain ⟨here, hbytes, hsub⟩ := hsealed.exists_frames hmem
  rw [hbytes, scan_frames (frameBytes_encodes rt) fun ev hev => hfits ev (hsub ev hev)]

theorem SealedHold.pairwise {first : Int} (hsealed : SealedHold rt first sealed before)
    (hfits : ∀ ev ∈ before, FrameFits rt ev) (hnumbered : Numbered first before)
    (hbase : active.base = first + before.length) :
    (sealed ++ [active]).Pairwise (Segment.Precedes rt) ∧
      ∀ segment ∈ sealed ++ [active], first ≤ segment.base := by
  induction sealed generalizing first before with
  | nil =>
      cases hsealed
      simp only [List.length_nil, Nat.cast_zero, add_zero] at hbase
      simp [hbase]
  | cons head rest ih =>
      obtain ⟨here, later, rfl, hne, hhead, hbytes, hrest⟩ := hsealed
      obtain ⟨hhere, hlater⟩ := (numbered_append first here later).1 hnumbered
      obtain ⟨hpairs, hbounds⟩ := ih hrest (fun ev hev => hfits ev (by simp [hev])) hlater
        (by rw [hbase, List.length_append]; push_cast; ring)
      have hpos : 0 < here.length := List.length_pos_iff.2 hne
      have hevents : head.events rt = placeFrames rt head.base 0 here :=
        Segment.events_of_frames hbytes fun ev hev => hfits ev (by simp [hev])
      refine ⟨List.pairwise_cons.2 ⟨fun next hnext => ?_, hpairs⟩, ?_⟩
      · have hnextBase := hbounds next hnext
        refine ⟨by omega, fun item hitem => ?_⟩
        rw [hevents] at hitem
        have hmem : item.1 ∈ here := by
          have := List.mem_map_of_mem (f := Prod.fst) hitem
          rwa [map_fst_placeFrames] at this
        have := (hhere.mem_bounds hmem).2
        omega
      · intro segment hsegment
        rcases List.mem_cons.1 hsegment with rfl | hother
        · exact hhead.ge
        · have := hbounds segment hother
          omega

/-- Scanning files all but the last of which decode to their end. -/
theorem scanSegments_concat
    (hsealed : ∀ segment ∈ sealed, ((frameDecoder rt).scan segment.bytes).stop = none)
    (active : Segment) (fromSeq : Int) :
    scanSegments rt fromSeq (sealed ++ [active]) =
      .ok ((logEvents rt (sealed ++ [active])).filter fun item => fromSeq ≤ item.1.seq) := by
  induction sealed with
  | nil =>
      simp only [List.nil_append, scanSegments, logEvents, List.flatMap_cons, List.flatMap_nil,
        List.append_nil]
      split
      · rfl
      · exact congrArg Except.ok (List.append_nil _)
  | cons segment sealed ih =>
      have hlater := ih fun other hother => hsealed other (List.mem_cons_of_mem _ hother)
      simp only [List.cons_append, scanSegments, hsealed segment List.mem_cons_self, hlater,
        logEvents, List.flatMap_cons, List.filter_append]
      rfl

variable (rt) in
/-- Leaving out files none of whose events are asked for. -/
theorem filter_logEvents_filter (keep : Segment → Bool) (wanted : WireEvent × FramePos → Bool)
    (files : List Segment)
    (hskip : ∀ segment ∈ files, keep segment = false →
      ∀ item ∈ segment.events rt, wanted item = false) :
    (logEvents rt (files.filter keep)).filter wanted = (logEvents rt files).filter wanted := by
  induction files with
  | nil => rfl
  | cons segment files ih =>
      have hrest := ih fun other hother => hskip other (List.mem_cons_of_mem _ hother)
      cases hkeep : keep segment with
      | true =>
          simp only [logEvents] at hrest ⊢
          rw [List.filter_cons_of_pos hkeep, List.flatMap_cons, List.filter_append, hrest,
            List.flatMap_cons, List.filter_append]
      | false =>
          have hnone : (segment.events rt).filter wanted = [] :=
            List.filter_eq_nil_iff.2 fun item hitem => by
              simp [hskip segment List.mem_cons_self hkeep item hitem]
          simp only [logEvents] at hrest ⊢
          rw [List.filter_cons_of_neg (by simp [hkeep]), hrest, List.flatMap_cons,
            List.filter_append, hnone, List.nil_append]

/-- The base a scan starts at is below or at every file's base, or it is the
base of a file at or below the requested seq. -/
theorem startBase_spec {files : List Segment} (hne : files ≠ [])
    (hpairs : files.Pairwise (Segment.Precedes rt)) (fromSeq : Int) :
    (∀ segment ∈ files, startBase fromSeq files ≤ segment.base) ∨
      ∃ segment ∈ files, startBase fromSeq files = segment.base ∧ segment.base ≤ fromSeq := by
  unfold startBase
  split
  · next segment hlast =>
      have hmem := List.mem_of_getLast? hlast
      rw [List.mem_filter, decide_eq_true_eq] at hmem
      exact Or.inr ⟨segment, hmem.1, rfl, hmem.2⟩
  · left
    obtain ⟨head, rest, rfl⟩ := List.exists_cons_of_ne_nil hne
    intro segment hsegment
    rcases List.mem_cons.1 hsegment with rfl | hrest
    · simp
    · simpa using ((List.pairwise_cons.1 hpairs).1 segment hrest).1.le

theorem Stored.pairwise (hstored : Stored rt sealed active before last tail) :
    (sealed ++ [active]).Pairwise (Segment.Precedes rt) :=
  (hstored.sealed_hold.pairwise (fun ev hev => hstored.fits ev (by simp [hev]))
    ((numbered_append 1 before last).1 hstored.numbered).1 hstored.base_eq).1

/-- A scan never starts behind the active file. -/
theorem Stored.startBase_le_active (hstored : Stored rt sealed active before last tail)
    (fromSeq : Int) : startBase fromSeq (sealed ++ [active]) ≤ active.base := by
  rcases startBase_spec (by simp) hstored.pairwise fromSeq with hlow | ⟨segment, hmem, hbase, -⟩
  · exact hlow active (by simp)
  · rw [hbase]
    rcases List.mem_append.1 hmem with hsealed | hlast
    · exact ((List.pairwise_append.1 hstored.pairwise).2.2 segment hsealed active (by simp)).1.le
    · rw [List.mem_singleton.1 hlast]

/-- The files before the one a scan starts in have no event it asks for. -/
theorem Stored.seq_lt_of_skipped (hstored : Stored rt sealed active before last tail)
    {fromSeq : Int} {segment : Segment} (hmem : segment ∈ sealed ++ [active])
    (hskip : segment.base < startBase fromSeq (sealed ++ [active]))
    {item : WireEvent × FramePos} (hitem : item ∈ segment.events rt) :
    item.1.seq < fromSeq := by
  have hordered : ∀ segment ∈ sealed ++ [active], ∀ next ∈ sealed ++ [active],
      segment.base < next.base → segment.Precedes rt next :=
    List.Pairwise.forall_of_forall_of_flip
      (fun segment _ hlt => absurd hlt (lt_irrefl _))
      (hstored.pairwise.imp fun {segment next} hprec (_ : segment.base < next.base) => hprec)
      (hstored.pairwise.imp fun {segment next} hprec (hlt : next.base < segment.base) =>
        absurd hlt (not_lt.2 hprec.1.le))
  rcases startBase_spec (by simp) hstored.pairwise fromSeq with hlow | ⟨start, hstart, hbase, hle⟩
  · exact absurd (hlow segment hmem) (not_le.2 hskip)
  · rw [hbase] at hskip
    exact ((hordered segment hmem start hstart hskip).2 item hitem).trans_le hle

/-- A scan of a stored log returns the events from the requested seq on. -/
theorem Stored.scanWithPos (hstored : Stored rt sealed active before last tail)
    (fromSeq : Int) :
    scanWithPos rt fromSeq (sealed ++ [active]) =
      .ok ((logEvents rt (sealed ++ [active])).filter fun item => fromSeq ≤ item.1.seq) := by
  have hfits : ∀ ev ∈ before, FrameFits rt ev := fun ev hev => hstored.fits ev (by simp [hev])
  have hactive := hstored.startBase_le_active fromSeq
  unfold Log.scanWithPos
  rw [List.filter_append, List.filter_cons_of_pos (by simpa using hactive), List.filter_nil,
    scanSegments_concat fun segment hmem =>
      hstored.sealed_hold.stop_none hfits (List.mem_of_mem_filter hmem)]
  congr 1
  have hskipped := filter_logEvents_filter rt
    (fun segment => decide (startBase fromSeq (sealed ++ [active]) ≤ segment.base))
    (fun item => decide (fromSeq ≤ item.1.seq)) (sealed ++ [active]) ?_
  · rw [← hskipped, List.filter_append, List.filter_cons_of_pos (by simpa using hactive),
      List.filter_nil]
  · intro segment hmem hskip item hitem
    rw [decide_eq_false_iff_not, not_le] at hskip
    simpa using hstored.seq_lt_of_skipped hmem hskip hitem

/-- Scanning from the seq after the first `count` events skips exactly
those. -/
theorem Stored.scanWithPos_succ (hstored : Stored rt sealed active before last tail)
    (count : ℕ) :
    Log.scanWithPos rt (count + 1) (sealed ++ [active]) =
      .ok ((logEvents rt (sealed ++ [active])).drop count) := by
  have hnumbered : Numbered 1 ((logEvents rt (sealed ++ [active])).map Prod.fst) := by
    rw [hstored.map_fst_logEvents]
    exact hstored.numbered
  rw [hstored.scanWithPos, ← hnumbered.filter_eq_drop count]
  simp only [Int.add_comm]

end Talea.Log
