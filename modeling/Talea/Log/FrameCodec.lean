import Talea.Log.RangeScan

/-!
# The frame codec and its loops

Recovery and the range scans walk a file frame by frame, at offsets the frames
themselves announce.  A decoded frame covers its header at least and stays
within the file, so each of these loops ends, on any bytes whatever.  Recovery
stops at the end of the longest sequence of frames that starts the file, which
is where it cuts the newest file off.
-/

namespace Talea.Log

open FrameScan

variable (rt : Runtime)

/-! ## The loop of `validate` -/

structure ValidateLoop where
  pos : ℕ
  lastGood : ℕ

/-- One turn of the loop of `validate`. -/
def validateTurn (bytes : List UInt8) (isFinal : Bool) (state : ValidateLoop) :
    ValidateLoop ⊕ Validation :=
  match decodeFrame rt (bytes.drop state.pos) with
  | .ok none => .inr .clean
  | .ok (some (_, consumed)) => .inl ⟨state.pos + consumed, state.pos + consumed⟩
  | .error _ => .inr (if isFinal then .truncate state.lastGood else .corrupt state.pos)

/-- `validate` as the source runs it, in at most `turns` turns. -/
def validateLoop (bytes : List UInt8) (isFinal : Bool) (turns : ℕ) : Option Validation :=
  runLoop (validateTurn rt bytes isFinal) turns ⟨0, 0⟩

/-- A frame decoded at an offset takes at least a header off what is left. -/
theorem decodeFrame_drop {bytes : List UInt8} {pos : ℕ} {ev : WireEvent} {used : ℕ}
    (hdecode : decodeFrame rt (bytes.drop pos) = .ok (some (ev, used))) :
    bytes.length - (pos + used) + headerLen ≤ bytes.length - pos := by
  obtain ⟨hheader, hused⟩ := decodeFrame_consumed rt hdecode
  rw [List.length_drop] at hused
  omega

/-- What the loop of `validate` returns from a place it can be at. -/
def validateFrom (bytes : List UInt8) (isFinal : Bool) (pos : ℕ) : Validation :=
  let scan := (frameDecoder rt).scan (bytes.drop pos)
  match scan.stop with
  | none => .clean
  | some _ => if isFinal then .truncate (pos + scan.used) else .corrupt (pos + scan.used)

theorem validateFrom_zero (bytes : List UInt8) (isFinal : Bool) :
    validateFrom rt bytes isFinal 0 = validate rt bytes isFinal := by
  cases hstop : ((frameDecoder rt).scan bytes).stop with
  | none => simp only [validateFrom, validate, List.drop_zero, hstop]
  | some err => simp only [validateFrom, validate, List.drop_zero, Nat.zero_add, hstop]

theorem validateFrom_next {bytes : List UInt8} (isFinal : Bool) {pos : ℕ} {ev : WireEvent}
    {used : ℕ} (hdecode : decodeFrame rt (bytes.drop pos) = .ok (some (ev, used))) :
    validateFrom rt bytes isFinal (pos + used) = validateFrom rt bytes isFinal pos := by
  have hscan := scan_of_item (frameDecoder rt) hdecode
  rw [List.drop_drop] at hscan
  simp only [validateFrom, hscan, Scan.used, List.map_cons, List.sum_cons, Nat.add_assoc]

/-- The loop of `validate` ends within a turn for each header the file has room
for, and one more.  Both its offsets stand at the end of the frames decoded so
far. -/
theorem validateLoop_eq (bytes : List UInt8) (isFinal : Bool) :
    validateLoop rt bytes isFinal (bytes.length / headerLen + 1) =
      some (validate rt bytes isFinal) := by
  rw [← validateFrom_zero]
  refine runLoop_eq (fun state : ValidateLoop => state.lastGood = state.pos)
    (fun state => bytes.length - state.pos) (fun state => validateFrom rt bytes isFinal state.pos)
    headerLen (by decide) ?_ ?_ rfl (Nat.lt_succ_self _)
  · rintro ⟨pos, lastGood⟩ final hinv hstop
    obtain rfl : lastGood = pos := hinv
    unfold validateTurn at hstop
    cases hdecode : decodeFrame rt (bytes.drop lastGood) with
    | error err =>
        have hscan := scan_of_error (frameDecoder rt) hdecode
        rw [hdecode] at hstop
        simpa [validateFrom, hscan, Scan.used] using (Sum.inr.inj hstop).symm
    | ok decoded =>
        cases decoded with
        | none =>
            have hscan := scan_of_end (frameDecoder rt) hdecode
            rw [hdecode] at hstop
            simpa only [validateFrom, hscan] using (Sum.inr.inj hstop).symm
        | some item =>
            rw [hdecode] at hstop
            cases hstop
  · rintro ⟨pos, lastGood⟩ next hinv hnext
    unfold validateTurn at hnext
    cases hdecode : decodeFrame rt (bytes.drop pos) with
    | error err =>
        rw [hdecode] at hnext
        cases hnext
    | ok decoded =>
        rw [hdecode] at hnext
        cases decoded with
        | none => cases hnext
        | some item =>
            obtain rfl := Sum.inl.inj hnext
            exact ⟨rfl, decodeFrame_drop rt hdecode, validateFrom_next rt isFinal hdecode⟩

/-! ## The loop of the range scans -/

namespace SegmentCatalog

variable {α : Type} (emit : WireEvent × FramePos → α) (fromSeq : Int) (limit : ℕ)

/-- How the loop over one file ends: on to the next file, with the scan done,
or with an error. -/
inductive FileEnd (α : Type)
  | next (results : List α)
  | done (results : List α)
  | failed (err : ScanError)

structure ScanLoop (α : Type) where
  pos : ℕ
  results : List α

/-- One turn of the loop of a range scan over one file. -/
def scanTurn (segment : Segment) (isLast : Bool) (state : ScanLoop α) :
    ScanLoop α ⊕ FileEnd α :=
  if limit ≤ state.results.length then .inr (.next state.results)
  else
    match decodeFrame rt (segment.bytes.drop state.pos) with
    | .ok none => .inr (.next state.results)
    | .ok (some (ev, consumed)) =>
        .inl ⟨state.pos + consumed,
          if fromSeq ≤ ev.seq then state.results ++ [emit (ev, (segment.base, state.pos))]
          else state.results⟩
    | .error _ =>
        if isLast then .inr (.done state.results)
        else .inr (.failed (.decode segment.base state.pos))

/-- The loop over one file, in at most `turns` turns. -/
def scanLoop (segment : Segment) (isLast : Bool) (results : List α) (turns : ℕ) :
    Option (FileEnd α) :=
  runLoop (scanTurn rt emit fromSeq limit segment isLast) turns ⟨0, results⟩

/-- What the loop over one file returns from a place it can be at. -/
def scanEnd (segment : Segment) (isLast : Bool) (state : ScanLoop α) : FileEnd α :=
  let scan := (frameDecoder rt).scan (segment.bytes.drop state.pos)
  let results := collectFrames emit fromSeq limit segment.base state.pos state.results scan.items
  match scan.stop with
  | none => .next results
  | some _ =>
      if limit ≤ results.length then .next results
      else if isLast then .done results
      else .failed (.decode segment.base (state.pos + scan.used))

variable {emit fromSeq limit}

theorem collectFrames_full {results : List α} (hfull : limit ≤ results.length) (base : Int)
    (offset : ℕ) (items : List (WireEvent × ℕ)) :
    collectFrames emit fromSeq limit base offset results items = results := by
  cases items with
  | nil => rfl
  | cons item items => rw [collectFrames, if_pos hfull]

/-- The loop over one file ends as well, whatever its bytes are. -/
theorem scanLoop_eq (segment : Segment) (isLast : Bool) (results : List α) :
    scanLoop rt emit fromSeq limit segment isLast results
        (segment.bytes.length / headerLen + 1) =
      some (scanEnd rt emit fromSeq limit segment isLast ⟨0, results⟩) := by
  refine runLoop_eq (fun _ => True) (fun state : ScanLoop α => segment.bytes.length - state.pos)
    (scanEnd rt emit fromSeq limit segment isLast) headerLen (by decide) ?_ ?_ trivial
    (Nat.lt_succ_self _)
  · rintro ⟨pos, results⟩ final - hstop
    unfold scanTurn at hstop
    by_cases hfull : limit ≤ results.length
    · rw [if_pos hfull] at hstop
      obtain rfl := Sum.inr.inj hstop
      unfold scanEnd
      simp only [collectFrames_full hfull, if_pos hfull]
      split <;> rfl
    · rw [if_neg hfull] at hstop
      cases hdecode : decodeFrame rt (segment.bytes.drop pos) with
      | error err =>
          have hscan := scan_of_error (frameDecoder rt) hdecode
          rw [hdecode] at hstop
          cases isLast <;>
            simpa [scanEnd, hscan, collectFrames, hfull, Scan.used] using (Sum.inr.inj hstop).symm
      | ok decoded =>
          rw [hdecode] at hstop
          cases decoded with
          | none =>
              have hscan := scan_of_end (frameDecoder rt) hdecode
              simpa only [scanEnd, hscan, collectFrames] using (Sum.inr.inj hstop).symm
          | some item => cases hstop
  · rintro ⟨pos, results⟩ next - hnext
    unfold scanTurn at hnext
    by_cases hfull : limit ≤ results.length
    · rw [if_pos hfull] at hnext
      cases hnext
    · rw [if_neg hfull] at hnext
      cases hdecode : decodeFrame rt (segment.bytes.drop pos) with
      | error err =>
          rw [hdecode] at hnext
          cases isLast <;> cases hnext
      | ok decoded =>
          rw [hdecode] at hnext
          cases decoded with
          | none => cases hnext
          | some item =>
              obtain ⟨ev, used⟩ := item
              obtain rfl := Sum.inl.inj hnext
              refine ⟨trivial, decodeFrame_drop rt hdecode, ?_⟩
              have hscan := scan_of_item (frameDecoder rt) hdecode
              rw [List.drop_drop] at hscan
              simp only [scanEnd, hscan, collectFrames, if_neg hfull, Scan.used, List.map_cons,
                List.sum_cons, Nat.add_assoc]

/-- The range scan goes from file to file as its loops tell it to. -/
theorem collectFiles_cons {lastBase : Int} {results : List α} (hroom : ¬ limit ≤ results.length)
    (segment : Segment) (rest : List Segment) :
    collectFiles rt emit fromSeq limit lastBase results (segment :: rest) =
      match scanEnd rt emit fromSeq limit segment (segment.base = lastBase) ⟨0, results⟩ with
      | .next later => collectFiles rt emit fromSeq limit lastBase later rest
      | .done later => .ok later
      | .failed err => .error err := by
  rw [collectFiles, if_neg hroom]
  simp only [scanEnd, List.drop_zero, Nat.zero_add, decide_eq_true_eq]
  cases ((frameDecoder rt).scan segment.bytes).stop with
  | none => rfl
  | some err =>
      dsimp only
      split_ifs with hstop hfull hlast hfull hlast
      · cases rest with
        | nil => rfl
        | cons next rest => simp only [collectFiles, if_pos hfull]
      · rfl
      · exact absurd hstop (by simp [hfull, hlast])
      · exact absurd (Or.inl hfull) hstop
      · exact absurd (Or.inr hlast) hstop
      · rfl

end SegmentCatalog

/-! ## What the codec is relied on for -/

theorem mapM_encodeFrame_eq_ok {events : List WireEvent} {chunks : List (List UInt8)}
    (hencode : events.mapM (encodeFrame rt) = .ok chunks) :
    (∀ ev ∈ events, FrameFits rt ev) ∧ chunks = events.map (frameBytes rt) := by
  induction events generalizing chunks with
  | nil => exact ⟨by simp, (Except.ok.inj hencode).symm⟩
  | cons ev events ih =>
      rw [List.mapM_cons] at hencode
      obtain ⟨frame, hframe, hencode⟩ := Except.bind_eq_ok.1 hencode
      obtain ⟨later, hlater, hencode⟩ := Except.bind_eq_ok.1 hencode
      obtain ⟨hfits, rfl⟩ := encodeFrame_eq_ok.1 hframe
      obtain ⟨hall, rfl⟩ := ih hlater
      exact ⟨List.forall_mem_cons.2 ⟨hfits, hall⟩, (Except.ok.inj hencode).symm⟩

/-- A sequence of frames and a strict prefix of one more. -/
theorem scan_frames_torn {events : List WireEvent} (hfits : ∀ ev ∈ events, FrameFits rt ev)
    {ev : WireEvent} (hlast : FrameFits rt ev) {part : List UInt8}
    (hpre : part <+: frameBytes rt ev) (hne : part ≠ frameBytes rt ev) :
    (frameDecoder rt).scan (frames (frameBytes rt) events ++ part) =
      ⟨events.map fun ev => (ev, (frameBytes rt ev).length),
        if part = [] then none else some .torn⟩ := by
  rw [scan_frames_append (frameBytes_encodes rt) hfits]
  by_cases hnil : part = []
  · rw [if_pos hnil, hnil]
    simp
  · have htorn : (frameDecoder rt).decode part = .error .torn :=
      decodeFrame_torn rt hlast hpre hnil hne
    rw [if_neg hnil, scan_of_error _ htorn]
    simp

/-- `validate` stops at the end of the longest sequence of frames, and a file
that is all frames is clean. -/
theorem validate_longest (bytes : List UInt8) (isFinal : Bool) :
    ∃ offset, Longest (frameDecoder rt) bytes offset ∧
      validate rt bytes isFinal =
        if offset = bytes.length then .clean
        else if isFinal then .truncate offset else .corrupt offset := by
  refine ⟨_, longest_used (frameDecoder rt) bytes, ?_⟩
  rw [Log.validate]
  rcases scan_stop_cases (frameDecoder rt) bytes with ⟨hused, hstop⟩ | ⟨hused, err, hstop⟩
  · rw [if_pos hused, hstop]
  · rw [if_neg hused.ne, hstop]

/-- What the readers and the recovery of a log rely on. -/
structure ExactCodec : Prop where
  /-- An event whose payload fits is encoded; its frame decodes to it whatever
  follows, and a part of the frame is torn. -/
  frame : ∀ ev, FrameFits rt ev → ∃ frame, encodeFrame rt ev = .ok frame ∧
    (∀ rest, decodeFrame rt (frame ++ rest) = .ok (some (ev, frame.length))) ∧
    ∀ part, part <+: frame → part ≠ [] → part ≠ frame → decodeFrame rt part = .error .torn
  /-- Frames followed by a part of another one decode to their events, then
  end or are torn. -/
  sequence : ∀ events chunks ev last part, events.mapM (encodeFrame rt) = .ok chunks →
    encodeFrame rt ev = .ok last → part <+: last → part ≠ last →
    let scan := (frameDecoder rt).scan (chunks.flatten ++ part)
    scan.items.map Prod.fst = events ∧ scan.used = chunks.flatten.length ∧
      scan.stop = if part = [] then none else some .torn
  /-- On any bytes, a decoded frame has a header and lies within them. -/
  consumed : ∀ bytes ev used, decodeFrame rt bytes = .ok (some (ev, used)) →
    headerLen ≤ used ∧ used ≤ bytes.length
  /-- On any bytes, the loop of `validate` ends, and what it returns names the
  end of the longest sequence of frames. -/
  validate : ∀ bytes isFinal, ∃ offset, Longest (frameDecoder rt) bytes offset ∧
    validateLoop rt bytes isFinal (bytes.length / headerLen + 1) =
      some (if offset = bytes.length then .clean
        else if isFinal then .truncate offset else .corrupt offset)
  /-- On any bytes, the loop of a range scan over a file ends. -/
  scans : ∀ {α : Type} (emit : WireEvent × FramePos → α) fromSeq limit segment isLast results,
    ∃ fileEnd, SegmentCatalog.scanLoop rt emit fromSeq limit segment isLast results
      (segment.bytes.length / headerLen + 1) = some fileEnd

/-- The frame codec is exact, and every loop over its frames ends. -/
theorem frameCodec_exact : ExactCodec rt where
  frame ev hfits :=
    ⟨frameBytes rt ev, encodeFrame_eq_ok.2 ⟨hfits, rfl⟩, decodeFrame_frameBytes_append rt hfits,
      fun _ hpre hnil hne => decodeFrame_torn rt hfits hpre hnil hne⟩
  sequence events chunks ev last part hchunks hlast hpre hne := by
    obtain ⟨hfits, rfl⟩ := mapM_encodeFrame_eq_ok rt hchunks
    obtain ⟨hfits', rfl⟩ := encodeFrame_eq_ok.1 hlast
    have hscan := scan_frames_torn rt hfits hfits' hpre hne
    rw [frames, List.flatMap_def] at hscan
    simp [hscan, Scan.used, Function.comp_def, List.length_flatten]
  consumed _ _ _ := decodeFrame_consumed rt
  validate bytes isFinal := by
    obtain ⟨offset, hlongest, hvalidate⟩ := validate_longest rt bytes isFinal
    exact ⟨offset, hlongest, by rw [validateLoop_eq, hvalidate]⟩
  scans _ _ _ segment isLast results :=
    ⟨_, SegmentCatalog.scanLoop_eq rt segment isLast results⟩

end Talea.Log
