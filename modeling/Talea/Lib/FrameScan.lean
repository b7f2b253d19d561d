import Mathlib

/-!
# Scanning a buffer of self-delimiting frames

A log file is a concatenation of frames, each of which says how long it is.  A
reader decodes one frame after the other from the front until the buffer is
empty or the next frame does not decode.  This file fixes what such a decoder
owes its readers and proves what the scan then returns: on a concatenation of
encoded frames followed by anything that does not decode, exactly those frames,
and on a prefix of such a concatenation, a prefix of the frames.
-/

namespace Talea.FrameScan

variable {α β ε : Type*}

/-- A decoder that takes one item from the front of a buffer: `ok none` is the
clean end of the data, and a decoded item comes with the number of units it
used, which is positive and within the buffer.  What follows an item does not
change how it decodes. -/
structure Decoder (α β ε : Type*) where
  decode : List β → Except ε (Option (α × ℕ))
  decode_nil : decode [] = .ok none
  nil_of_decode_none : ∀ {buf}, decode buf = .ok none → buf = []
  consumed : ∀ {buf item used}, decode buf = .ok (some (item, used)) →
    0 < used ∧ used ≤ buf.length
  decode_append : ∀ {buf item used}, decode buf = .ok (some (item, used)) →
    ∀ rest, decode (buf ++ rest) = .ok (some (item, used))

/-- The items a scan decodes, each with the units it used, and the error that
stopped it, if any. -/
structure Scan (α ε : Type*) where
  items : List (α × ℕ)
  stop : Option ε

/-- Decode at most `fuel` items from the front, until the buffer is empty or a
frame fails. -/
def Decoder.scanFuel (dec : Decoder α β ε) : ℕ → List β → Scan α ε
  | 0, _ => ⟨[], none⟩
  | fuel + 1, buf =>
      match dec.decode buf with
      | .ok none => ⟨[], none⟩
      | .error err => ⟨[], some err⟩
      | .ok (some (item, used)) =>
          let rest := dec.scanFuel fuel (buf.drop used)
          ⟨(item, used) :: rest.items, rest.stop⟩

/-- Decode from the front until the buffer is empty or a frame fails.  Every
item uses part of the buffer, so its length is enough fuel. -/
def Decoder.scan (dec : Decoder α β ε) (buf : List β) : Scan α ε :=
  dec.scanFuel (buf.length + 1) buf

variable (dec : Decoder α β ε)

/-- More fuel than the buffer is long changes nothing. -/
theorem scanFuel_eq_scan {fuel : ℕ} {buf : List β} (hfuel : buf.length < fuel) :
    dec.scanFuel fuel buf = dec.scan buf := by
  have hsame : ∀ fuel more : ℕ, ∀ buf : List β, buf.length < fuel → buf.length < more →
      dec.scanFuel fuel buf = dec.scanFuel more buf := by
    intro fuel
    induction fuel with
    | zero => exact fun _ _ h _ => absurd h (Nat.not_lt_zero _)
    | succ fuel ih =>
        intro more buf hfuel hmore
        obtain ⟨more, rfl⟩ := Nat.exists_eq_succ_of_ne_zero (Nat.ne_zero_of_lt hmore)
        simp only [Decoder.scanFuel]
        split
        · rfl
        · rfl
        · next item used hdec =>
            have hused := dec.consumed hdec
            have hlen : (buf.drop used).length = buf.length - used := List.length_drop
            rw [ih more (buf.drop used) (by omega) (by omega)]
  exact hsame fuel (buf.length + 1) buf hfuel (Nat.lt_succ_self _)

theorem scan_of_end {buf : List β} (h : dec.decode buf = .ok none) :
    dec.scan buf = ⟨[], none⟩ := by
  rw [Decoder.scan, Decoder.scanFuel, h]

theorem scan_of_error {buf : List β} {err : ε} (h : dec.decode buf = .error err) :
    dec.scan buf = ⟨[], some err⟩ := by
  rw [Decoder.scan, Decoder.scanFuel, h]

theorem scan_of_item {buf : List β} {item : α} {used : ℕ}
    (h : dec.decode buf = .ok (some (item, used))) :
    dec.scan buf =
      ⟨(item, used) :: (dec.scan (buf.drop used)).items, (dec.scan (buf.drop used)).stop⟩ := by
  have hused := dec.consumed h
  have hlen : (buf.drop used).length = buf.length - used := List.length_drop
  have hrest : dec.scanFuel buf.length (buf.drop used) = dec.scan (buf.drop used) :=
    scanFuel_eq_scan dec (by omega)
  rw [Decoder.scan, Decoder.scanFuel, h]
  simp only [hrest]

@[simp]
theorem scan_nil : dec.scan [] = ⟨[], none⟩ :=
  scan_of_end dec dec.decode_nil

/-- The units a scan used up: the offset at which it stopped. -/
def Scan.used (scan : Scan α ε) : ℕ :=
  (scan.items.map Prod.snd).sum

/-- The decoded items of a buffer. -/
def Decoder.events (buf : List β) : List α :=
  (dec.scan buf).items.map Prod.fst

@[simp]
theorem events_nil : dec.events [] = [] := by
  simp [Decoder.events]

theorem events_of_error {buf : List β} {err : ε} (h : dec.decode buf = .error err) :
    dec.events buf = [] := by
  simp [Decoder.events, scan_of_error dec h]

theorem events_of_item {buf : List β} {item : α} {used : ℕ}
    (h : dec.decode buf = .ok (some (item, used))) :
    dec.events buf = item :: dec.events (buf.drop used) := by
  simp [Decoder.events, scan_of_item dec h]

/-- A longer buffer has the same items first. -/
theorem events_isPrefix_append (buf rest : List β) : dec.events buf <+: dec.events (buf ++ rest) := by
  induction hlen : buf.length using Nat.strong_induction_on generalizing buf with
  | h len ih =>
      subst hlen
      match hdec : dec.decode buf with
      | .error err => simp [events_of_error dec hdec]
      | .ok none =>
          rw [dec.nil_of_decode_none hdec, events_nil]
          exact List.nil_prefix
      | .ok (some (item, used)) =>
          have hused := dec.consumed hdec
          rw [events_of_item dec hdec, events_of_item dec (dec.decode_append hdec rest),
            List.drop_append_of_le_length hused.2, List.prefix_cons_inj]
          exact ih _ (by rw [List.length_drop]; omega) _ rfl

theorem events_isPrefix {buf whole : List β} (hpre : buf <+: whole) :
    dec.events buf <+: dec.events whole := by
  obtain ⟨rest, rfl⟩ := hpre
  exact events_isPrefix_append dec buf rest

/-! ## Sequences of frames from the start of a buffer -/

/-- The frames of `items` decode one after the other from the start of `buf`,
and the last one ends at `offset`. -/
inductive Reaches (buf : List β) : List α → ℕ → Prop
  | start : Reaches buf [] 0
  | next {items : List α} {offset : ℕ} {item : α} {used : ℕ} (hreach : Reaches buf items offset)
      (hdecode : dec.decode (buf.drop offset) = .ok (some (item, used))) :
      Reaches buf (items ++ [item]) (offset + used)

/-- No sequence of frames that starts the buffer ends behind `offset`, and one
ends there. -/
def Longest (buf : List β) (offset : ℕ) : Prop :=
  (∃ items, Reaches dec buf items offset) ∧
    ∀ items reached, Reaches dec buf items reached → reached ≤ offset

/-- A scan passes through every place a sequence of frames reaches. -/
theorem Reaches.scan_eq {dec : Decoder α β ε} {buf : List β} {items : List α} {offset : ℕ}
    (hreach : Reaches dec buf items offset) :
    ∃ first, first.map Prod.fst = items ∧ (first.map Prod.snd).sum = offset ∧
      dec.scan buf =
        ⟨first ++ (dec.scan (buf.drop offset)).items, (dec.scan (buf.drop offset)).stop⟩ := by
  induction hreach with
  | start => exact ⟨[], rfl, rfl, by simp⟩
  | @next items offset item used _ hdecode ih =>
      obtain ⟨first, hitems, hoffset, hscan⟩ := ih
      refine ⟨first ++ [(item, used)], by simp [hitems], by simp [hoffset], ?_⟩
      rw [hscan, scan_of_item dec hdecode, List.drop_drop]
      simp

theorem Reaches.le_used {dec : Decoder α β ε} {buf : List β} {items : List α} {offset : ℕ}
    (hreach : Reaches dec buf items offset) : offset ≤ (dec.scan buf).used := by
  obtain ⟨first, -, hoffset, hscan⟩ := hreach.scan_eq
  rw [hscan, Scan.used, List.map_append, List.sum_append, hoffset]
  exact Nat.le_add_right _ _

/-- The scan of what follows a sequence of frames continues the sequence. -/
theorem Reaches.scan_rest {dec : Decoder α β ε} {buf : List β} {items : List α} {offset : ℕ}
    (hreach : Reaches dec buf items offset) :
    ∃ all, Reaches dec buf all (offset + (dec.scan (buf.drop offset)).used) := by
  induction hlen : (buf.drop offset).length using Nat.strong_induction_on
    generalizing items offset with
  | h len ih =>
      match hdec : dec.decode (buf.drop offset) with
      | .error err => exact ⟨items, by simpa [scan_of_error dec hdec, Scan.used] using hreach⟩
      | .ok none => exact ⟨items, by simpa [scan_of_end dec hdec, Scan.used] using hreach⟩
      | .ok (some (item, used)) =>
          have hused := dec.consumed hdec
          rw [List.length_drop] at hlen hused
          obtain ⟨all, hall⟩ := ih (buf.drop (offset + used)).length
            (by rw [List.length_drop]; omega) (hreach.next hdec) rfl
          refine ⟨all, ?_⟩
          rw [scan_of_item dec hdec, List.drop_drop]
          simpa [Scan.used, Nat.add_assoc] using hall

/-- A scan stops at the end of the longest sequence of frames. -/
theorem longest_used (buf : List β) : Longest dec buf (dec.scan buf).used := by
  have hstart : Reaches dec buf [] 0 := .start
  obtain ⟨all, hall⟩ := hstart.scan_rest
  exact ⟨⟨all, by simpa using hall⟩, fun _ _ hreach => hreach.le_used⟩

theorem Reaches.le_length {dec : Decoder α β ε} {buf : List β} {items : List α} {offset : ℕ}
    (hreach : Reaches dec buf items offset) : offset ≤ buf.length := by
  induction hreach with
  | start => exact Nat.zero_le _
  | @next items offset item used _ hdecode ih =>
      have hused := (dec.consumed hdecode).2
      rw [List.length_drop] at hused
      omega

/-- A scan stops without an error exactly when the frames fill the buffer. -/
theorem scan_stop_cases (buf : List β) :
    (dec.scan buf).used = buf.length ∧ (dec.scan buf).stop = none ∨
      (dec.scan buf).used < buf.length ∧ ∃ err, (dec.scan buf).stop = some err := by
  obtain ⟨⟨items, hreach⟩, hlongest⟩ := longest_used dec buf
  obtain ⟨first, -, -, hscan⟩ := hreach.scan_eq
  have hstop := congrArg Scan.stop hscan
  have hle := hreach.le_length
  match hdec : dec.decode (buf.drop (dec.scan buf).used) with
  | .ok none =>
      have hnil := List.drop_eq_nil_iff.1 (dec.nil_of_decode_none hdec)
      exact Or.inl ⟨le_antisymm hle hnil, by rw [hstop, scan_of_end dec hdec]⟩
  | .error err =>
      refine Or.inr ⟨lt_of_le_of_ne hle fun hend => ?_, err, by rw [hstop, scan_of_error dec hdec]⟩
      rw [hend, List.drop_length, dec.decode_nil] at hdec
      cases hdec
  | .ok (some (item, used)) =>
      have hbehind := hlongest _ _ (hreach.next hdec)
      have hused := dec.consumed hdec
      omega

/-! ## Loops -/

/-- Run the body of a loop at most `turns` times. -/
def runLoop {σ ρ : Type*} (body : σ → σ ⊕ ρ) : ℕ → σ → Option ρ
  | 0, _ => none
  | turns + 1, state =>
      match body state with
      | .inl next => runLoop body turns next
      | .inr result => some result

/-- A loop ends when each of its turns takes at least `least` off a measure,
with the result that every turn hands on unchanged. -/
theorem runLoop_eq {σ ρ : Type*} {body : σ → σ ⊕ ρ} (inv : σ → Prop) (measure : σ → ℕ)
    (result : σ → ρ) (least : ℕ) (hleast : 0 < least)
    (hstop : ∀ state final, inv state → body state = .inr final → final = result state)
    (hnext : ∀ state next, inv state → body state = .inl next →
      inv next ∧ measure next + least ≤ measure state ∧ result next = result state)
    {turns : ℕ} {state : σ} (hinv : inv state) (hturns : measure state / least < turns) :
    runLoop body turns state = some (result state) := by
  induction turns generalizing state with
  | zero => exact absurd hturns (Nat.not_lt_zero _)
  | succ turns ih =>
      rw [runLoop]
      match hbody : body state with
      | .inr final => exact congrArg some (hstop state final hinv hbody)
      | .inl next =>
          obtain ⟨hinv', hless, hsame⟩ := hnext state next hinv hbody
          have hfewer : measure next / least + 1 ≤ measure state / least := by
            rw [← Nat.add_div_right _ hleast]
            exact Nat.div_le_div_right hless
          exact (ih hinv' (by omega)).trans (congrArg some hsame)

/-! ## Encoders -/

/-- An encoder that fits a decoder: an encoded item followed by anything
decodes to that item, and a proper nonempty prefix of an encoded item is
refused. -/
structure Encodes (enc : α → List β) (fits : α → Prop) : Prop where
  decode_enc : ∀ item, fits item → ∀ rest,
    dec.decode (enc item ++ rest) = .ok (some (item, (enc item).length))
  decode_torn : ∀ item, fits item → ∀ torn, torn <+: enc item → torn ≠ [] →
    torn ≠ enc item → ∃ err, dec.decode torn = .error err

/-- The concatenated frames of a list of items. -/
def frames (enc : α → List β) (items : List α) : List β :=
  items.flatMap enc

@[simp]
theorem frames_nil (enc : α → List β) : frames enc [] = [] := rfl

@[simp]
theorem frames_cons (enc : α → List β) (item : α) (items : List α) :
    frames enc (item :: items) = enc item ++ frames enc items := rfl

@[simp]
theorem frames_append (enc : α → List β) (first second : List α) :
    frames enc (first ++ second) = frames enc first ++ frames enc second := by
  simp [frames]

variable {dec} {enc : α → List β} {fits : α → Prop}

/-- Scanning encoded frames returns them, then goes on with what follows. -/
theorem scan_frames_append (henc : Encodes dec enc fits) {items : List α}
    (hfits : ∀ item ∈ items, fits item) (tail : List β) :
    dec.scan (frames enc items ++ tail) =
      ⟨items.map (fun item => (item, (enc item).length)) ++ (dec.scan tail).items,
        (dec.scan tail).stop⟩ := by
  induction items with
  | nil => simp
  | cons item items ih =>
      have hitem := henc.decode_enc item (hfits item (by simp)) (frames enc items ++ tail)
      rw [frames_cons, List.append_assoc, scan_of_item dec hitem, List.drop_left,
        ih fun other hother => hfits other (by simp [hother])]
      simp

theorem scan_frames (henc : Encodes dec enc fits) {items : List α}
    (hfits : ∀ item ∈ items, fits item) :
    dec.scan (frames enc items) =
      ⟨items.map (fun item => (item, (enc item).length)), none⟩ := by
  simpa using scan_frames_append henc hfits []

theorem events_frames_append (henc : Encodes dec enc fits) {items : List α}
    (hfits : ∀ item ∈ items, fits item) (tail : List β) :
    dec.events (frames enc items ++ tail) = items ++ dec.events tail := by
  simp [Decoder.events, scan_frames_append henc hfits, Function.comp_def]

/-- What may stand after the good frames of a file: nothing, or bytes the
decoder refuses. -/
def Torn (dec : Decoder α β ε) (tail : List β) : Prop :=
  tail = [] ∨ ∃ err, dec.decode tail = .error err

theorem events_torn {tail : List β} (htorn : Torn dec tail) : dec.events tail = [] := by
  rcases htorn with rfl | ⟨err, herr⟩
  · simp
  · exact events_of_error dec herr

/-- Cutting off the end of undecodable bytes does not make them decodable. -/
theorem Torn.of_isPrefix {tail part : List β} (htorn : Torn dec tail) (hpre : part <+: tail) :
    Torn dec part := by
  obtain ⟨rest, rfl⟩ := hpre
  match hdec : dec.decode part with
  | .error err => exact Or.inr ⟨err, hdec⟩
  | .ok none => exact Or.inl (dec.nil_of_decode_none hdec)
  | .ok (some (item, used)) =>
      have hwhole := dec.decode_append hdec rest
      rcases htorn with hnil | ⟨err, herr⟩
      · exact Or.inl (List.append_eq_nil_iff.1 hnil).1
      · rw [hwhole] at herr
        cases herr

/-- A prefix of a concatenation of frames with a torn tail is some of the
frames, followed by nothing or by a torn one. -/
theorem prefix_frames (henc : Encodes dec enc fits) {items : List α}
    (hfits : ∀ item ∈ items, fits item) {tail : List β} (htorn : Torn dec tail) {buf : List β}
    (hpre : buf <+: frames enc items ++ tail) :
    ∃ kept rest, kept <+: items ∧ buf = frames enc kept ++ rest ∧ Torn dec rest := by
  induction items generalizing buf with
  | nil => exact ⟨[], buf, List.prefix_rfl, rfl, htorn.of_isPrefix (by simpa using hpre)⟩
  | cons item items ih =>
      rw [frames_cons, List.append_assoc] at hpre
      by_cases hshort : buf.length < (enc item).length
      · have hpart : buf <+: enc item :=
          List.prefix_of_prefix_length_le hpre (List.prefix_append _ _) hshort.le
        refine ⟨[], buf, List.nil_prefix, by simp, ?_⟩
        by_cases hnil : buf = []
        · exact Or.inl hnil
        · refine Or.inr (henc.decode_torn item (hfits item (by simp)) buf hpart hnil ?_)
          rintro rfl
          exact hshort.ne rfl
      · have hwhole : enc item <+: buf :=
          List.prefix_of_prefix_length_le (List.prefix_append _ _) hpre (not_lt.mp hshort)
        obtain ⟨rest, rfl⟩ := hwhole
        obtain ⟨kept, torn, hkept, rfl, htorn'⟩ :=
          ih (fun other hother => hfits other (by simp [hother]))
            ((List.prefix_append_right_inj _).1 hpre)
        exact ⟨item :: kept, torn, (List.prefix_cons_inj item).2 hkept, by simp, htorn'⟩

end Talea.FrameScan
