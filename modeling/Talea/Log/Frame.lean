import Talea.Log.Runtime
import Talea.Lib.FrameScan

/-!
# The frame format

`u32-LE payload length | u32-LE crc32(payload) | JSON payload`.  The header
makes a torn write recognisable: a buffer shorter than its header or than the
announced payload is torn, a full-length payload with a wrong checksum or
unreadable JSON is corrupt.
-/

namespace Talea.Log

open FrameScan

def headerLen : ℕ := 8

inductive FrameError
  | torn
  | corrupt (reason : String)
  deriving DecidableEq

inductive EncodeError
  | tooLarge (len : ℕ)
  deriving DecidableEq

/-- `u32::to_le_bytes`. -/
def toLeBytes (value : ℕ) : List UInt8 :=
  [UInt8.ofNat (value % 256), UInt8.ofNat (value / 256 % 256),
    UInt8.ofNat (value / 65536 % 256), UInt8.ofNat (value / 16777216 % 256)]

/-- `u32::from_le_bytes` on the first four bytes. -/
def fromLeBytes : List UInt8 → ℕ
  | b0 :: b1 :: b2 :: b3 :: _ =>
      b0.toNat + 256 * b1.toNat + 65536 * b2.toNat + 16777216 * b3.toNat
  | _ => 0

@[simp]
theorem length_toLeBytes (value : ℕ) : (toLeBytes value).length = 4 := rfl

theorem fromLeBytes_toLeBytes_append {value : ℕ} (hvalue : value < 4294967296)
    (rest : List UInt8) : fromLeBytes (toLeBytes value ++ rest) = value := by
  simp only [toLeBytes, List.cons_append, List.nil_append, fromLeBytes, UInt8.toNat_ofNat']
  omega

variable (rt : Runtime)

/-- The bytes of a frame. -/
def frameBytes (ev : WireEvent) : List UInt8 :=
  toLeBytes (rt.toVec ev).length ++ toLeBytes (rt.crc32 (rt.toVec ev)).toNat ++ rt.toVec ev

/-- The payload length fits the `u32` length field. -/
def FrameFits (ev : WireEvent) : Prop := (rt.toVec ev).length < 4294967296

instance : DecidablePred (FrameFits rt) := fun ev => by
  unfold FrameFits
  infer_instance

def encodeFrame (ev : WireEvent) : Except EncodeError (List UInt8) :=
  if FrameFits rt ev then .ok (frameBytes rt ev) else .error (.tooLarge (rt.toVec ev).length)

/-- Decode one frame from the front of `buf`. -/
def decodeFrame (buf : List UInt8) : Except FrameError (Option (WireEvent × ℕ)) :=
  if buf = [] then .ok none
  else if buf.length < headerLen then .error .torn
  else
    let len := fromLeBytes buf
    let crc := fromLeBytes (buf.drop 4)
    if buf.length < headerLen + len then .error .torn
    else
      let payload := (buf.drop headerLen).take len
      if (rt.crc32 payload).toNat ≠ crc then .error (.corrupt "crc mismatch")
      else
        match rt.fromSlice payload with
        | none => .error (.corrupt "json")
        | some ev => .ok (some (ev, headerLen + len))

@[simp]
theorem length_frameBytes (ev : WireEvent) :
    (frameBytes rt ev).length = headerLen + (rt.toVec ev).length := by
  simp only [frameBytes, List.length_append, length_toLeBytes, headerLen]

theorem frameBytes_ne_nil (ev : WireEvent) : frameBytes rt ev ≠ [] := by
  intro h
  have := congrArg List.length h
  simp [headerLen] at this

/-- A decoded frame is a header and the payload it announces, all of it within
the buffer. -/
theorem decodeFrame_consumed {buf : List UInt8} {ev : WireEvent} {used : ℕ}
    (h : decodeFrame rt buf = .ok (some (ev, used))) :
    headerLen ≤ used ∧ used ≤ buf.length := by
  unfold decodeFrame at h
  split at h
  · simp at h
  split at h
  · simp at h
  dsimp only at h
  split at h
  · simp at h
  split at h
  · simp at h
  split at h
  · simp at h
  simp only [Except.ok.injEq, Option.some.injEq, Prod.mk.injEq] at h
  omega

theorem eq_nil_of_decodeFrame_none {buf : List UInt8} (h : decodeFrame rt buf = .ok none) :
    buf = [] := by
  unfold decodeFrame at h
  split at h
  · assumption
  split at h
  · simp at h
  dsimp only at h
  split at h
  · simp at h
  split at h
  · simp at h
  split at h <;> simp at h

/-- An encoded event decodes to itself whatever follows it. -/
theorem decodeFrame_frameBytes_append {ev : WireEvent} (hfits : FrameFits rt ev)
    (rest : List UInt8) :
    decodeFrame rt (frameBytes rt ev ++ rest) =
      .ok (some (ev, (frameBytes rt ev).length)) := by
  have hlen : fromLeBytes (frameBytes rt ev ++ rest) = (rt.toVec ev).length := by
    rw [frameBytes, List.append_assoc, List.append_assoc]
    exact fromLeBytes_toLeBytes_append hfits _
  have hcrc : fromLeBytes ((frameBytes rt ev ++ rest).drop 4) =
      (rt.crc32 (rt.toVec ev)).toNat := by
    rw [frameBytes, List.append_assoc, List.append_assoc,
      List.drop_left' (length_toLeBytes _)]
    exact fromLeBytes_toLeBytes_append (rt.crc32 (rt.toVec ev)).toNat_lt _
  have hpayload : ((frameBytes rt ev ++ rest).drop headerLen).take (rt.toVec ev).length =
      rt.toVec ev := by
    rw [frameBytes, List.append_assoc, List.drop_left' (by simp [headerLen])]
    simp
  have hne : frameBytes rt ev ++ rest ≠ [] := by simp [frameBytes_ne_nil]
  unfold decodeFrame
  rw [if_neg hne, if_neg (by simp [headerLen]; omega)]
  simp only [hlen, hcrc, hpayload]
  rw [if_neg (by simp), if_neg (by simp), rt.fromSlice_toVec]
  simp

/-- A proper nonempty prefix of a frame is torn: the header is short, or the
payload is. -/
theorem decodeFrame_torn {ev : WireEvent} (hfits : FrameFits rt ev) {torn : List UInt8}
    (hpre : torn <+: frameBytes rt ev) (hnil : torn ≠ []) (hne : torn ≠ frameBytes rt ev) :
    decodeFrame rt torn = .error .torn := by
  have hshort : torn.length < headerLen + (rt.toVec ev).length := by
    rw [← length_frameBytes]
    exact lt_of_le_of_ne hpre.length_le fun h => hne (hpre.eq_of_length h)
  obtain ⟨rest, hrest⟩ := hpre
  unfold decodeFrame
  rw [if_neg hnil]
  by_cases hheader : torn.length < headerLen
  · rw [if_pos hheader]
  · rw [if_neg hheader]
    have hlen : fromLeBytes torn = (rt.toVec ev).length := by
      have hfour : torn = toLeBytes (rt.toVec ev).length ++ torn.drop 4 := by
        have htake := congrArg (List.take 4) hrest
        rw [List.take_append_of_le_length (by simp [headerLen] at hheader; omega), frameBytes,
          List.append_assoc, List.take_left' (length_toLeBytes _)] at htake
        rw [← htake, List.take_append_drop]
      rw [hfour]
      exact fromLeBytes_toLeBytes_append hfits _
    simp only [hlen]
    rw [if_pos hshort]

theorem fromLeBytes_append {buf : List UInt8} (hlen : 4 ≤ buf.length) (rest : List UInt8) :
    fromLeBytes (buf ++ rest) = fromLeBytes buf := by
  match buf, hlen with
  | b0 :: b1 :: b2 :: b3 :: more, _ => rfl

/-- What follows a frame does not change how it decodes. -/
theorem decodeFrame_append {buf : List UInt8} {ev : WireEvent} {used : ℕ}
    (hdecode : decodeFrame rt buf = .ok (some (ev, used))) (rest : List UInt8) :
    decodeFrame rt (buf ++ rest) = .ok (some (ev, used)) := by
  unfold decodeFrame at hdecode
  split at hdecode
  · simp at hdecode
  next hne =>
  split at hdecode
  · simp at hdecode
  next hheader =>
  dsimp only at hdecode
  split at hdecode
  · simp at hdecode
  next hpayload =>
  have hlen : 8 ≤ buf.length := by
    simp only [headerLen] at hheader
    omega
  have hfour : 4 ≤ buf.length := by omega
  have hsize := fromLeBytes_append hfour rest
  have hcrc : fromLeBytes ((buf ++ rest).drop 4) = fromLeBytes (buf.drop 4) := by
    rw [List.drop_append_of_le_length (by omega)]
    exact fromLeBytes_append (by rw [List.length_drop]; omega) rest
  have hbytes : ((buf ++ rest).drop headerLen).take (fromLeBytes buf) =
      (buf.drop headerLen).take (fromLeBytes buf) := by
    rw [List.drop_append_of_le_length (by simpa [headerLen] using hlen),
      List.take_append_of_le_length (by rw [List.length_drop]; omega)]
  unfold decodeFrame
  rw [if_neg (by simp [hne]), if_neg (by rw [List.length_append]; omega)]
  simp only [hsize, hcrc, hbytes]
  rw [if_neg (by rw [List.length_append]; omega)]
  exact hdecode

/-- The frame decoder as the scanning library sees it. -/
def frameDecoder : Decoder WireEvent UInt8 FrameError where
  decode := decodeFrame rt
  decode_nil := by simp [decodeFrame]
  nil_of_decode_none := eq_nil_of_decodeFrame_none rt
  consumed h := by
    have := decodeFrame_consumed rt h
    simp only [headerLen] at this
    omega
  decode_append := decodeFrame_append rt

@[simp]
theorem frameDecoder_decode (buf : List UInt8) :
    (frameDecoder rt).decode buf = decodeFrame rt buf := rfl

theorem frameBytes_encodes : Encodes (frameDecoder rt) (frameBytes rt) (FrameFits rt) where
  decode_enc _ hfits rest := decodeFrame_frameBytes_append rt hfits rest
  decode_torn _ hfits _ hpre hnil hne :=
    ⟨.torn, decodeFrame_torn rt hfits hpre hnil hne⟩

end Talea.Log
