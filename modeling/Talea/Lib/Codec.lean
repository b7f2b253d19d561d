import Mathlib

/-!
# Self-delimiting codes

A code of a type writes its values as bytes that say where they end: reading
the bytes of a value with anything behind them returns the value and what was
behind.  Codes of compound types are put together from codes of their parts.
-/

namespace Talea

structure Codec (α : Type) where
  encode : α → List UInt8
  decode : List UInt8 → Option (α × List UInt8)
  decode_encode : ∀ value rest, decode (encode value ++ rest) = some (value, rest)

namespace Codec

variable {α β : Type}

/-! ## Numbers -/

/-- Every byte 255 counts 255 and goes on; the first other byte ends the
number. -/
def encodeNat (value : ℕ) : List UInt8 :=
  List.replicate (value / 255) 255 ++ [UInt8.ofNat (value % 255)]

def decodeNat : List UInt8 → Option (ℕ × List UInt8)
  | [] => none
  | byte :: rest =>
      if byte = 255 then (decodeNat rest).map fun (value, rest) => (value + 255, rest)
      else some (byte.toNat, rest)

theorem decodeNat_encodeNat (value : ℕ) (rest : List UInt8) :
    decodeNat (encodeNat value ++ rest) = some (value, rest) := by
  have hlast : value % 255 < 255 := Nat.mod_lt _ (by norm_num)
  have hdigit : UInt8.ofNat (value % 255) ≠ 255 := by
    intro heq
    have hnat := congrArg UInt8.toNat heq
    rw [UInt8.toNat_ofNat', Nat.mod_eq_of_lt (by omega)] at hnat
    exact hlast.ne hnat
  have hcount : ∀ count : ℕ,
      decodeNat (List.replicate count 255 ++ UInt8.ofNat (value % 255) :: rest) =
        some (value % 255 + 255 * count, rest) := by
    intro count
    induction count with
    | zero =>
        simp only [List.replicate_zero, List.nil_append, decodeNat, if_neg hdigit,
          UInt8.toNat_ofNat', Nat.mul_zero, Nat.add_zero]
        rw [Nat.mod_eq_of_lt (a := value % 255) (by omega)]
    | succ count ih =>
        simp only [List.replicate_succ, List.cons_append, decodeNat, if_true, ih, Option.map_some]
        rw [Nat.mul_succ, Nat.add_assoc]
  rw [encodeNat, List.append_assoc, List.singleton_append, hcount, Nat.mod_add_div]

def nat : Codec ℕ :=
  ⟨encodeNat, decodeNat, decodeNat_encodeNat⟩

/-! ## Compound types -/

/-- A type whose values are values of another one, up to reading them back. -/
def retract (code : Codec α) (give : β → α) (take : α → Option β)
    (htake : ∀ value, take (give value) = some value) : Codec β where
  encode value := code.encode (give value)
  decode bytes := (code.decode bytes).bind fun (value, rest) =>
    (take value).map fun value => (value, rest)
  decode_encode value rest := by simp [code.decode_encode, htake]

def prod (left : Codec α) (right : Codec β) : Codec (α × β) where
  encode value := left.encode value.1 ++ right.encode value.2
  decode bytes := (left.decode bytes).bind fun (first, bytes) =>
    (right.decode bytes).map fun (second, rest) => ((first, second), rest)
  decode_encode value rest := by
    simp [List.append_assoc, left.decode_encode, right.decode_encode]

/-- The first byte tells the two sides of a sum apart. -/
def sum (left : Codec α) (right : Codec β) : Codec (α ⊕ β) where
  encode
    | .inl value => 0 :: left.encode value
    | .inr value => 1 :: right.encode value
  decode
    | [] => none
    | side :: bytes =>
        if side = 0 then (left.decode bytes).map fun (value, rest) => (.inl value, rest)
        else (right.decode bytes).map fun (value, rest) => (.inr value, rest)
  decode_encode value rest := by
    cases value with
    | inl value => simp [left.decode_encode]
    | inr value => simp [right.decode_encode]

/-- A list is its length and its items. -/
def decodeItems (code : Codec α) : ℕ → List UInt8 → Option (List α × List UInt8)
  | 0, bytes => some ([], bytes)
  | count + 1, bytes => (code.decode bytes).bind fun (item, bytes) =>
      (decodeItems code count bytes).map fun (items, rest) => (item :: items, rest)

theorem decodeItems_flatMap (code : Codec α) (items : List α) (rest : List UInt8) :
    decodeItems code items.length (items.flatMap code.encode ++ rest) = some (items, rest) := by
  induction items with
  | nil => rfl
  | cons item items ih => simp [decodeItems, code.decode_encode, ih]

def list (code : Codec α) : Codec (List α) where
  encode items := nat.encode items.length ++ items.flatMap code.encode
  decode bytes := (nat.decode bytes).bind fun (count, bytes) => decodeItems code count bytes
  decode_encode items rest := by
    simp [List.append_assoc, nat.decode_encode, decodeItems_flatMap]

def option (code : Codec α) : Codec (Option α) :=
  (list code).retract Option.toList
    (fun items => match items with
      | [] => some none
      | [value] => some (some value)
      | _ => none)
    (fun value => by cases value <;> rfl)

def int : Codec ℤ :=
  (sum nat nat).retract
    (fun value => match value with
      | .ofNat count => .inl count
      | .negSucc count => .inr count)
    (fun value => some (value.elim Int.ofNat Int.negSucc))
    (fun value => by cases value <;> rfl)

def char : Codec Char :=
  nat.retract Char.toNat (fun value => some (Char.ofNat value))
    (fun value => by simp [Char.ofNat_toNat])

def string : Codec String :=
  (list char).retract String.toList (fun chars => some (String.ofList chars))
    (fun value => by simp)

end Codec

end Talea
