import Talea.Lib.Decimal

/-!
# Minor units as text

Minor units are rendered by cutting or padding their decimal digits, so that no
power of ten is computed.  The text is the one numeral that stands for the
amount and has as many digits behind the point as the asset's precision says.
-/

namespace Talea

open Decimal

/-- Render minor units as a decimal string using the asset's precision. -/
def formatMinor (minor : Int) (precision : UInt8) : String :=
  let precision := precision.toNat
  if precision = 0 then toString minor
  else
    let sign := if minor < 0 then "-" else ""
    let digits := (toString minor.natAbs).toList
    if digits.length > precision then
      let (whole, frac) := digits.splitAt (digits.length - precision)
      sign ++ String.ofList whole ++ "." ++ String.ofList frac
    else
      sign ++ "0." ++ String.ofList (digits.leftpad precision '0')

example : formatMinor (-5) 8 = "-0.00000005" := by
  decide +kernel

/-- The numeral of minor units with at least one digit before the point. -/
def splitNumeral (minor : Int) (precision : ℕ)
    (hlong : precision < (Nat.toDigits 10 minor.natAbs).length) : Numeral where
  negative := decide (minor < 0)
  whole := (Nat.toDigits 10 minor.natAbs).take
    ((Nat.toDigits 10 minor.natAbs).length - precision)
  frac := (Nat.toDigits 10 minor.natAbs).drop
    ((Nat.toDigits 10 minor.natAbs).length - precision)
  whole_ne_nil hnil := by
    have hlength := congrArg List.length hnil
    rw [List.length_take, List.length_nil] at hlength
    omega
  whole_digits := (digits_toDigits _).subset (List.take_subset _ _)
  whole_lead hlead := by
    rw [List.head?_take, if_neg (by omega)] at hlead
    have hzero := head?_toDigits hlead
    rw [hzero] at hlong ⊢
    rw [Nat.lt_one_iff.1 hlong]
    rfl
  frac_digits := (digits_toDigits _).subset (List.drop_subset _ _)

/-- The numeral of minor units that are all behind the point. -/
def paddedNumeral (minor : Int) (precision : ℕ) : Numeral where
  negative := decide (minor < 0)
  whole := ['0']
  frac := (Nat.toDigits 10 minor.natAbs).leftpad precision '0'
  whole_ne_nil := List.cons_ne_nil _ _
  whole_digits := digits_replicate_zero 1
  whole_lead _ := rfl
  frac_digits := (digits_replicate_zero _).append (digits_toDigits _)

theorem sign_mul_natAbs (minor : Int) :
    (if decide (minor < 0) then -1 else 1 : ℚ) * (minor.natAbs : ℕ) = minor := by
  have hint : (if minor < 0 then -1 else 1 : Int) * (minor.natAbs : ℕ) = minor := by
    split <;> omega
  calc (if decide (minor < 0) then -1 else 1 : ℚ) * (minor.natAbs : ℕ)
      = ((if minor < 0 then -1 else 1 : Int) * (minor.natAbs : ℕ) : Int) := by
        by_cases hneg : minor < 0 <;> simp [hneg]
    _ = minor := by rw [hint]

/-- What is rendered is a numeral of the precision, and that of the amount. -/
theorem formatMinor_numeral (minor : Int) (precision : UInt8) :
    ∃ numeral : Numeral, formatMinor minor precision = numeral.text ∧
      numeral.frac.length = precision.toNat ∧ numeral.negative = decide (minor < 0) ∧
      digitsValue (numeral.whole ++ numeral.frac) = minor.natAbs := by
  unfold formatMinor
  dsimp only
  generalize precision.toNat = precision
  have hdigits : (toString minor.natAbs).toList = Nat.toDigits 10 minor.natAbs := Nat.toList_repr
  rw [hdigits]
  have hsign : (if minor < 0 then "-" else "" : String) =
      String.ofList (if minor < 0 then ['-'] else []) := by
    split <;> rfl
  rw [hsign]
  by_cases hzero : precision = 0
  · subst hzero
    have hlong : 0 < (Nat.toDigits 10 minor.natAbs).length := Nat.length_toDigits_pos
    refine ⟨splitNumeral minor 0 hlong, ?_, ?_, rfl, ?_⟩
    · rw [if_pos rfl, toString_int]
      simp [Numeral.text, splitNumeral]
    · simp [splitNumeral]
    · simp [splitNumeral, digitsValue_toDigits]
  rw [if_neg hzero]
  by_cases hlong : precision < (Nat.toDigits 10 minor.natAbs).length
  · have hfrac : (splitNumeral minor precision hlong).frac.length = precision := by
      rw [splitNumeral, List.length_drop]
      omega
    have hne : (splitNumeral minor precision hlong).frac ≠ [] := fun hnil => by
      rw [hnil] at hfrac
      exact hzero hfrac.symm
    refine ⟨splitNumeral minor precision hlong, ?_, hfrac, rfl, ?_⟩
    · rw [if_pos hlong, List.splitAt_eq, Numeral.text, if_neg hne]
      exact String.toList_inj.1 (by simp [splitNumeral])
    · rw [splitNumeral, List.take_append_drop, digitsValue_toDigits]
  · have hfrac : (paddedNumeral minor precision).frac.length = precision := by
      rw [paddedNumeral, List.length_leftpad]
      omega
    have hne : (paddedNumeral minor precision).frac ≠ [] := fun hnil => by
      rw [hnil] at hfrac
      exact hzero hfrac.symm
    refine ⟨paddedNumeral minor precision, ?_, hfrac, rfl, ?_⟩
    · rw [if_neg hlong, Numeral.text, if_neg hne]
      exact String.toList_inj.1 (by simp [paddedNumeral])
    · have hzeros := digitsValue_replicate_append (1 + (precision -
        (Nat.toDigits 10 minor.natAbs).length)) (Nat.toDigits 10 minor.natAbs)
      rw [digitsValue_toDigits, List.replicate_add, List.append_assoc] at hzeros
      exact hzeros

/-- For every amount and precision the text is that of exactly one numeral: a
sign for negative amounts, at least one digit without superfluous zeros before
the point, as many digits behind it as the precision says and no point for
none.  It stands for the amount, so no two amounts share a text. -/
theorem formatMinor_exact (precision : UInt8) :
    (∀ minor : Int, ∃ numeral : Numeral, formatMinor minor precision = numeral.text ∧
        (∀ other : Numeral, formatMinor minor precision = other.text → other = numeral) ∧
        numeral.frac.length = precision.toNat ∧ (numeral.negative = true ↔ minor < 0) ∧
        numeral.value = minor / 10 ^ precision.toNat) ∧
      Function.Injective fun minor => formatMinor minor precision := by
  have hvalue : ∀ (minor : Int) (numeral : Numeral), numeral.frac.length = precision.toNat →
      numeral.negative = decide (minor < 0) →
      digitsValue (numeral.whole ++ numeral.frac) = minor.natAbs →
      numeral.value = minor / 10 ^ precision.toNat := by
    intro minor numeral hfrac hneg hdigits
    rw [Numeral.value, hfrac, hneg, hdigits, sign_mul_natAbs]
  constructor
  · intro minor
    obtain ⟨numeral, htext, hfrac, hneg, hdigits⟩ := formatMinor_numeral minor precision
    refine ⟨numeral, htext, fun other hother => Numeral.text_injective ?_, hfrac, ?_,
      hvalue minor numeral hfrac hneg hdigits⟩
    · rw [← hother, htext]
    · rw [hneg, decide_eq_true_iff]
  · intro left right hsame
    obtain ⟨numeral, htext, hfrac, hneg, hdigits⟩ := formatMinor_numeral left precision
    obtain ⟨other, hother, hfrac', hneg', hdigits'⟩ := formatMinor_numeral right precision
    have hnumerals : numeral = other :=
      Numeral.text_injective (htext.symm.trans (hsame.trans hother))
    have hleft := hvalue left numeral hfrac hneg hdigits
    rw [hnumerals, hvalue right other hfrac' hneg' hdigits'] at hleft
    have hpow : (10 : ℚ) ^ precision.toNat ≠ 0 := by positivity
    exact_mod_cast ((div_left_inj' hpow).1 hleft).symm

end Talea
