import Talea.Lib.ExceptFold
import Talea.Lib.Int64

/-!
# Decimal numerals

Strings of decimal digits and the numbers they stand for.  A number is printed
without superfluous zeros in front; a string of digits is read back digit by
digit, with a check of the machine range at every step; a numeral with a
fractional part stands for a rational number, and its text determines it.
-/

namespace Talea.Decimal

/-- Nothing but decimal digits. -/
def Digits (text : List Char) : Prop :=
  ∀ c ∈ text, c.isDigit

/-- The number a string of digits stands for. -/
def digitsValue (text : List Char) : ℕ :=
  Nat.ofDigitChars 10 text 0

/-! ## Strings of digits -/

theorem Digits.append {left right : List Char} (hleft : Digits left) (hright : Digits right) :
    Digits (left ++ right) := fun c hmem =>
  (List.mem_append.1 hmem).elim (hleft c) (hright c)

theorem Digits.subset {part text : List Char} (hdigits : Digits text) (hsubset : part ⊆ text) :
    Digits part := fun c hmem => hdigits c (hsubset hmem)

theorem digits_toDigits (number : ℕ) : Digits (Nat.toDigits 10 number) := fun _ hmem =>
  Nat.isDigit_of_mem_toDigits (by decide) (by decide) hmem

theorem digits_replicate_zero (count : ℕ) : Digits (List.replicate count '0') := fun c hmem => by
  rw [List.eq_of_mem_replicate hmem]
  rfl

/-- What is no digit does not occur in a string of digits. -/
theorem Digits.not_mem {text : List Char} (hdigits : Digits text) {c : Char}
    (hc : c.isDigit = false) : c ∉ text := fun hmem => by
  have hdigit := hdigits c hmem
  rw [hc] at hdigit
  cases hdigit

theorem digitsValue_toDigits (number : ℕ) : digitsValue (Nat.toDigits 10 number) = number :=
  Nat.ofDigitChars_ten_toDigits

theorem digitsValue_append (left right : List Char) :
    digitsValue (left ++ right) = 10 ^ right.length * digitsValue left + digitsValue right := by
  unfold digitsValue
  rw [Nat.ofDigitChars_append, Nat.ofDigitChars_eq_ofDigitChars_zero]

theorem digitsValue_cons (c : Char) (text : List Char) :
    digitsValue (c :: text) = 10 ^ text.length * (c.toNat - '0'.toNat) + digitsValue text := by
  unfold digitsValue
  rw [Nat.ofDigitChars_cons, Nat.ofDigitChars_eq_ofDigitChars_zero, Nat.mul_zero, Nat.zero_add]

theorem digitsValue_replicate_append (count : ℕ) (text : List Char) :
    digitsValue (List.replicate count '0' ++ text) = digitsValue text := by
  have hzeros : digitsValue (List.replicate count '0') = 0 := Nat.ofDigitChars_replicate_zero
  rw [digitsValue_append, hzeros, Nat.mul_zero, Nat.zero_add]

theorem digit_bounds {c : Char} (hc : c.isDigit) :
    c = Char.ofNat ('0'.toNat + (c.toNat - '0'.toNat)) ∧ c.toNat - '0'.toNat < 10 := by
  have hrange : '0'.toNat ≤ c.toNat ∧ c.toNat ≤ '9'.toNat := by
    unfold Char.isDigit at hc
    simp only [ge_iff_le, Bool.and_eq_true, decide_eq_true_eq] at hc
    exact hc
  have hzero : '0'.toNat = 48 := rfl
  have hnine : '9'.toNat = 57 := rfl
  refine ⟨?_, by omega⟩
  rw [Nat.add_sub_cancel' hrange.1, Char.ofNat_toNat]

theorem digitsValue_lt {text : List Char} (hdigits : Digits text) :
    digitsValue text < 10 ^ text.length := by
  induction text with
  | nil => exact Nat.one_pos
  | cons c text ih =>
      have hrest := ih fun other hmem => hdigits other (List.mem_cons_of_mem _ hmem)
      have hc := (digit_bounds (hdigits c List.mem_cons_self)).2
      have hstep : 10 ^ text.length * (c.toNat - '0'.toNat) ≤ 10 ^ text.length * 9 :=
        Nat.mul_le_mul_left _ (Nat.le_of_lt_succ hc)
      rw [digitsValue_cons, List.length_cons, pow_succ]
      omega

/-- Two strings of as many digits with one value are one string. -/
theorem digitsValue_injective {left right : List Char} (hleft : Digits left)
    (hright : Digits right) (hlength : left.length = right.length)
    (hvalue : digitsValue left = digitsValue right) : left = right := by
  induction left generalizing right with
  | nil => exact (List.length_eq_zero_iff.1 hlength.symm).symm
  | cons c left ih =>
      cases right with
      | nil => cases hlength
      | cons d right =>
          have hlengths : left.length = right.length := Nat.succ.inj hlength
          have hlefts : Digits left := fun other hmem => hleft other (List.mem_cons_of_mem _ hmem)
          have hrights : Digits right := fun other hmem =>
            hright other (List.mem_cons_of_mem _ hmem)
          have hsmall := digitsValue_lt hlefts
          have hsmaller := digitsValue_lt hrights
          obtain ⟨hc, -⟩ := digit_bounds (hleft c List.mem_cons_self)
          obtain ⟨hd, -⟩ := digit_bounds (hright d List.mem_cons_self)
          rw [digitsValue_cons, digitsValue_cons, hlengths] at hvalue
          rw [hlengths] at hsmall
          -- the leading digit is the quotient, the rest the remainder
          have hquot := congrArg (· / 10 ^ right.length) hvalue
          have hmod := congrArg (· % 10 ^ right.length) hvalue
          simp only [Nat.mul_add_mod, Nat.mod_eq_of_lt hsmall, Nat.mod_eq_of_lt hsmaller] at hmod
          simp only [Nat.mul_add_div (Nat.pow_pos (n := right.length) (Nat.succ_pos 9)),
            Nat.div_eq_of_lt hsmall, Nat.div_eq_of_lt hsmaller, Nat.add_zero] at hquot
          rw [hc, hd, hquot, ih hlefts hrights hlengths hmod]

/-- A printed number has no superfluous zero in front. -/
theorem head?_toDigits {number : ℕ} (hhead : (Nat.toDigits 10 number).head? = some '0') :
    Nat.toDigits 10 number = ['0'] := by
  induction number using Nat.strong_induction_on with
  | _ number ih =>
      by_cases hsmall : number < 10
      · rw [Nat.toDigits_of_lt_base hsmall] at hhead ⊢
        exact congrArg (fun c => [c]) (Option.some.inj hhead)
      · have hlarge : 10 ≤ number := Nat.le_of_not_lt hsmall
        rw [Nat.toDigits_of_base_le (by decide) hlarge,
          List.head?_append_of_ne_nil _ Nat.toDigits_ne_nil] at hhead
        -- the quotient is positive, and its numeral would be that of zero
        have hzero := ih _ (Nat.div_lt_self (by omega) (by decide)) hhead
        have hvalue := congrArg digitsValue hzero
        rw [digitsValue_toDigits] at hvalue
        have hnone : digitsValue ['0'] = 0 := rfl
        omega

/-- How an integer is printed. -/
theorem toString_int (minor : Int) :
    toString minor = String.ofList ((if minor < 0 then ['-'] else []) ++
      Nat.toDigits 10 minor.natAbs) := by
  cases minor with
  | ofNat number =>
      have hsign : ¬ Int.ofNat number < 0 := Int.not_lt.2 (Int.natCast_nonneg number)
      rw [if_neg hsign]
      rfl
  | negSucc number =>
      rw [if_pos (Int.negSucc_lt_zero number), String.ofList_append]
      rfl

/-! ## Numerals with a fractional part -/

/-- A sign, at least one digit without superfluous zeros in front, and the
digits behind the point. -/
structure Numeral where
  negative : Bool
  whole : List Char
  frac : List Char
  whole_ne_nil : whole ≠ []
  whole_digits : Digits whole
  whole_lead : whole.head? = some '0' → whole = ['0']
  frac_digits : Digits frac

namespace Numeral

/-- The text of a numeral; there is no point without digits behind it. -/
def text (numeral : Numeral) : String :=
  String.ofList ((if numeral.negative then ['-'] else []) ++ numeral.whole ++
    if numeral.frac = [] then [] else '.' :: numeral.frac)

/-- The number a numeral stands for. -/
def value (numeral : Numeral) : ℚ :=
  (if numeral.negative then -1 else 1) * digitsValue (numeral.whole ++ numeral.frac) /
    10 ^ numeral.frac.length

/-- What stands in front of the first character that is no digit. -/
theorem digits_split {digits other rest tail : List Char} (hdigits : Digits digits)
    (hother : Digits other) (hrest : ∀ c ∈ rest.head?, c.isDigit = false)
    (htail : ∀ c ∈ tail.head?, c.isDigit = false) (heq : digits ++ rest = other ++ tail) :
    digits = other ∧ rest = tail := by
  have htake : ∀ {word more : List Char}, Digits word →
      (∀ c ∈ more.head?, c.isDigit = false) → (word ++ more).takeWhile Char.isDigit = word := by
    intro word more hword hmore
    rw [List.takeWhile_append_of_pos hword]
    cases more with
    | nil => rw [List.takeWhile_nil, List.append_nil]
    | cons c more =>
        have hc : ¬ c.isDigit := by simp [hmore c rfl]
        rw [List.takeWhile_cons_of_neg hc, List.append_nil]
  have hsame : digits = other := by
    rw [← htake hdigits hrest, heq, htake hother htail]
  exact ⟨hsame, List.append_cancel_left (hsame ▸ heq)⟩

/-- The text says what the numeral is. -/
theorem text_injective : Function.Injective text := by
  intro left right htext
  obtain ⟨lneg, lwhole, lfrac, lne, ldigits, llead, lfracs⟩ := left
  obtain ⟨rneg, rwhole, rfrac, rne, rdigits, rlead, rfracs⟩ := right
  have hlist := String.ofList_inj.1 htext
  dsimp only at hlist
  -- a text without the sign begins with a digit
  have hbegins : ∀ {whole rest other : List Char}, whole ≠ [] → Digits whole →
      whole ++ rest ≠ '-' :: other := by
    intro whole rest other hne hdigits heq
    cases whole with
    | nil => exact hne rfl
    | cons c whole =>
        have hdigit := hdigits c List.mem_cons_self
        rw [(List.cons.inj heq).1] at hdigit
        cases hdigit
  have hpoint : ∀ frac : List Char,
      ∀ c ∈ (if frac = [] then [] else '.' :: frac : List Char).head?, c.isDigit = false := by
    intro frac c hc
    split at hc
    · cases hc
    · cases hc
      rfl
  have hparts : lneg = rneg ∧ lwhole ++ (if lfrac = [] then [] else '.' :: lfrac) =
      rwhole ++ (if rfrac = [] then [] else '.' :: rfrac) := by
    cases lneg <;> cases rneg <;>
      simp only [if_true, if_false, Bool.false_eq_true, List.nil_append, List.cons_append] at hlist
    · exact ⟨rfl, hlist⟩
    · exact absurd hlist (hbegins lne ldigits)
    · exact absurd hlist.symm (hbegins rne rdigits)
    · exact ⟨rfl, (List.cons.inj hlist).2⟩
  obtain ⟨rfl, hrest⟩ := hparts
  obtain ⟨rfl, hfrac⟩ := digits_split ldigits rdigits (hpoint lfrac) (hpoint rfrac) hrest
  have hsame : lfrac = rfrac := by
    by_cases hl : lfrac = [] <;> by_cases hr : rfrac = [] <;> simp_all
  subst hsame
  rfl

end Numeral

/-! ## Machine integers -/

/-- The integers that a literal with an optional sign stands for. -/
inductive IsLiteral : List Char → Int → Prop
  | unsigned {digits : List Char} (hne : digits ≠ []) (hdigits : Digits digits) :
      IsLiteral digits (digitsValue digits)
  | plus {digits : List Char} (hne : digits ≠ []) (hdigits : Digits digits) :
      IsLiteral ('+' :: digits) (digitsValue digits)
  | minus {digits : List Char} (hne : digits ≠ []) (hdigits : Digits digits) :
      IsLiteral ('-' :: digits) (-digitsValue digits)

/-- Why a text is no machine integer. -/
inductive IntErrorKind
  | empty
  | invalidDigit
  | posOverflow
  | negOverflow
  deriving DecidableEq

def IntErrorKind.text : IntErrorKind → String
  | empty => "cannot parse integer from empty string"
  | invalidDigit => "invalid digit found in string"
  | posOverflow => "number too large to fit in target type"
  | negOverflow => "number too small to fit in target type"

/-- One more digit: away from zero, with checks of the multiplication and of the
addition. -/
def accumulate (negative : Bool) (value : Int) (c : Char) : Except IntErrorKind Int :=
  let overflow := if negative then IntErrorKind.negOverflow else .posOverflow
  if c.isDigit then
    match I64.checked (value * 10) with
    | none => .error overflow
    | some scaled =>
        let digit : Int := (c.toNat - '0'.toNat : ℕ)
        match I64.checked (if negative then scaled - digit else scaled + digit) with
        | none => .error overflow
        | some next => .ok next
  else .error .invalidDigit

/-- Parse an `i64`: an optional sign, then digits. -/
def parseI64 (text : List Char) : Except IntErrorKind Int :=
  match text with
  | [] => .error .empty
  | ['+'] => .error .invalidDigit
  | ['-'] => .error .invalidDigit
  | '+' :: digits => digits.foldlM (accumulate false) 0
  | '-' :: digits => digits.foldlM (accumulate true) 0
  | digits => digits.foldlM (accumulate false) 0

section Parse

variable {negative : Bool}

/-- The integer of a sign and a natural number. -/
def signed (negative : Bool) (number : ℕ) : Int :=
  if negative then -number else number

theorem accumulate_eq_ok {number : ℕ} {c : Char} {next : Int} :
    accumulate negative (signed negative number) c = .ok next ↔
      c.isDigit ∧ next = signed negative (10 * number + (c.toNat - '0'.toNat)) ∧
        I64.InRange next := by
  unfold accumulate
  dsimp only
  by_cases hc : c.isDigit
  swap
  · rw [if_neg hc]
    exact ⟨nofun, fun ⟨hdigit, _⟩ => absurd hdigit hc⟩
  rw [if_pos hc]
  generalize c.toNat - '0'.toNat = digit
  have hnext : (if negative then signed negative number * 10 - (digit : Int)
      else signed negative number * 10 + digit) = signed negative (10 * number + digit) := by
    cases negative <;> simp only [signed, if_true, if_false, Bool.false_eq_true] <;> omega
  -- the product is nearer to zero than the sum
  have hnearer : I64.InRange (signed negative (10 * number + digit)) →
      I64.InRange (signed negative number * 10) := by
    unfold I64.InRange
    cases negative <;> simp only [signed, if_true, if_false, Bool.false_eq_true] <;> omega
  cases hmul : I64.checked (signed negative number * 10) with
  | none =>
      refine ⟨nofun, fun ⟨_, hvalue, hrange⟩ => ?_⟩
      exact absurd (hnearer (hvalue ▸ hrange)) (I64.checked_eq_none.1 hmul)
  | some scaled =>
      obtain ⟨-, rfl⟩ := I64.checked_eq_some.1 hmul
      dsimp only
      rw [hnext]
      cases hadd : I64.checked (signed negative (10 * number + digit)) with
      | none =>
          refine ⟨nofun, fun ⟨_, hvalue, hrange⟩ => ?_⟩
          exact absurd (hvalue ▸ hrange) (I64.checked_eq_none.1 hadd)
      | some value =>
          obtain ⟨hrange, rfl⟩ := I64.checked_eq_some.1 hadd
          constructor
          · intro hok
            cases hok
            exact ⟨hc, rfl, hrange⟩
          · rintro ⟨-, rfl, -⟩
            rfl

/-- Digits are read as the number they stand for, if that fits. -/
theorem foldlM_accumulate_eq_ok {digits : List Char} {number : ℕ}
    (hrange : I64.InRange (signed negative number)) {value : Int} :
    digits.foldlM (accumulate negative) (signed negative number) = .ok value ↔
      Digits digits ∧ value = signed negative (Nat.ofDigitChars 10 digits number) ∧
        I64.InRange value := by
  induction digits generalizing number with
  | nil =>
      rw [List.foldlM_nil, Nat.ofDigitChars_nil]
      constructor
      · intro hok
        cases hok
        exact ⟨List.forall_mem_nil _, rfl, hrange⟩
      · rintro ⟨-, rfl, -⟩
        rfl
  | cons c digits ih =>
      rw [List.foldlM_cons, Except.bind_eq_ok, Nat.ofDigitChars_cons]
      constructor
      · rintro ⟨next, hstep, hrest⟩
        obtain ⟨hc, rfl, hnext⟩ := accumulate_eq_ok.1 hstep
        obtain ⟨hdigits, hvalue, hin⟩ := (ih hnext).1 hrest
        exact ⟨List.forall_mem_cons.2 ⟨hc, hdigits⟩, hvalue, hin⟩
      · rintro ⟨hdigits, hvalue, hin⟩
        obtain ⟨hc, hrest⟩ := List.forall_mem_cons.1 hdigits
        -- what is read so far is no larger than the whole
        have hsmaller : 10 * number + (c.toNat - '0'.toNat) ≤
            Nat.ofDigitChars 10 digits (10 * number + (c.toNat - '0'.toNat)) := by
          rw [Nat.ofDigitChars_eq_ofDigitChars_zero]
          exact (Nat.le_mul_of_pos_left _ (by positivity)).trans (Nat.le_add_right _ _)
        have hnext : I64.InRange (signed negative (10 * number + (c.toNat - '0'.toNat))) := by
          rw [hvalue] at hin
          unfold I64.InRange at hin ⊢
          cases negative <;>
            simp only [signed, if_true, if_false, Bool.false_eq_true] at hin ⊢ <;> omega
        exact ⟨_, accumulate_eq_ok.2 ⟨hc, rfl, hnext⟩, (ih hnext).2 ⟨hrest, hvalue, hin⟩⟩

/-- A text is parsed exactly when it is a literal of a number that fits. -/
theorem parseI64_eq_ok {text : List Char} {value : Int} :
    parseI64 text = .ok value ↔ IsLiteral text value ∧ I64.InRange value := by
  have hfold : ∀ negative {digits : List Char},
      digits.foldlM (accumulate negative) 0 = .ok value ↔
        Digits digits ∧ value = signed negative (digitsValue digits) ∧ I64.InRange value := by
    intro negative digits
    have hzero : signed negative 0 = 0 := by cases negative <;> rfl
    have hstart : I64.InRange (signed negative 0) := hzero ▸ I64.inRange_zero
    have hiff : digits.foldlM (accumulate negative) (signed negative 0) = .ok value ↔
        Digits digits ∧ value = signed negative (Nat.ofDigitChars 10 digits 0) ∧
          I64.InRange value := foldlM_accumulate_eq_ok hstart
    rwa [hzero] at hiff
  have hplus : Char.isDigit '+' = false := rfl
  have hminus : Char.isDigit '-' = false := rfl
  constructor
  · intro hok
    unfold parseI64 at hok
    split at hok
    · cases hok
    · cases hok
    · cases hok
    · next digits hne =>
        obtain ⟨hdigits, rfl, hrange⟩ := (hfold false).1 hok
        exact ⟨.plus (fun hnil => hne (hnil ▸ rfl)) hdigits, hrange⟩
    · next digits hne =>
        obtain ⟨hdigits, rfl, hrange⟩ := (hfold true).1 hok
        exact ⟨.minus (fun hnil => hne (hnil ▸ rfl)) hdigits, hrange⟩
    · next hne _ _ _ _ =>
        obtain ⟨hdigits, rfl, hrange⟩ := (hfold false).1 hok
        exact ⟨.unsigned hne hdigits, hrange⟩
  · rintro ⟨hliteral, hrange⟩
    cases hliteral with
    | unsigned hne hdigits =>
        have hfirst := (hfold false).2 ⟨hdigits, rfl, hrange⟩
        unfold parseI64
        split
        · exact absurd rfl hne
        · exact absurd (List.mem_cons_self) (hdigits.not_mem hplus)
        · exact absurd (List.mem_cons_self) (hdigits.not_mem hminus)
        · exact absurd (List.mem_cons_self) (hdigits.not_mem hplus)
        · exact absurd (List.mem_cons_self) (hdigits.not_mem hminus)
        · exact hfirst
    | @plus digits hne hdigits =>
        cases digits with
        | nil => exact absurd rfl hne
        | cons c rest => exact (hfold false).2 ⟨hdigits, rfl, hrange⟩
    | @minus digits hne hdigits =>
        cases digits with
        | nil => exact absurd rfl hne
        | cons c rest => exact (hfold true).2 ⟨hdigits, rfl, hrange⟩

end Parse

/-- A printed integer is a literal of it. -/
theorem isLiteral_toString (value : Int) : IsLiteral (toString value).toList value := by
  have hliteral := digits_toDigits value.natAbs
  rw [toString_int, String.toList_ofList]
  by_cases hneg : value < 0
  · have hminus := IsLiteral.minus Nat.toDigits_ne_nil hliteral
    rw [digitsValue_toDigits, Int.ofNat_natAbs_of_nonpos hneg.le, neg_neg] at hminus
    rw [if_pos hneg]
    exact hminus
  · have hunsigned := IsLiteral.unsigned Nat.toDigits_ne_nil hliteral
    rw [digitsValue_toDigits, Int.natAbs_of_nonneg (Int.not_lt.1 hneg)] at hunsigned
    rw [if_neg hneg]
    exact hunsigned

theorem IsLiteral.not_mem {text : List Char} {value : Int} (hliteral : IsLiteral text value)
    {c : Char} (hc : c.isDigit = false) (hplus : c ≠ '+') (hminus : c ≠ '-') : c ∉ text := by
  cases hliteral with
  | unsigned hne hdigits => exact hdigits.not_mem hc
  | plus hne hdigits => exact List.not_mem_cons_of_ne_of_not_mem hplus (hdigits.not_mem hc)
  | minus hne hdigits => exact List.not_mem_cons_of_ne_of_not_mem hminus (hdigits.not_mem hc)

theorem IsLiteral.ne_nil {text : List Char} {value : Int} (hliteral : IsLiteral text value) :
    text ≠ [] := by
  cases hliteral with
  | unsigned hne hdigits => exact hne
  | plus hne hdigits => exact List.cons_ne_nil _ _
  | minus hne hdigits => exact List.cons_ne_nil _ _

end Talea.Decimal
