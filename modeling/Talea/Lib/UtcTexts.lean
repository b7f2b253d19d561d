import Talea.Lib.Rfc3339
import Talea.Lib.Decimal

/-!
# Reading instants back

The text of any instant at the offset `Z`, and its reader.  A year outside 0 to
9999 is written with its sign and as many digits as it takes.  The date of a day
determines the day, so the reader inverts the text.
-/

namespace Talea.Rfc3339

open Decimal (Digits digitsValue)

/-! ## Dates and days -/

/-- The day of a date, counted from the start of year 0. -/
def Date.toDay (date : Date) : ℕ :=
  daysBeforeYear date.year + (0 :: monthEnds date.year).getD (date.month - 1) 0 + (date.day - 1)

theorem toDay_dateOf (day : ℕ) : (dateOf day).toDay = day := by
  have hall : ∀ ends ∈ [[31, 60, 91, 121, 152, 182, 213, 244, 274, 305, 335],
      [31, 59, 90, 120, 151, 181, 212, 243, 273, 304, 334]], ∀ ordinal < 366,
      (0 :: ends).getD (ends.filter (· ≤ ordinal)).length 0 +
        (ordinal - (ends.filter (· ≤ ordinal)).getLastD 0) = ordinal := by
    decide +kernel
  have hends : monthEnds (yearOf day) ∈ [[31, 60, 91, 121, 152, 182, 213, 244, 274, 305, 335],
      [31, 59, 90, 120, 151, 181, 212, 243, 273, 304, 334]] := by
    unfold monthEnds
    split <;> simp
  have hordinal := hall _ hends _ (ordinal_lt day)
  have hstart := (yearOf_spec day).1
  unfold Date.toDay dateOf
  dsimp only
  rw [Nat.add_sub_cancel, Nat.add_sub_cancel, Nat.add_assoc, hordinal]
  omega

/-- The days of 400 years. -/
def cycleDays : ℤ := 146097

/-- The date of any day: its cycle of 400 years, and the date within. -/
def cycleOf (day : ℤ) : ℤ :=
  day / cycleDays

def dateInCycle (day : ℤ) : Date :=
  dateOf (day % cycleDays).toNat

theorem day_of_cycle (day : ℤ) :
    cycleOf day * cycleDays + (dateInCycle day).toDay = day := by
  have hpos : (0 : ℤ) < cycleDays := by decide
  have hmod := Int.emod_nonneg day hpos.ne'
  unfold cycleOf dateInCycle
  rw [toDay_dateOf, Int.toNat_of_nonneg hmod]
  exact Int.ediv_mul_add_emod day cycleDays

/-! ## Texts at the offset of UTC -/

/-- A number with at least four digits. -/
def fourDigits (number : ℕ) : List Char :=
  List.replicate (4 - (Nat.toDigits 10 number).length) '0' ++ Nat.toDigits 10 number

def yearText (year : ℤ) : List Char :=
  if 0 ≤ year ∧ year ≤ 9999 then padded 4 year.toNat
  else if year < 0 then '-' :: fourDigits year.natAbs
  else '+' :: fourDigits year.natAbs

/-- The text of an instant in nanoseconds. -/
def utcText (instant : ℤ) : String :=
  let day := dayOf instant
  let date := dateInCycle day
  String.ofList (yearText (400 * cycleOf day + date.year) ++ '-' :: (padded 2 date.month ++
    '-' :: (padded 2 date.day ++ 'T' :: (timeText (secondOf instant) ++
      (fractionText (nanosOf instant) ++ ['Z'])))))

/-! ## Reading -/

/-- A number of just `width` digits at the start of a text. -/
def readPadded (width : ℕ) (text : List Char) : Option (ℕ × List Char) :=
  if (text.take width).length = width ∧ (text.take width).all Char.isDigit then
    some (digitsValue (text.take width), text.drop width)
  else none

def readSign (sign : Char) : List Char → Option (List Char)
  | [] => none
  | c :: rest => if c = sign then some rest else none

/-- The digits at the start of a text. -/
def readDigits (text : List Char) : ℕ × List Char :=
  (digitsValue (text.takeWhile Char.isDigit), text.dropWhile Char.isDigit)

def readYear (text : List Char) : Option (ℤ × List Char) :=
  match text.head? with
  | some '-' =>
      let (number, rest) := readDigits text.tail
      some (-number, rest)
  | some '+' =>
      let (number, rest) := readDigits text.tail
      some (number, rest)
  | _ => (readPadded 4 text).map fun (number, rest) => ((number : ℤ), rest)

/-- The nanoseconds of a fraction. -/
def readFraction (text : List Char) : ℕ × List Char :=
  match text with
  | '.' :: rest =>
      (digitsValue (rest.takeWhile Char.isDigit) * 10 ^ (9 - (rest.takeWhile Char.isDigit).length),
        rest.dropWhile Char.isDigit)
  | _ => (0, text)

/-- The instant of a text at the offset `Z`. -/
def readUtc (text : String) : Option ℤ := do
  let (year, rest) ← readYear text.toList
  let rest ← readSign '-' rest
  let (month, rest) ← readPadded 2 rest
  let rest ← readSign '-' rest
  let (day, rest) ← readPadded 2 rest
  let rest ← readSign 'T' rest
  let (hour, rest) ← readPadded 2 rest
  let rest ← readSign ':' rest
  let (minute, rest) ← readPadded 2 rest
  let rest ← readSign ':' rest
  let (second, rest) ← readPadded 2 rest
  let (nanos, rest) := readFraction rest
  let rest ← readSign 'Z' rest
  let date : Date := ⟨(year % 400).toNat, month, day⟩
  let days := year / 400 * cycleDays + date.toDay - epochDay
  let seconds := days * secondsPerDay + (hour * 3600 + minute * 60 + second : ℕ)
  if rest = [] then some (seconds * nanosPerSecond + nanos) else none

/-! ## Reading what is written -/

theorem digits_padded (width number : ℕ) : Digits (padded width number) := by
  have hdigit : ∀ digit < 10, (Nat.digitChar digit).isDigit := by decide
  induction width generalizing number with
  | zero => exact fun _ hmem => absurd hmem List.not_mem_nil
  | succ width ih =>
      refine Digits.append (ih _) fun c hmem => ?_
      rw [List.mem_singleton.1 hmem]
      exact hdigit _ (Nat.mod_lt _ (by decide))

theorem digitsValue_padded (width number : ℕ) :
    digitsValue (padded width number) = number % 10 ^ width := by
  have hdigit : ∀ digit < 10, digitsValue [Nat.digitChar digit] = digit := by decide
  induction width generalizing number with
  | zero => rw [pow_zero, Nat.mod_one]; rfl
  | succ width ih =>
      rw [padded, Decimal.digitsValue_append, ih, hdigit _ (Nat.mod_lt _ (by decide)),
        List.length_singleton, pow_one, pow_succ', Nat.mod_mul, Nat.add_comm]

theorem readPadded_padded (width number : ℕ) (rest : List Char) :
    readPadded width (padded width number ++ rest) = some (number % 10 ^ width, rest) := by
  have htake : (padded width number ++ rest).take width = padded width number := by
    rw [List.take_append_of_le_length (length_padded _ _).ge,
      List.take_of_length_le (length_padded _ _).le]
  have hdrop : (padded width number ++ rest).drop width = rest := by
    rw [List.drop_append_of_le_length (length_padded _ _).ge,
      List.drop_of_length_le (length_padded _ _).le, List.nil_append]
  unfold readPadded
  rw [htake, hdrop, if_pos ⟨length_padded _ _, List.all_eq_true.2 (digits_padded _ _)⟩,
    digitsValue_padded]

theorem readDigits_append {digits rest : List Char} (hdigits : Digits digits)
    (hrest : ∀ c ∈ rest.head?, c.isDigit = false) :
    readDigits (digits ++ rest) = (digitsValue digits, rest) := by
  have hend : rest.takeWhile Char.isDigit = [] ∧ rest.dropWhile Char.isDigit = rest := by
    cases rest with
    | nil => exact ⟨rfl, rfl⟩
    | cons c rest =>
        have hc : ¬ c.isDigit = true := by
          rw [hrest c (Option.mem_some_self c)]
          exact Bool.false_ne_true
        exact ⟨List.takeWhile_cons_of_neg hc, List.dropWhile_cons_of_neg hc⟩
  unfold readDigits
  rw [List.takeWhile_append_of_pos hdigits, List.dropWhile_append_of_pos hdigits, hend.1, hend.2,
    List.append_nil]

theorem digits_fourDigits (number : ℕ) : Digits (fourDigits number) :=
  Digits.append (Decimal.digits_replicate_zero _) (Decimal.digits_toDigits number)

theorem digitsValue_fourDigits (number : ℕ) : digitsValue (fourDigits number) = number := by
  unfold fourDigits
  rw [Decimal.digitsValue_replicate_append, Decimal.digitsValue_toDigits]

theorem readYear_yearText (year : ℤ) (rest : List Char) :
    readYear (yearText year ++ '-' :: rest) = some (year, '-' :: rest) := by
  have hend : ∀ c ∈ ('-' :: rest).head?, c.isDigit = false := fun c hc => by
    rw [← Option.some.inj hc]
    rfl
  have hfour := readDigits_append (digits_fourDigits year.natAbs) hend
  rw [digitsValue_fourDigits] at hfour
  unfold yearText
  split_ifs with hfits hneg
  · obtain ⟨digit, more, hpadded, hdigit⟩ := padded_head 3 year.toNat
    have hsign : ∀ digit < 10, Nat.digitChar digit ≠ '-' ∧ Nat.digitChar digit ≠ '+' := by decide
    have hyear : ((year.toNat % 10 ^ 4 : ℕ) : ℤ) = year := by omega
    have hread := readPadded_padded 4 year.toNat ('-' :: rest)
    rw [hpadded] at hread ⊢
    unfold readYear
    rw [List.cons_append, List.head?_cons]
    rw [List.cons_append] at hread
    split
    · next heq => exact absurd (Option.some.inj heq) (hsign digit hdigit).1
    · next heq => exact absurd (Option.some.inj heq) (hsign digit hdigit).2
    · simp only [hread, Option.map_some, hyear]
  · have hyear : -(year.natAbs : ℤ) = year := by omega
    unfold readYear
    simp only [List.cons_append, List.head?_cons, List.tail_cons, hfour, hyear]
  · have hyear : (year.natAbs : ℤ) = year := by omega
    unfold readYear
    simp only [List.cons_append, List.head?_cons, List.tail_cons, hfour, hyear]

theorem readSign_cons (sign : Char) (rest : List Char) : readSign sign (sign :: rest) = some rest :=
  if_pos rfl

theorem readFraction_fractionText {nanos : ℕ} (hnanos : nanos < 10 ^ 9) :
    readFraction (fractionText nanos ++ ['Z']) = (nanos, ['Z']) := by
  unfold fractionText
  rcases fractionWidth_cases nanos with ⟨hnone, rfl⟩ | ⟨hwidth, hexact⟩
  · rw [if_pos hnone]
    rfl
  have hnine : ∀ width ∈ [3, 6, 9], width ≠ 0 ∧ width ≤ 9 := by decide
  obtain ⟨hsome, hle⟩ := hnine _ hwidth
  generalize fractionWidth nanos = width at hsome hle hexact ⊢
  have hfits : nanos / 10 ^ (9 - width) < 10 ^ width := by
    refine Nat.div_lt_of_lt_mul ?_
    rwa [← pow_add, Nat.sub_add_cancel hle]
  have htake : (padded width (nanos / 10 ^ (9 - width)) ++ ['Z']).takeWhile Char.isDigit =
      padded width (nanos / 10 ^ (9 - width)) := by
    rw [List.takeWhile_append_of_pos (digits_padded _ _)]
    exact List.append_nil _
  have hdrop : (padded width (nanos / 10 ^ (9 - width)) ++ ['Z']).dropWhile Char.isDigit = ['Z'] := by
    rw [List.dropWhile_append_of_pos (digits_padded _ _)]
    rfl
  rw [if_neg hsome, List.cons_append, readFraction, htake, hdrop, length_padded,
    digitsValue_padded, Nat.mod_eq_of_lt hfits, Nat.div_mul_cancel (Nat.dvd_of_mod_eq_zero hexact)]

theorem year_dateInCycle_lt (day : ℤ) : (dateInCycle day).year < 400 := by
  have hcycle : daysBeforeYear 400 = 146097 := by decide +kernel
  have hstart := (yearOf_spec (day % cycleDays).toNat).1
  have hend : (day % cycleDays).toNat < daysBeforeYear 400 := by
    unfold cycleDays
    omega
  exact daysBeforeYear_strictMono.lt_iff_lt.1 (lt_of_le_of_lt hstart hend)

/-- The date within its cycle, from the year and the two padded fields. -/
theorem date_of_fields (day : ℤ) :
    (⟨((400 * cycleOf day + (dateInCycle day).year) % 400).toNat,
      (dateInCycle day).month % 10 ^ 2, (dateInCycle day).day % 10 ^ 2⟩ : Date) =
      dateInCycle day := by
  have hyear := year_dateInCycle_lt day
  have hmonth : (dateInCycle day).month < 10 ^ 2 := month_lt _
  have hday : (dateInCycle day).day < 10 ^ 2 := day_lt _
  have hmod : ((400 * cycleOf day + (dateInCycle day).year) % 400).toNat =
      (dateInCycle day).year := by omega
  rw [hmod, Nat.mod_eq_of_lt hmonth, Nat.mod_eq_of_lt hday]

theorem instant_of_parts (instant : ℤ) :
    ((dayOf instant - epochDay) * secondsPerDay + secondOf instant) * nanosPerSecond +
      nanosOf instant = instant := by
  unfold dayOf secondOf nanosOf secondsPerDay nanosPerSecond
  omega

/-- An instant is read back from its text. -/
theorem readUtc_utcText (instant : ℤ) : readUtc (utcText instant) = some instant := by
  have hnanos : nanosOf instant < 10 ^ 9 := by
    unfold nanosOf nanosPerSecond
    omega
  have hsecond : secondOf instant < 86400 := by
    unfold secondOf secondsPerDay
    omega
  have hclock : secondOf instant / 3600 % 10 ^ 2 * 3600 + secondOf instant / 60 % 60 % 10 ^ 2 * 60 +
      secondOf instant % 60 % 10 ^ 2 = secondOf instant := by omega
  have hyear := year_dateInCycle_lt (dayOf instant)
  have hcycle : (400 * cycleOf (dayOf instant) + (dateInCycle (dayOf instant)).year) / 400 =
      cycleOf (dayOf instant) := by omega
  unfold readUtc utcText timeText
  simp only [String.toList_ofList, List.append_assoc, List.cons_append, readYear_yearText,
    readSign_cons, readPadded_padded, readFraction_fractionText hnanos, Option.bind_eq_bind,
    Option.bind_some, if_true, date_of_fields, hcycle, hclock, day_of_cycle, instant_of_parts]

theorem utcText_injective : Function.Injective utcText := fun left right heq => by
  have hread := readUtc_utcText left
  rw [heq, readUtc_utcText] at hread
  exact (Option.some.inj hread).symm

example : utcText 951825600123456000 = "2000-02-29T12:00:00.123456Z" := by decide +kernel

end Talea.Rfc3339
