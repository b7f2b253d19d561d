import Mathlib

/-!
# Instants as RFC 3339 texts

An instant is a number of nanoseconds since the Unix epoch.  Its text has the
date and the time of day in fields of fixed width, then the shortest of no,
three, six or nine digits that is exact for the fraction, and the offset of
UTC.  The fraction makes the texts of two instants differ in length, and still
the texts of the years 0 to 9999 are ordered as the instants are: `+` comes
before `.`, and `.` before the digits.
-/

namespace Talea.Rfc3339

/-! ## Texts of equal length -/

/-- Texts that differ within heads of one length are ordered by their heads. -/
theorem append_lt_append {α : Type*} [LT α] {left right : List α} (hlt : left < right)
    (hlen : left.length = right.length) (tail tail' : List α) : left ++ tail < right ++ tail' := by
  induction left generalizing right with
  | nil =>
      obtain rfl := List.length_eq_zero_iff.1 hlen.symm
      exact absurd hlt (List.not_lt_nil _)
  | cons head left ih =>
      cases right with
      | nil => cases hlen
      | cons head' right =>
          rw [List.cons_append, List.cons_append, List.cons_lt_cons_iff]
          rcases List.cons_lt_cons_iff.1 hlt with hhead | ⟨hhead, hrest⟩
          · exact Or.inl hhead
          · exact Or.inr ⟨hhead, ih hrest (Nat.succ.inj hlen)⟩

/-- The last `width` decimal digits of a number. -/
def padded : ℕ → ℕ → List Char
  | 0, _ => []
  | width + 1, number => padded width (number / 10) ++ [Nat.digitChar (number % 10)]

@[simp]
theorem length_padded (width number : ℕ) : (padded width number).length = width := by
  induction width generalizing number with
  | zero => rfl
  | succ width ih => rw [padded, List.length_append, ih, List.length_singleton]

theorem digitChar_lt {left right : ℕ} (hlt : left < right) (hright : right < 10) :
    Nat.digitChar left < Nat.digitChar right := by
  have hall : ∀ right < 10, ∀ left < right, Nat.digitChar left < Nat.digitChar right := by decide
  exact hall right hright left hlt

/-- Numbers that fit a width are ordered as their digits are. -/
theorem padded_lt {width left right : ℕ} (hlt : left < right) (hright : right < 10 ^ width) :
    padded width left < padded width right := by
  induction width generalizing left right with
  | zero => simp only [pow_zero] at hright; omega
  | succ width ih =>
      rw [padded, padded]
      rw [pow_succ] at hright
      rcases Nat.lt_or_ge (left / 10) (right / 10) with hhead | hhead
      · exact append_lt_append (ih hhead (by omega)) (by simp) _ _
      · have hsame : left / 10 = right / 10 := by omega
        rw [hsame]
        refine List.append_left_lt (List.cons_lt_cons_iff.2 (Or.inl (digitChar_lt ?_ ?_))) <;> omega

/-- The digits of a number are those of its head followed by the others. -/
theorem padded_add (width more number : ℕ) :
    padded (width + more) number = padded width (number / 10 ^ more) ++ padded more number := by
  induction more generalizing number with
  | zero => simp [padded]
  | succ more ih =>
      rw [← Nat.add_assoc, padded, ih, padded, Nat.div_div_eq_div_mul, pow_succ']
      simp

theorem padded_head (width number : ℕ) :
    ∃ digit rest, padded (width + 1) number = Nat.digitChar digit :: rest ∧ digit < 10 := by
  induction width generalizing number with
  | zero => exact ⟨number % 10, [], rfl, by omega⟩
  | succ width ih =>
      obtain ⟨digit, rest, hpadded, hdigit⟩ := ih (number / 10)
      exact ⟨digit, rest ++ [Nat.digitChar (number % 10)], by rw [padded, hpadded]; rfl, hdigit⟩

/-! ## Dates -/

def IsLeap (year : ℕ) : Prop := year % 4 = 0 ∧ (year % 100 ≠ 0 ∨ year % 400 = 0)

instance : DecidablePred IsLeap := fun year => by
  unfold IsLeap
  infer_instance

/-- The leap years before `year`, from year 0 on. -/
def leapDays (year : ℕ) : ℕ :=
  (year + 3) / 4 - (year + 99) / 100 + (year + 399) / 400

/-- Days from the first of January of year 0 to that of `year`. -/
def daysBeforeYear (year : ℕ) : ℕ :=
  365 * year + leapDays year

/-- The days of a year at the end of each of its months but the last. -/
def monthEnds (year : ℕ) : List ℕ :=
  if IsLeap year then [31, 60, 91, 121, 152, 182, 213, 244, 274, 305, 335]
  else [31, 59, 90, 120, 151, 181, 212, 243, 273, 304, 334]

/-- The year of a day, counted from the start of year 0: its place in the cycle
of 400 years, by years of 365 days, is too late by less than a year. -/
def yearOf (day : ℕ) : ℕ :=
  let left := day % 146097
  let guess := left / 365
  400 * (day / 146097) + if daysBeforeYear guess ≤ left then guess else guess - 1

structure Date where
  year : ℕ
  month : ℕ
  day : ℕ
  deriving DecidableEq

/-- The date of a day, counted from the start of year 0. -/
def dateOf (day : ℕ) : Date :=
  let year := yearOf day
  let ordinal := day - daysBeforeYear year
  let past := (monthEnds year).filter (· ≤ ordinal)
  { year, month := past.length + 1, day := ordinal - past.getLastD 0 + 1 }

theorem daysBeforeYear_cycle (cycle year : ℕ) :
    daysBeforeYear (400 * cycle + year) = 146097 * cycle + daysBeforeYear year := by
  have hfour : (400 * cycle + year + 3) / 4 = 100 * cycle + (year + 3) / 4 := by omega
  have hhundred : (400 * cycle + year + 99) / 100 = 4 * cycle + (year + 99) / 100 := by omega
  have hcycle : (400 * cycle + year + 399) / 400 = cycle + (year + 399) / 400 := by omega
  have hless : (year + 99) / 100 ≤ (year + 3) / 4 := by omega
  unfold daysBeforeYear leapDays
  omega

theorem daysBeforeYear_succ (year : ℕ) :
    daysBeforeYear (year + 1) = daysBeforeYear year + if IsLeap year then 366 else 365 := by
  have hcycle : ∀ year < 400,
      daysBeforeYear (year + 1) = daysBeforeYear year + if IsLeap year then 366 else 365 := by
    decide +kernel
  have hleap : IsLeap year ↔ IsLeap (year % 400) := by
    unfold IsLeap
    omega
  have hyear := Nat.div_add_mod year 400
  calc daysBeforeYear (year + 1)
      = 146097 * (year / 400) + daysBeforeYear (year % 400 + 1) := by
        rw [← daysBeforeYear_cycle, ← Nat.add_assoc, hyear]
    _ = daysBeforeYear year + if IsLeap (year % 400) then 366 else 365 := by
        rw [hcycle _ (Nat.mod_lt _ (by decide)), ← Nat.add_assoc, ← daysBeforeYear_cycle, hyear]
    _ = daysBeforeYear year + if IsLeap year then 366 else 365 := by
        simp only [hleap]

theorem daysBeforeYear_strictMono : StrictMono daysBeforeYear :=
  strictMono_nat_of_lt_succ fun year => by
    rw [daysBeforeYear_succ]
    split_ifs <;> omega

theorem leapDays_le {year : ℕ} (hyear : year ≤ 400) : leapDays year ≤ 102 := by
  unfold leapDays
  omega

theorem yearOf_spec (day : ℕ) :
    daysBeforeYear (yearOf day) ≤ day ∧ day < daysBeforeYear (yearOf day + 1) := by
  have hguess : day % 146097 / 365 ≤ 400 := by omega
  have hleap := leapDays_le hguess
  have hleap' := leapDays_le (show day % 146097 / 365 - 1 ≤ 400 by omega)
  unfold yearOf
  dsimp only
  rw [Nat.add_assoc, daysBeforeYear_cycle, daysBeforeYear_cycle]
  split_ifs with hfits
  · have hnext : 365 * (day % 146097 / 365 + 1) ≤ daysBeforeYear (day % 146097 / 365 + 1) :=
      Nat.le_add_right _ _
    omega
  · have hpos : day % 146097 / 365 ≠ 0 := fun hzero => hfits (by rw [hzero]; exact Nat.zero_le _)
    rw [Nat.sub_add_cancel (Nat.pos_of_ne_zero hpos)]
    unfold daysBeforeYear at hfits ⊢
    omega

theorem yearOf_mono {day day' : ℕ} (hle : day ≤ day') : yearOf day ≤ yearOf day' := by
  have hyears : daysBeforeYear (yearOf day) < daysBeforeYear (yearOf day' + 1) :=
    lt_of_le_of_lt ((yearOf_spec day).1.trans hle) (yearOf_spec day').2
  exact Nat.lt_succ_iff.1 (daysBeforeYear_strictMono.lt_iff_lt.1 hyears)

theorem ordinal_lt (day : ℕ) : day - daysBeforeYear (yearOf day) < 366 := by
  obtain ⟨hstart, hend⟩ := yearOf_spec day
  rw [daysBeforeYear_succ] at hend
  split_ifs at hend <;> omega

/-- Within a year, a later day has a later month, or a later day of the month. -/
theorem dateOf_lt {day day' : ℕ} (hlt : day < day') :
    (dateOf day).year < (dateOf day').year ∨ (dateOf day).year = (dateOf day').year ∧
      ((dateOf day).month < (dateOf day').month ∨
        (dateOf day).month = (dateOf day').month ∧ (dateOf day).day < (dateOf day').day) := by
  rcases (yearOf_mono hlt.le).lt_or_eq with hyear | hyear
  · exact Or.inl hyear
  refine Or.inr ⟨hyear, ?_⟩
  have hstart := (yearOf_spec day).1
  unfold dateOf
  simp only [← hyear]
  have hordinal : day - daysBeforeYear (yearOf day) < day' - daysBeforeYear (yearOf day) := by
    omega
  generalize day - daysBeforeYear (yearOf day) = ordinal at hordinal ⊢
  generalize day' - daysBeforeYear (yearOf day) = ordinal' at hordinal ⊢
  have hsub : ((monthEnds (yearOf day)).filter (· ≤ ordinal)).Sublist
      ((monthEnds (yearOf day)).filter (· ≤ ordinal')) :=
    List.monotone_filter_right _ fun monthEnd hpast => by
      simp only [decide_eq_true_eq] at hpast ⊢
      omega
  rcases hsub.length_le.lt_or_eq with hmonth | hmonth
  · exact Or.inl (Nat.succ_lt_succ hmonth)
  · refine Or.inr ⟨congrArg Nat.succ hmonth, ?_⟩
    have hlast : ((monthEnds (yearOf day)).filter (· ≤ ordinal)).getLastD 0 ≤ ordinal := by
      rcases List.eq_nil_or_concat' ((monthEnds (yearOf day)).filter (· ≤ ordinal)) with
        hnil | ⟨front, last, hconcat⟩
      · simp [hnil]
      · have hmem : last ∈ (monthEnds (yearOf day)).filter (· ≤ ordinal) := by simp [hconcat]
        rw [hconcat, List.getLastD_concat]
        simpa using (List.mem_filter.1 hmem).2
    rw [← hsub.eq_of_length hmonth]
    omega

theorem month_lt (day : ℕ) : (dateOf day).month < 10 ^ 2 := by
  have hlength : (monthEnds (yearOf day)).length = 11 := by
    unfold monthEnds
    split <;> rfl
  have hpast := List.length_filter_le (fun monthEnd => monthEnd ≤ day - daysBeforeYear (yearOf day))
    (monthEnds (yearOf day))
  have hmonth : (dateOf day).month ≤ 12 := by
    rw [hlength] at hpast
    exact Nat.succ_le_succ hpast
  omega

theorem day_lt (day : ℕ) : (dateOf day).day < 10 ^ 2 := by
  have hall : ∀ ends ∈ [[31, 60, 91, 121, 152, 182, 213, 244, 274, 305, 335],
      [31, 59, 90, 120, 151, 181, 212, 243, 273, 304, 334]], ∀ ordinal < 366,
      ordinal - (ends.filter (· ≤ ordinal)).getLastD 0 + 1 < 10 ^ 2 := by
    decide +kernel
  refine hall (monthEnds (yearOf day)) ?_ _ (ordinal_lt day)
  unfold monthEnds
  split <;> simp

/-! ## Texts -/

def dateText (date : Date) : List Char :=
  padded 4 date.year ++ '-' :: (padded 2 date.month ++ '-' :: padded 2 date.day)

/-- The text of a second of a day. -/
def timeText (second : ℕ) : List Char :=
  padded 2 (second / 3600) ++ ':' :: (padded 2 (second / 60 % 60) ++ ':' :: padded 2 (second % 60))

/-- How many digits are exact for a fraction of a second. -/
def fractionWidth (nanos : ℕ) : ℕ :=
  if nanos = 0 then 0
  else if nanos % 1000000 = 0 then 3
  else if nanos % 1000 = 0 then 6
  else 9

def fractionText (nanos : ℕ) : List Char :=
  if fractionWidth nanos = 0 then []
  else '.' :: padded (fractionWidth nanos) (nanos / 10 ^ (9 - fractionWidth nanos))

/-- The offset of UTC. -/
def offsetText : List Char := "+00:00".toList

def nanosPerSecond : ℤ := 1000000000

def secondsPerDay : ℤ := 86400

/-- The day of the Unix epoch. -/
def epochDay : ℤ := 719528

/-- The day of an instant, counted from the start of year 0. -/
def dayOf (instant : ℤ) : ℤ :=
  instant / nanosPerSecond / secondsPerDay + epochDay

def secondOf (instant : ℤ) : ℕ :=
  (instant / nanosPerSecond % secondsPerDay).toNat

def nanosOf (instant : ℤ) : ℕ :=
  (instant % nanosPerSecond).toNat

/-- An instant in the years 0 to 9999. -/
def InYears (instant : ℤ) : Prop :=
  0 ≤ dayOf instant ∧ dayOf instant < daysBeforeYear 10000

instance : DecidablePred InYears := fun instant => by
  unfold InYears
  infer_instance

/-- The text of an instant, at the offset of UTC. -/
def text (instant : ℤ) : String :=
  String.ofList (dateText (dateOf (dayOf instant).toNat) ++ 'T' ::
    (timeText (secondOf instant) ++ (fractionText (nanosOf instant) ++ offsetText)))

@[simp]
theorem length_dateText (date : Date) : (dateText date).length = 10 := by
  simp [dateText]

@[simp]
theorem length_timeText (second : ℕ) : (timeText second).length = 8 := by
  simp [timeText]

theorem dateText_lt {day day' : ℕ} (hlt : day < day') (hend : day' < daysBeforeYear 10000) :
    dateText (dateOf day) < dateText (dateOf day') := by
  have hyear : (dateOf day').year < 10 ^ 4 := by
    have hstart := lt_of_le_of_lt (yearOf_spec day').1 hend
    exact daysBeforeYear_strictMono.lt_iff_lt.1 hstart
  unfold dateText
  rcases dateOf_lt hlt with hless | ⟨hsame, hless | ⟨hsame', hless⟩⟩
  · exact append_lt_append (padded_lt hless hyear) (by simp) _ _
  · rw [hsame]
    refine List.append_left_lt (List.cons_lt_cons_self.2 ?_)
    exact append_lt_append (padded_lt hless (month_lt day')) (by simp) _ _
  · rw [hsame, hsame']
    refine List.append_left_lt (List.cons_lt_cons_self.2 (List.append_left_lt ?_))
    exact List.cons_lt_cons_self.2 (padded_lt hless (day_lt day'))

theorem timeText_lt {second second' : ℕ} (hlt : second < second') (hend : second' < 86400) :
    timeText second < timeText second' := by
  unfold timeText
  rcases Nat.lt_or_ge (second / 3600) (second' / 3600) with hless | hge
  · exact append_lt_append (padded_lt hless (by omega)) (by simp) _ _
  have hhour : second / 3600 = second' / 3600 := by omega
  rw [hhour]
  refine List.append_left_lt (List.cons_lt_cons_self.2 ?_)
  rcases Nat.lt_or_ge (second / 60 % 60) (second' / 60 % 60) with hless | hge'
  · exact append_lt_append (padded_lt hless (by omega)) (by simp) _ _
  · have hminute : second / 60 % 60 = second' / 60 % 60 := by omega
    rw [hminute]
    exact List.append_left_lt (List.cons_lt_cons_self.2 (padded_lt (by omega) (by omega)))

theorem fractionWidth_cases (nanos : ℕ) :
    fractionWidth nanos = 0 ∧ nanos = 0 ∨ fractionWidth nanos ∈ [3, 6, 9] ∧
      nanos % 10 ^ (9 - fractionWidth nanos) = 0 := by
  unfold fractionWidth
  split_ifs with hzero hmillis hmicros
  · exact Or.inl ⟨rfl, hzero⟩
  · exact Or.inr ⟨by simp, hmillis⟩
  · exact Or.inr ⟨by simp, hmicros⟩
  · exact Or.inr ⟨by simp, Nat.mod_one _⟩

/-- The texts of two fractions are ordered at their first digit that differs;
where one is cut off there, the offset comes before the digits of the other. -/
theorem paddedFraction_lt {left right : ℕ} (hlt : left < right) (hright : right < 10 ^ 9)
    {width width' : ℕ} (hwidth : width ≤ 9) (hwidth' : width' ≤ 9)
    (hexact : left % 10 ^ (9 - width) = 0) (hexact' : right % 10 ^ (9 - width') = 0)
    {offset : List Char} (hoffset : ∀ digit < 10, ∀ rest, offset < Nat.digitChar digit :: rest) :
    padded width (left / 10 ^ (9 - width)) ++ offset <
      padded width' (right / 10 ^ (9 - width')) ++ offset := by
  have hfits : ∀ {width}, width ≤ 9 → right / 10 ^ (9 - width) < 10 ^ width := fun hwidth =>
    Nat.div_lt_of_lt_mul (by rw [← pow_add, Nat.sub_add_cancel hwidth]; exact hright)
  rcases Nat.le_total width width' with hle | hle
  · obtain ⟨more, rfl⟩ := Nat.exists_eq_add_of_le hle
    have hhead : right / 10 ^ (9 - (width + more)) / 10 ^ more = right / 10 ^ (9 - width) := by
      rw [Nat.div_div_eq_div_mul, ← pow_add]
      congr 2
      omega
    rw [padded_add, hhead, List.append_assoc]
    rcases (Nat.div_le_div_right hlt.le).lt_or_eq with hless | hsame
    · exact append_lt_append (padded_lt hless (hfits hwidth)) (by simp) _ _
    rw [hsame]
    refine List.append_left_lt ?_
    cases more with
    | zero =>
        have hleft := Nat.mul_div_cancel' (Nat.dvd_of_mod_eq_zero hexact)
        have hright' := Nat.mul_div_cancel' (Nat.dvd_of_mod_eq_zero hexact')
        rw [Nat.add_zero, ← hsame, hleft] at hright'
        exact absurd hright' hlt.ne
    | succ more =>
        obtain ⟨digit, rest, hpadded, hdigit⟩ := padded_head more (right / 10 ^ (9 - (width + (more + 1))))
        rw [hpadded]
        exact hoffset digit hdigit _
  · obtain ⟨more, rfl⟩ := Nat.exists_eq_add_of_le hle
    have hhead : left / 10 ^ (9 - (width' + more)) / 10 ^ more = left / 10 ^ (9 - width') := by
      rw [Nat.div_div_eq_div_mul, ← pow_add]
      congr 2
      omega
    rw [padded_add, hhead, List.append_assoc]
    have hless : left / 10 ^ (9 - width') < right / 10 ^ (9 - width') := by
      refine Nat.div_lt_of_lt_mul ?_
      rwa [Nat.mul_div_cancel' (Nat.dvd_of_mod_eq_zero hexact')]
    exact append_lt_append (padded_lt hless (hfits hwidth')) (by simp) _ _

theorem fractionText_lt {nanos nanos' : ℕ} (hlt : nanos < nanos') (hend : nanos' < 10 ^ 9) :
    fractionText nanos ++ offsetText < fractionText nanos' ++ offsetText := by
  have hnine : ∀ {width}, width ∈ [3, 6, 9] → width ≠ 0 ∧ width ≤ 9 := by decide
  rcases fractionWidth_cases nanos' with ⟨-, hzero⟩ | ⟨hwidth', hexact'⟩
  · exact absurd hzero (Nat.ne_zero_of_lt hlt)
  obtain ⟨hsome', hle'⟩ := hnine hwidth'
  unfold fractionText
  rw [if_neg hsome']
  rcases fractionWidth_cases nanos with ⟨hnone, -⟩ | ⟨hwidth, hexact⟩
  · rw [if_pos hnone]
    exact List.cons_lt_cons_iff.2 (Or.inl (by decide))
  · obtain ⟨hsome, hle⟩ := hnine hwidth
    rw [if_neg hsome]
    refine List.cons_lt_cons_self.2 (paddedFraction_lt hlt hend hle hle' hexact hexact' ?_)
    have hplus : ∀ digit < 10, '+' < Nat.digitChar digit := by decide
    exact fun digit hdigit rest => List.cons_lt_cons_iff.2 (Or.inl (hplus digit hdigit))

/-- In the years 0 to 9999, the text of a later instant is the greater one. -/
theorem text_lt {instant instant' : ℤ} (hlt : instant < instant') (hin : InYears instant)
    (hin' : InYears instant') : text instant < text instant' := by
  obtain ⟨hstart, -⟩ := hin
  obtain ⟨hstart', hend'⟩ := hin'
  unfold text
  rw [String.lt_iff_toList_lt, String.toList_ofList, String.toList_ofList]
  rcases lt_or_ge (dayOf instant) (dayOf instant') with hday | hday
  · have hdate : dateText (dateOf (dayOf instant).toNat) <
        dateText (dateOf (dayOf instant').toNat) :=
      dateText_lt (by omega) (by omega)
    exact append_lt_append hdate (by simp) _ _
  have hsameDay : dayOf instant = dayOf instant' := by
    unfold dayOf nanosPerSecond secondsPerDay at hday ⊢
    omega
  rw [hsameDay]
  refine List.append_left_lt (List.cons_lt_cons_self.2 ?_)
  have hseconds : instant / 1000000000 / 86400 = instant' / 1000000000 / 86400 := by
    simpa only [dayOf, nanosPerSecond, secondsPerDay, add_left_inj] using hsameDay
  rcases lt_or_ge (secondOf instant) (secondOf instant') with hsecond | hsecond
  · have htime : timeText (secondOf instant) < timeText (secondOf instant') :=
      timeText_lt hsecond (by unfold secondOf secondsPerDay; omega)
    exact append_lt_append htime (by simp) _ _
  · have hsame : instant / 1000000000 = instant' / 1000000000 := by
      unfold secondOf nanosPerSecond secondsPerDay at hsecond
      omega
    have hsameSecond : secondOf instant = secondOf instant' := by
      unfold secondOf nanosPerSecond
      rw [hsame]
    rw [hsameSecond]
    refine List.append_left_lt (fractionText_lt ?_ ?_) <;> unfold nanosOf nanosPerSecond <;> omega

theorem text_strictMonoOn : StrictMonoOn text {instant | InYears instant} :=
  fun _ hin _ hin' hlt => text_lt hlt hin hin'

/-- Comparing texts is comparing instants. -/
theorem text_le_text {instant instant' : ℤ} (hin : InYears instant) (hin' : InYears instant') :
    text instant ≤ text instant' ↔ instant ≤ instant' :=
  text_strictMonoOn.le_iff_le hin hin'

example : text 951825600123456000 = "2000-02-29T12:00:00.123456+00:00" := by decide +kernel

end Talea.Rfc3339
