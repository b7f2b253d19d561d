import Mathlib

/-!
# Signed 64-bit arithmetic on integers

A machine `i64` is an integer together with the fact that it lies in
`[-2^63, 2^63)`.  Checked operations refuse a result outside that range,
wrapping operations reduce it modulo `2^64`, and saturating addition stops at
the upper end.  The second half is about running sums: a balance that receives
one signed step after the other, once with a check at every step and once with
a single total added at the end.
-/

namespace Talea.I64

/-- The values an `i64` can hold. -/
def InRange (value : Int) : Prop :=
  -9223372036854775808 ≤ value ∧ value ≤ 9223372036854775807

instance : DecidablePred InRange := fun value => by
  unfold InRange
  infer_instance

def checked (value : Int) : Option Int :=
  if InRange value then some value else none

def checkedAdd (left right : Int) : Option Int :=
  checked (left + right)

def checkedSub (left right : Int) : Option Int :=
  checked (left - right)

/-- Two's-complement reduction into the range of an `i64`. -/
def wrapping (value : Int) : Int :=
  (value + 9223372036854775808) % 18446744073709551616 - 9223372036854775808

def wrappingAdd (left right : Int) : Int :=
  wrapping (left + right)

def wrappingSub (left right : Int) : Int :=
  wrapping (left - right)

def wrappingNeg (value : Int) : Int :=
  wrapping (-value)

/-- Addition that stays at the nearest end of the range. -/
def saturatingAdd (left right : Int) : Int :=
  max (-9223372036854775808) (min 9223372036854775807 (left + right))

theorem inRange_zero : InRange 0 := by
  decide

theorem checked_eq_some {value result : Int} :
    checked value = some result ↔ InRange value ∧ result = value := by
  unfold checked
  split
  · next h => simp [h, eq_comm]
  · next h => simp [h]

theorem checked_eq_none {value : Int} : checked value = none ↔ ¬ InRange value := by
  unfold checked
  split <;> simp_all

theorem wrapping_inRange (value : Int) : InRange (wrapping value) := by
  unfold InRange wrapping
  omega

theorem wrapping_of_inRange {value : Int} (hvalue : InRange value) :
    wrapping value = value := by
  unfold InRange at hvalue
  unfold wrapping
  omega

/-- Wrapping forgets multiples of `2^64` and nothing else. -/
theorem wrapping_eq_add_mul (value : Int) :
    ∃ turns : Int, wrapping value = value + turns * 18446744073709551616 := by
  refine ⟨-((value + 9223372036854775808) / 18446744073709551616), ?_⟩
  unfold wrapping
  omega

theorem wrapping_add_wrapping (left right : Int) :
    wrapping (left + wrapping right) = wrapping (left + right) := by
  unfold wrapping
  omega

theorem wrapping_wrapping_add (left right : Int) :
    wrapping (wrapping left + right) = wrapping (left + right) := by
  unfold wrapping
  omega

theorem saturatingAdd_inRange (left right : Int) : InRange (saturatingAdd left right) := by
  unfold InRange saturatingAdd
  omega

/-! ## Running sums -/

/-- Every partial sum `base + d₁ + … + dᵢ` of the steps fits an `i64`. -/
def RunsInRange : Int → List Int → Prop
  | _, [] => True
  | base, step :: steps => InRange (base + step) ∧ RunsInRange (base + step) steps

instance RunsInRange.decidable : (base : Int) → (steps : List Int) →
    Decidable (RunsInRange base steps)
  | _, [] => inferInstanceAs (Decidable True)
  | base, step :: steps =>
      have := RunsInRange.decidable (base + step) steps
      inferInstanceAs (Decidable (InRange (base + step) ∧ RunsInRange (base + step) steps))

@[simp]
theorem runsInRange_nil (base : Int) : RunsInRange base [] := trivial

@[simp]
theorem runsInRange_cons (base step : Int) (steps : List Int) :
    RunsInRange base (step :: steps) ↔
      InRange (base + step) ∧ RunsInRange (base + step) steps := Iff.rfl

theorem runsInRange_append (base : Int) (first second : List Int) :
    RunsInRange base (first ++ second) ↔
      RunsInRange base first ∧ RunsInRange (base + first.sum) second := by
  induction first generalizing base with
  | nil => simp
  | cons step steps ih =>
      simp only [List.cons_append, runsInRange_cons, ih, List.sum_cons, and_assoc,
        Int.add_assoc]

/-- The last partial sum of a nonempty run is the total. -/
theorem RunsInRange.total {base : Int} {steps : List Int}
    (hruns : RunsInRange base steps) (hbase : InRange base) :
    InRange (base + steps.sum) := by
  induction steps generalizing base with
  | nil => simpa using hbase
  | cons step steps ih =>
      rw [runsInRange_cons] at hruns
      have := ih hruns.2 hruns.1
      simpa [Int.add_assoc] using this

/-- Adding step by step with a check each time succeeds exactly when no
partial sum leaves the range, and then yields the plain sum. -/
theorem foldlM_checkedAdd_eq (base : Int) (steps : List Int) :
    steps.foldlM checkedAdd base =
      if RunsInRange base steps then some (base + steps.sum) else none := by
  induction steps generalizing base with
  | nil => simp
  | cons step steps ih =>
      rw [List.foldlM_cons]
      by_cases hstep : InRange (base + step)
      · have hchecked : checkedAdd base step = some (base + step) := by
          simp [checkedAdd, checked, hstep]
        simp [hchecked, ih, hstep, Int.add_assoc]
      · have hchecked : checkedAdd base step = none := by
          simp [checkedAdd, checked, hstep]
        simp [hchecked, hstep]

/-- Folding with wrap-around yields the wrapped plain sum. -/
theorem foldl_wrappingAdd_eq (base : Int) (steps : List Int) :
    wrapping (steps.foldl wrappingAdd base) = wrapping (base + steps.sum) := by
  induction steps generalizing base with
  | nil => simp
  | cons step steps ih =>
      rw [List.foldl_cons, ih, wrappingAdd, wrapping_wrapping_add, List.sum_cons,
        Int.add_assoc]

end Talea.I64
