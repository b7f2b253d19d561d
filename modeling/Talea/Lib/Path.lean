import Mathlib.Data.List.Basic
import Mathlib.Order.Defs.Unbundled

/-!
# Paths

A path leads from one value through a list of others to a last one, each
related to the next.  Paths through a preorder compose, and read as a function
of time they are monotone; behind their end time stands still.
-/

namespace Talea

variable {α : Type*}

/-- From `start` through `stops` to `finish`. -/
def Path (R : α → α → Prop) : α → List α → α → Prop
  | start, [], finish => R start finish
  | start, stop :: stops, finish => R start stop ∧ Path R stop stops finish

namespace Path

variable {R : α → α → Prop} {start middle finish : α} {stops later : List α}

section Trans

variable [IsTrans α R]

theorem of_rel (hrel : R start middle) (hpath : Path R middle stops finish) :
    Path R start stops finish := by
  cases stops with
  | nil => exact IsTrans.trans _ _ _ hrel hpath
  | cons stop stops => exact ⟨IsTrans.trans _ _ _ hrel hpath.1, hpath.2⟩

theorem append (hleft : Path R start stops middle) (hright : Path R middle later finish) :
    Path R start (stops ++ later) finish := by
  induction stops generalizing start with
  | nil => exact hright.of_rel hleft
  | cons stop stops ih => exact ⟨hleft.1, ih hleft.2⟩

theorem concat (hpath : Path R start stops middle) (hrel : R middle finish) :
    Path R start stops finish := by
  have hnone : Path R middle [] finish := hrel
  simpa using hpath.append hnone

theorem rel (hpath : Path R start stops finish) : R start finish := by
  induction stops generalizing start with
  | nil => exact hpath
  | cons stop stops ih => exact IsTrans.trans _ _ _ hpath.1 (ih hpath.2)

end Trans

theorem map {β : Type*} {S : β → β → Prop} {f : α → β} (hf : ∀ left right, R left right →
    S (f left) (f right)) (hpath : Path R start stops finish) :
    Path S (f start) (stops.map f) (f finish) := by
  induction stops generalizing start with
  | nil => exact hf _ _ hpath
  | cons stop stops ih => exact ⟨hf _ _ hpath.1, ih hpath.2⟩

/-- The last stop leads to the end. -/
theorem getLast_rel (hpath : Path R start stops finish) :
    R (stops.getLast?.getD start) finish := by
  induction stops generalizing start with
  | nil => exact hpath
  | cons stop stops ih =>
      rw [List.getLast?_cons, Option.getD_some]
      exact ih hpath.2

/-- The values of a monotone sequence. -/
theorem of_range [IsTrans α R] [Std.Refl R] (f : ℕ → α) (count : ℕ)
    (hstep : ∀ idx < count, R (f idx) (f (idx + 1))) :
    Path R (f 0) ((List.range (count + 1)).map f) (f count) := by
  induction count with
  | zero => exact ⟨Std.Refl.refl _, Std.Refl.refl _⟩
  | succ count ih =>
      rw [List.range_succ, List.map_append, List.map_singleton]
      have hbefore := ih fun idx hidx => hstep idx (Nat.lt_succ_of_lt hidx)
      exact (hbefore.concat (hstep count (Nat.lt_succ_self count))).append
        ⟨Std.Refl.refl _, Std.Refl.refl _⟩

/-- A path that is cut off somewhere. -/
theorem take [Std.Refl R] (hpath : Path R start stops finish) (count : ℕ) :
    Path R start (stops.take count) ((stops.take count).getLast?.getD start) := by
  induction stops generalizing start count with
  | nil =>
      rw [List.take_nil]
      exact Std.Refl.refl _
  | cons stop stops ih =>
      cases count with
      | zero => exact Std.Refl.refl _
      | succ count =>
          have hlast : ((stop :: stops).take (count + 1)).getLast?.getD start =
              (stops.take count).getLast?.getD stop := by
            rw [List.take_succ_cons, List.getLast?_cons, Option.getD_some]
          rw [hlast]
          exact ⟨hpath.1, ih hpath.2 count⟩

theorem toLast [Std.Refl R] (hpath : Path R start stops finish) :
    Path R start stops (stops.getLast?.getD start) := by
  have htake := hpath.take stops.length
  rwa [List.take_length] at htake

/-! ## Paths in time -/

/-- Where a path is at a time: first at its start, then at each stop, and at the
last of them from then on. -/
def atTime : α → List α → ℕ → α
  | start, _, 0 => start
  | start, [], _ => start
  | _, stop :: stops, time + 1 => atTime stop stops time

@[simp]
theorem atTime_zero (start : α) (stops : List α) : atTime start stops 0 = start := by
  cases stops <;> rfl

@[simp]
theorem atTime_nil (start : α) (time : ℕ) : atTime start [] time = start := by
  cases time <;> rfl

@[simp]
theorem atTime_cons (start stop : α) (stops : List α) (time : ℕ) :
    atTime start (stop :: stops) (time + 1) = atTime stop stops time := rfl

theorem atTime_mem (start : α) (stops : List α) (time : ℕ) :
    atTime start stops time = start ∨ atTime start stops time ∈ stops := by
  induction stops generalizing start time with
  | nil => simp
  | cons stop stops ih =>
      cases time with
      | zero => simp
      | succ time =>
          rw [atTime_cons, List.mem_cons]
          exact Or.inr (ih stop time)

/-- At every time the end is still ahead. -/
theorem atTime_rel [IsTrans α R] (hpath : Path R start stops finish) (time : ℕ) :
    R (atTime start stops time) finish := by
  induction stops generalizing start time with
  | nil =>
      rw [atTime_nil]
      exact hpath
  | cons stop stops ih =>
      cases time with
      | zero => simpa using hpath.rel
      | succ time => simpa using ih hpath.2 time

/-- One step in time follows the path. -/
theorem rel_atTime [Std.Refl R] (hpath : Path R start stops finish) (time : ℕ) :
    R (atTime start stops time) (atTime start stops (time + 1)) := by
  induction stops generalizing start time with
  | nil => simpa using Std.Refl.refl start
  | cons stop stops ih =>
      cases time with
      | zero => simpa using hpath.1
      | succ time => simpa using ih hpath.2 time

end Path

end Talea
