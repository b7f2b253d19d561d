import Mathlib.Data.List.Sort

/-!
# Lists that ascend in a key

A reader that goes through such a list from a key on has read what lies below
its cursor, and the next element moves the cursor behind it.
-/

namespace Talea

variable {α : Type*} {key : α → ℤ} {list rest : List α} {cursor : ℤ} {first : α}

/-- The keys of a list ascend. -/
def Ascends (key : α → ℤ) (list : List α) : Prop :=
  list.Pairwise fun left right => key left < key right

theorem Ascends.filter (hascends : Ascends key list) (holds : α → Bool) :
    Ascends key (list.filter holds) :=
  List.Pairwise.sublist List.filter_sublist hascends

theorem Ascends.insertionSort_eq (hascends : Ascends key list) :
    list.insertionSort (fun left right => key left ≤ key right) = list :=
  List.Pairwise.insertionSort_eq (List.Pairwise.imp le_of_lt hascends)

/-- A cursor cuts the list in two. -/
theorem Ascends.split (hascends : Ascends key list) (cursor : ℤ) :
    list.filter (fun element => key element < cursor) ++
      list.filter (fun element => cursor ≤ key element) = list := by
  induction list with
  | nil => rfl
  | cons head tail ih =>
      obtain ⟨hhead, htail⟩ := List.pairwise_cons.1 hascends
      by_cases hlt : key head < cursor
      · rw [List.filter_cons_of_pos (by simpa using hlt),
          List.filter_cons_of_neg (by simpa using hlt), List.cons_append, ih htail]
      · have hbelow : tail.filter (fun element => key element < cursor) = [] := by
          refine List.filter_eq_nil_iff.2 fun element helement => ?_
          have := hhead element helement
          simp only [decide_eq_true_eq]
          omega
        have habove : tail.filter (fun element => cursor ≤ key element) = tail := by
          refine List.filter_eq_self.2 fun element helement => ?_
          have := hhead element helement
          simp only [decide_eq_true_eq]
          omega
        rw [List.filter_cons_of_neg (by simpa using hlt),
          List.filter_cons_of_pos (by simpa using not_lt.1 hlt), hbelow, habove]
        rfl

theorem Ascends.filter_lt_isPrefix (hascends : Ascends key list) (cursor : ℤ) :
    list.filter (fun element => key element < cursor) <+: list :=
  ⟨_, hascends.split cursor⟩

/-- The cursor moves behind the next element, and what was to come behind it is
still to come. -/
theorem Ascends.advance (hascends : Ascends key list)
    (hnext : first :: rest <+: list.filter fun element => cursor ≤ key element) :
    list.filter (fun element => key element < key first + 1) =
        list.filter (fun element => key element < cursor) ++ [first] ∧
      rest <+: list.filter fun element => key first + 1 ≤ key element := by
  obtain ⟨later, hlater⟩ := hnext
  have hfirst : cursor ≤ key first := by
    have hmem : first ∈ list.filter fun element => cursor ≤ key element :=
      hlater ▸ List.mem_cons_self
    simpa using (List.mem_filter.1 hmem).2
  have hsplit := hascends.split cursor
  rw [← hlater] at hsplit
  have hlow : ∀ element ∈ list.filter (fun element => key element < cursor),
      key element < key first + 1 := by
    intro element helement
    have hlt : key element < cursor := by simpa using (List.mem_filter.1 helement).2
    omega
  generalize list.filter (fun element => key element < cursor) = below at hsplit hlow ⊢
  subst hsplit
  have habove : ∀ element ∈ rest ++ later, key first + 1 ≤ key element :=
    (List.pairwise_cons.1 (List.pairwise_append.1 hascends).2.1).1
  have hself := List.filter_eq_self.2 fun element h => decide_eq_true (hlow element h)
  have hnone := List.filter_eq_nil_iff.2 fun element h =>
    mt of_decide_eq_true (not_lt.2 (habove element h))
  have hnone' := List.filter_eq_nil_iff.2 fun element h =>
    mt of_decide_eq_true (not_le.2 (hlow element h))
  have hself' := List.filter_eq_self.2 fun element h => decide_eq_true (habove element h)
  rw [List.cons_append, List.filter_append, List.filter_append]
  constructor
  · rw [hself, List.filter_cons_of_pos (by simpa using Int.lt_succ (key first)), hnone]
  · rw [hnone', List.filter_cons_of_neg (by simpa using Int.lt_succ (key first)), hself']
    exact List.prefix_append _ _

end Talea
