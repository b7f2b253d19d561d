import Mathlib.Data.List.Count
import Mathlib.Data.List.Basic

/-!
# Items in places

A list of holders, each with items of its own.  What changes one holder moves
the count of an item by what it changes there, and an item that is counted once
is in one place only.
-/

namespace Talea

section Set

variable {σ : Type*} {holders : List σ} {index : ℕ} {old : σ}

theorem getElem?_set_of_some (hold : holders[index]? = some old) (new : σ) (other : ℕ) :
    (holders.set index new)[other]? = if other = index then some new else holders[other]? := by
  obtain ⟨hlt, -⟩ := List.getElem?_eq_some_iff.1 hold
  rw [List.getElem?_set, if_pos hlt]
  simp only [eq_comm]

theorem getElem?_concat_eq_some {new item : σ} :
    (holders ++ [new])[index]? = some item ↔
      holders[index]? = some item ∨ index = holders.length ∧ new = item := by
  rw [List.getElem?_append]
  split
  · next hlt =>
      refine ⟨Or.inl, fun h => h.resolve_right fun hlast => ?_⟩
      rw [hlast.1] at hlt
      exact Nat.lt_irrefl _ hlt
  · next hge =>
      have hnone : holders[index]? = none := List.getElem?_eq_none (Nat.le_of_not_lt hge)
      rw [hnone, List.getElem?_singleton]
      have hsub : index - holders.length = 0 ↔ index = holders.length := by omega
      simp only [hsub]
      split
      · next heq => simp [heq]
      · next hne => simp [hne]

end Set

variable {σ α : Type*} [DecidableEq α] (items : σ → List α)

theorem count_flatMap_set {holders : List σ} {index : ℕ} {old : σ}
    (hold : holders[index]? = some old) (new : σ) (item : α) :
    ((holders.set index new).flatMap items).count item + (items old).count item =
      (holders.flatMap items).count item + (items new).count item := by
  induction holders generalizing index with
  | nil => cases hold
  | cons holder holders ih =>
      cases index with
      | zero =>
          cases hold
          rw [List.set_cons_zero, List.flatMap_cons, List.flatMap_cons, List.count_append,
            List.count_append]
          omega
      | succ index =>
          have hrest := ih hold
          rw [List.set_cons_succ, List.flatMap_cons, List.flatMap_cons, List.count_append,
            List.count_append]
          omega

theorem count_flatMap_concat (holders : List σ) (holder : σ) (item : α) :
    ((holders ++ [holder]).flatMap items).count item =
      (holders.flatMap items).count item + (items holder).count item := by
  rw [List.flatMap_append, List.count_append, List.flatMap_singleton]

theorem count_flatMap_pos {holders : List σ} {index : ℕ} {holder : σ}
    (hholder : holders[index]? = some holder) {item : α} (hitem : item ∈ items holder) :
    0 < (holders.flatMap items).count item :=
  List.count_pos_iff.2 (List.mem_flatMap_of_mem (List.mem_of_getElem? hholder) hitem)

/-- An item that is counted at most once is held at one index. -/
theorem index_unique {holders : List σ} {item : α}
    (hcount : (holders.flatMap items).count item ≤ 1) {left right : ℕ} {a b : σ}
    (hleft : holders[left]? = some a) (hright : holders[right]? = some b)
    (hitemLeft : item ∈ items a) (hitemRight : item ∈ items b) : left = right := by
  induction holders generalizing left right with
  | nil => cases hleft
  | cons holder holders ih =>
      rw [List.flatMap_cons, List.count_append] at hcount
      cases left with
      | zero =>
          cases right with
          | zero => rfl
          | succ right =>
              cases hleft
              have hhere := List.count_pos_iff.2 hitemLeft
              have hrest : holders[right]? = some b := hright
              have hthere := count_flatMap_pos items hrest hitemRight
              omega
      | succ left =>
          cases right with
          | zero =>
              cases hright
              have hhere := List.count_pos_iff.2 hitemRight
              have hrest : holders[left]? = some a := hleft
              have hthere := count_flatMap_pos items hrest hitemLeft
              omega
          | succ right => rw [ih (by omega) hleft hright]

end Talea
