import Mathlib

/-!
# Partition points

A binary search for the end of the elements that hold a predicate, in a list
where these come first.  A list that is kept in blocks is searched through the
last elements of the blocks, then inside one block.
-/

namespace Talea

variable {α : Type*} {holds : α → Bool} {list : List α}

/-- The elements that hold the predicate come first. -/
def Partitioned (holds : α → Bool) (list : List α) : Prop :=
  list.Pairwise fun left right => holds right → holds left

/-- Halve the window from `low` to `high`, `fuel` times at most. -/
def partitionPointIn (holds : α → Bool) (list : List α) : ℕ → ℕ → ℕ → ℕ
  | 0, low, _ => low
  | fuel + 1, low, high =>
      if low < high then
        let mid := (low + high) / 2
        if list[mid]?.any holds then partitionPointIn holds list fuel (mid + 1) high
        else partitionPointIn holds list fuel low mid
      else low

/-- The index of the first element that does not hold the predicate. -/
def partitionPoint (holds : α → Bool) (list : List α) : ℕ :=
  partitionPointIn holds list list.length 0 list.length

namespace Partitioned

theorem nil : Partitioned holds [] :=
  List.Pairwise.nil

theorem left_of_append {more : List α} (hpart : Partitioned holds (list ++ more)) :
    Partitioned holds list :=
  (List.pairwise_append.1 hpart).1

theorem right_of_append {more : List α} (hpart : Partitioned holds (list ++ more)) :
    Partitioned holds more :=
  (List.pairwise_append.1 hpart).2.1

/-- The elements in front of one that holds the predicate hold it too. -/
theorem all_of_getLast {hne : list ≠ []} (hpart : Partitioned holds list)
    (hlast : holds (list.getLast hne)) : ∀ element ∈ list, holds element := by
  intro element helement
  rw [← List.dropLast_append_getLast hne] at hpart helement
  rcases List.mem_append.1 helement with hfirst | hself
  · exact (List.pairwise_append.1 hpart).2.2 element hfirst _ (List.mem_singleton_self _) hlast
  · rw [List.mem_singleton.1 hself]
    exact hlast

theorem any_getElem? (hpart : Partitioned holds list) (idx : ℕ) :
    list[idx]?.any holds = true ↔ idx < (list.takeWhile holds).length := by
  induction list generalizing idx with
  | nil => simp
  | cons head tail ih =>
      obtain ⟨hhead, htail⟩ := List.pairwise_cons.1 hpart
      by_cases hholds : holds head
      · rw [List.takeWhile_cons_of_pos hholds, List.length_cons]
        cases idx with
        | zero => simpa using hholds
        | succ idx =>
            rw [List.getElem?_cons_succ, ih htail]
            omega
      · rw [List.takeWhile_cons_of_neg hholds]
        constructor
        · intro hany
          exfalso
          cases hget : (head :: tail)[idx]? with
          | none => simp [hget] at hany
          | some element =>
              rw [hget] at hany
              rcases List.mem_cons.1 (List.mem_of_getElem? hget) with rfl | hlater
              · exact hholds hany
              · exact hholds (hhead element hlater hany)
        · intro hlt
          exact absurd hlt (Nat.not_lt_zero _)

/-- Nothing behind the first part holds the predicate. -/
theorem takeWhile_eq_filter (hpart : Partitioned holds list) :
    list.takeWhile holds = list.filter holds := by
  induction list with
  | nil => rfl
  | cons head tail ih =>
      obtain ⟨hhead, htail⟩ := List.pairwise_cons.1 hpart
      by_cases hholds : holds head
      · rw [List.takeWhile_cons_of_pos hholds, List.filter_cons_of_pos hholds, ih htail]
      · rw [List.takeWhile_cons_of_neg hholds, List.filter_cons_of_neg hholds,
          List.filter_eq_nil_iff.2 fun element helement hlater =>
            hholds (hhead element helement hlater)]

/-- The partition point stays in the window, which gets smaller. -/
theorem partitionPointIn_eq (hpart : Partitioned holds list) {fuel low high : ℕ}
    (hlow : low ≤ (list.takeWhile holds).length) (hhigh : (list.takeWhile holds).length ≤ high)
    (hfuel : high - low ≤ fuel) :
    partitionPointIn holds list fuel low high = (list.takeWhile holds).length := by
  induction fuel generalizing low high with
  | zero =>
      rw [partitionPointIn]
      omega
  | succ fuel ih =>
      rw [partitionPointIn]
      by_cases hlt : low < high
      · rw [if_pos hlt]
        dsimp only
        by_cases hany : list[(low + high) / 2]?.any holds
        · have hmid := (hpart.any_getElem? _).1 hany
          rw [if_pos hany]
          exact ih (by omega) hhigh (by omega)
        · have hmid := (hpart.any_getElem? _).not.1 hany
          rw [if_neg hany]
          exact ih hlow (by omega) (by omega)
      · rw [if_neg hlt]
        omega

theorem partitionPoint_eq (hpart : Partitioned holds list) :
    partitionPoint holds list = (list.takeWhile holds).length :=
  hpart.partitionPointIn_eq (Nat.zero_le _) (List.takeWhile_prefix holds).length_le (Nat.sub_le _ _)

end Partitioned

/-! ## Blocks -/

section Blocks

variable {blocks : List (List α)} {size : ℕ}

theorem length_flatten_blocks (hsize : ∀ block ∈ blocks, block.length = size) :
    blocks.flatten.length = blocks.length * size := by
  rw [List.length_flatten, List.map_congr_left hsize, List.map_const', List.sum_replicate,
    smul_eq_mul]

/-- The elements from some place inside a block on. -/
theorem drop_flatten_blocks (hsize : ∀ block ∈ blocks, block.length = size) {number within : ℕ}
    {block : List α} (hblock : blocks[number]? = some block) (hwithin : within ≤ size) :
    blocks.flatten.drop (number * size + within) =
      block.drop within ++ (blocks.drop (number + 1)).flatten := by
  have hbefore : (blocks.take number).flatten.length = number * size := by
    rw [length_flatten_blocks fun other hother => hsize other (List.mem_of_mem_take hother),
      List.length_take_of_le (List.getElem?_eq_some_iff.1 hblock).1.le]
  have hsplit : blocks = blocks.take number ++ block :: blocks.drop (number + 1) := by
    obtain ⟨hlt, rfl⟩ := List.getElem?_eq_some_iff.1 hblock
    rw [List.cons_getElem_drop_succ, List.take_append_drop]
  have hlen : block.length = size := hsize block (List.mem_of_getElem? hblock)
  conv_lhs => rw [hsplit]
  rw [List.flatten_append, List.flatten_cons, ← hbefore, List.drop_append, Nat.add_sub_cancel_left,
    List.drop_eq_nil_of_le (Nat.le_add_right _ _), List.nil_append,
    List.drop_append_of_le_length (by omega)]

/-- An element is found by the number of its block and its place there. -/
theorem getElem?_flatten_blocks (hsize : ∀ block ∈ blocks, block.length = size)
    (hpos : 0 < size) (idx : ℕ) :
    blocks.flatten[idx]? = blocks[idx / size]?.bind fun block => block[idx % size]? := by
  cases hblock : blocks[idx / size]? with
  | none =>
      rw [Option.bind_none, List.getElem?_eq_none_iff, length_flatten_blocks hsize,
        ← Nat.le_div_iff_mul_le hpos]
      exact List.getElem?_eq_none_iff.1 hblock
  | some block =>
      have hdrop := drop_flatten_blocks hsize hblock (Nat.mod_lt idx hpos).le
      rw [Nat.div_add_mod'] at hdrop
      have hlen : block.length = size := hsize block (List.mem_of_getElem? hblock)
      have hplace := Nat.mod_lt idx hpos
      have hhead := congrArg (List.head? ·) hdrop
      rw [List.head?_drop, List.head?_append_of_ne_nil _ (by
        rw [← List.length_pos_iff, List.length_drop]; omega), List.head?_drop] at hhead
      rw [hhead, Option.bind_some]

end Blocks

/-- The last element of the block holds the predicate. -/
def lastHolds (holds : α → Bool) (block : List α) : Bool :=
  block.getLast?.any holds

variable {blocks : List (List α)} {rest : List α}

/-- A block is passed over when its last element holds the predicate. -/
theorem Partitioned.takeWhile_block {block : List α}
    (hpart : Partitioned holds (block ++ rest)) (hne : block ≠ []) :
    (block ++ rest).takeWhile holds =
      if lastHolds holds block then block ++ rest.takeWhile holds else block.takeWhile holds := by
  have hlast : lastHolds holds block = holds (block.getLast hne) := by
    rw [lastHolds, List.getLast?_eq_some_getLast hne]
    rfl
  rw [hlast]
  split
  · next hholds =>
      exact List.takeWhile_append_of_pos (hpart.left_of_append.all_of_getLast hholds)
  · next hholds =>
      rw [List.takeWhile_append, if_neg]
      intro hlen
      have hall := List.takeWhile_eq_self_iff.1 ((List.takeWhile_prefix holds).eq_of_length hlen)
      exact hholds (hall _ (List.getLast_mem hne))

/-- The blocks are partitioned by their last elements. -/
theorem Partitioned.inBlocks (hpart : Partitioned holds (blocks.flatten ++ rest))
    (hne : ∀ block ∈ blocks, block ≠ []) : Partitioned (lastHolds holds) blocks := by
  have hflat := hpart.left_of_append
  clear hpart
  induction blocks with
  | nil => exact .nil
  | cons block blocks ih =>
      obtain ⟨hblock, hlater⟩ := List.forall_mem_cons.1 hne
      rw [List.flatten_cons] at hflat
      refine List.pairwise_cons.2 ⟨fun other hother hholds => ?_,
        ih hlater hflat.right_of_append⟩
      have hother' := hlater other hother
      rw [lastHolds, List.getLast?_eq_some_getLast hother'] at hholds
      rw [lastHolds, List.getLast?_eq_some_getLast hblock]
      exact (List.pairwise_append.1 hflat).2.2 _ (List.getLast_mem hblock) _
        (List.mem_flatten.2 ⟨other, hother, List.getLast_mem hother'⟩) hholds

/-- The partition point of a list in blocks of one size lies in the first block
whose last element does not hold the predicate, or behind all blocks. -/
theorem Partitioned.length_takeWhile_blocks {size : ℕ}
    (hpart : Partitioned holds (blocks.flatten ++ rest))
    (hsize : ∀ block ∈ blocks, block.length = size) (hpos : 0 < size) :
    ((blocks.flatten ++ rest).takeWhile holds).length =
      (blocks.takeWhile (lastHolds holds)).length * size +
        match blocks[(blocks.takeWhile (lastHolds holds)).length]? with
        | some block => (block.takeWhile holds).length
        | none => (rest.takeWhile holds).length := by
  induction blocks with
  | nil => simp
  | cons block blocks ih =>
      obtain ⟨hblock, hlater⟩ := List.forall_mem_cons.1 hsize
      have hne : block ≠ [] := by
        rintro rfl
        simp at hblock
        omega
      rw [List.flatten_cons, List.append_assoc] at hpart ⊢
      rw [hpart.takeWhile_block hne]
      by_cases hholds : lastHolds holds block
      · rw [if_pos hholds, List.takeWhile_cons_of_pos hholds, List.length_append,
          ih hpart.right_of_append hlater, hblock, List.length_cons, List.getElem?_cons_succ]
        ring
      · rw [if_neg hholds, List.takeWhile_cons_of_neg hholds]
        simp

end Talea
