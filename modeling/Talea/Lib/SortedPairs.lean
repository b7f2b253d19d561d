import Mathlib

/-!
# Lists of pairs sorted by key

The runs of a log-structured index: pairs are collected, sorted by key, freed
of neighbours with the same key, and searched by key.  Where the keys ascend
strictly a search finds a key exactly when the list has it, and every key lies
between the first and the last one.
-/

namespace Talea.SortedPairs

variable {κ υ : Type*} [LinearOrder κ]

/-- Sort by key, keeping the order of equal keys. -/
def sort (pairs : List (κ × υ)) : List (κ × υ) :=
  pairs.insertionSort fun left right => left.1 ≤ right.1

/-- Of several neighbours with one key the first stays. -/
def dedup (pairs : List (κ × υ)) : List (κ × υ) :=
  pairs.destutter fun left right => left.1 ≠ right.1

/-- The value of the first pair with this key.  Where the keys ascend strictly
there is at most one such pair, the one a binary search finds. -/
def search (pairs : List (κ × υ)) (key : κ) : Option υ :=
  (pairs.find? fun pair => pair.1 = key).map Prod.snd

/-- The keys ascend strictly. -/
def Ascending (pairs : List (κ × υ)) : Prop :=
  pairs.Pairwise fun left right => left.1 < right.1

/-! ## Sorting -/

@[simp]
theorem mem_sort {pairs : List (κ × υ)} {pair : κ × υ} : pair ∈ sort pairs ↔ pair ∈ pairs :=
  List.mem_insertionSort _

theorem sort_perm (pairs : List (κ × υ)) : (sort pairs).Perm pairs :=
  List.perm_insertionSort _ pairs

theorem sort_eq_nil {pairs : List (κ × υ)} : sort pairs = [] ↔ pairs = [] := by
  constructor
  · intro h
    simpa [h] using (sort_perm pairs).symm
  · rintro rfl
    rfl

theorem pairwise_sort (pairs : List (κ × υ)) :
    (sort pairs).Pairwise fun left right => left.1 ≤ right.1 :=
  have : Std.Total fun left right : κ × υ => left.1 ≤ right.1 :=
    ⟨fun left right => le_total left.1 right.1⟩
  have : IsTrans (κ × υ) fun left right => left.1 ≤ right.1 :=
    ⟨fun _ _ _ => le_trans⟩
  List.pairwise_insertionSort _ pairs

theorem ascending_sort {pairs : List (κ × υ)} (hnodup : (pairs.map Prod.fst).Nodup) :
    Ascending (sort pairs) := by
  have hkeys : ((sort pairs).map Prod.fst).Nodup :=
    ((sort_perm pairs).map Prod.fst).nodup_iff.2 hnodup
  exact ((pairwise_sort pairs).and (List.pairwise_map.1 hkeys)).imp
    fun {_ _} h => lt_of_le_of_ne h.1 h.2

/-! ## Removing duplicates -/

theorem mem_of_mem_dedup {pairs : List (κ × υ)} {pair : κ × υ} (hmem : pair ∈ dedup pairs) :
    pair ∈ pairs :=
  (List.destutter_sublist _ pairs).subset hmem

theorem exists_mem_destutter' (head : κ × υ) (pairs : List (κ × υ)) {pair : κ × υ}
    (hmem : pair ∈ head :: pairs) :
    ∃ kept ∈ pairs.destutter' (fun left right => left.1 ≠ right.1) head, kept.1 = pair.1 := by
  induction pairs generalizing head pair with
  | nil => exact ⟨pair, by simpa using hmem, rfl⟩
  | cons next pairs ih =>
      by_cases hne : head.1 ≠ next.1
      · rw [List.destutter'_cons, if_pos hne]
        rcases List.mem_cons.1 hmem with rfl | hrest
        · exact ⟨pair, List.mem_cons_self, rfl⟩
        · obtain ⟨kept, hkept, hkey⟩ := ih next hrest
          exact ⟨kept, List.mem_cons_of_mem _ hkept, hkey⟩
      · rw [List.destutter'_cons, if_neg hne]
        rw [not_ne_iff] at hne
        rcases List.mem_cons.1 hmem with rfl | hrest
        · exact ih pair List.mem_cons_self
        · rcases List.mem_cons.1 hrest with rfl | hlater
          · obtain ⟨kept, hkept, hkey⟩ := ih head List.mem_cons_self
            exact ⟨kept, hkept, hkey.trans hne⟩
          · exact ih head (List.mem_cons_of_mem _ hlater)

/-- Every key stays. -/
theorem exists_mem_dedup {pairs : List (κ × υ)} {pair : κ × υ} (hmem : pair ∈ pairs) :
    ∃ kept ∈ dedup pairs, kept.1 = pair.1 := by
  cases pairs with
  | nil => simp at hmem
  | cons head pairs =>
      rw [dedup, List.destutter_cons']
      exact exists_mem_destutter' head pairs hmem

/-- Sorting and then removing neighbours makes the keys ascend strictly. -/
theorem ascending_dedup_sort (pairs : List (κ × υ)) : Ascending (dedup (sort pairs)) := by
  have hchain : (dedup (sort pairs)).IsChain fun left right => left.1 ≠ right.1 :=
    List.isChain_destutter _ (sort pairs)
  have hle : (dedup (sort pairs)).Pairwise fun left right => left.1 ≤ right.1 :=
    (pairwise_sort pairs).sublist (List.destutter_sublist _ _)
  have : IsTrans (κ × υ) fun left right => left.1 < right.1 := ⟨fun _ _ _ => lt_trans⟩
  refine List.isChain_iff_pairwise.1 (List.isChain_iff_getElem.2 fun idx hidx => ?_)
  exact lt_of_le_of_ne (List.pairwise_iff_getElem.1 hle idx (idx + 1) _ hidx (by omega))
    (List.isChain_iff_getElem.1 hchain idx hidx)

/-! ## Searching -/

theorem Ascending.nodup_keys {pairs : List (κ × υ)} (hascending : Ascending pairs) :
    (pairs.map Prod.fst).Nodup :=
  List.pairwise_map.2 (hascending.imp fun {_ _} hlt => hlt.ne)

theorem search_eq_none {pairs : List (κ × υ)} {key : κ} :
    search pairs key = none ↔ ∀ pair ∈ pairs, pair.1 ≠ key := by
  simp [search]

theorem search_eq_some {pairs : List (κ × υ)} (hnodup : (pairs.map Prod.fst).Nodup)
    {key : κ} {value : υ} : search pairs key = some value ↔ (key, value) ∈ pairs := by
  induction pairs with
  | nil => simp [search]
  | cons head pairs ih =>
      obtain ⟨hnotin, hrest⟩ := List.nodup_cons.1 hnodup
      have ih := ih hrest
      by_cases hkey : head.1 = key
      · have hfind : search (head :: pairs) key = some head.2 := by simp [search, hkey]
        rw [hfind, List.mem_cons]
        constructor
        · intro hvalue
          exact Or.inl (Prod.ext hkey.symm (Option.some.inj hvalue).symm)
        · rintro (rfl | hmem)
          · rfl
          · exact absurd (List.mem_map_of_mem (f := Prod.fst) hmem) (hkey ▸ hnotin)
      · have hfind : search (head :: pairs) key = search pairs key := by simp [search, hkey]
        rw [hfind, ih, List.mem_cons]
        constructor
        · exact Or.inr
        · rintro (rfl | hmem)
          · exact absurd rfl hkey
          · exact hmem

/-- The first key is the least one. -/
theorem Ascending.head_le {pairs : List (κ × υ)} (hascending : Ascending pairs)
    {head pair : κ × υ} (hhead : pairs.head? = some head) (hmem : pair ∈ pairs) :
    head.1 ≤ pair.1 := by
  obtain ⟨rest, rfl⟩ := List.head?_eq_some_iff.1 hhead
  rcases List.mem_cons.1 hmem with rfl | hrest
  · exact le_rfl
  · exact ((List.pairwise_cons.1 hascending).1 pair hrest).le

/-- The last key is the greatest one. -/
theorem Ascending.le_getLast {pairs : List (κ × υ)} (hascending : Ascending pairs)
    {last pair : κ × υ} (hlast : pairs.getLast? = some last) (hmem : pair ∈ pairs) :
    pair.1 ≤ last.1 := by
  obtain ⟨before, rfl⟩ := List.getLast?_eq_some_iff.1 hlast
  rcases List.mem_append.1 hmem with hbefore | hsame
  · exact ((List.pairwise_append.1 hascending).2.2 pair hbefore last (by simp)).le
  · rw [List.mem_singleton.1 hsame]

end Talea.SortedPairs
