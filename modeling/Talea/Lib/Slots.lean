import Mathlib

/-!
# Slots that are filled in any order

Results come in one by one, each with the place it is for.  Whatever the order
they come in, a place holds the result for it in the end; so a list of futures
is answered in the order of the list.
-/

namespace Talea.Slots

variable {β : Type}

/-- Every result into its slot, one after the other. -/
def fill (slots : List (Option β)) (results : List (ℕ × β)) : List (Option β) :=
  results.foldl (fun slots result => slots.set result.1 (some result.2)) slots

/-- The values of futures that complete in the given order, once all have. -/
def joinAll (count : ℕ) (completions : List (ℕ × β)) : Option (List β) :=
  (fill (List.replicate count none) completions).mapM id

theorem fill_cons (slots : List (Option β)) (result : ℕ × β) (results : List (ℕ × β)) :
    fill slots (result :: results) = fill (slots.set result.1 (some result.2)) results := rfl

@[simp]
theorem length_fill (slots : List (Option β)) (results : List (ℕ × β)) :
    (fill slots results).length = slots.length := by
  induction results generalizing slots with
  | nil => rfl
  | cons result results ih => rw [fill_cons, ih, List.length_set]

/-- A slot for which there is no result stays as it was. -/
theorem getElem?_fill_of_not_mem {results : List (ℕ × β)} {place : ℕ}
    (hplace : place ∉ results.map Prod.fst) (slots : List (Option β)) :
    (fill slots results)[place]? = slots[place]? := by
  induction results generalizing slots with
  | nil => rfl
  | cons result results ih =>
      rw [List.map_cons, List.mem_cons, not_or] at hplace
      rw [fill_cons, ih hplace.2, List.getElem?_set_ne (Ne.symm hplace.1)]

/-- A slot for which there is one result holds it. -/
theorem getElem?_fill_of_mem {results : List (ℕ × β)} (hnodup : (results.map Prod.fst).Nodup)
    {result : ℕ × β} (hmem : result ∈ results) {slots : List (Option β)}
    (hlt : result.1 < slots.length) : (fill slots results)[result.1]? = some (some result.2) := by
  induction results generalizing slots with
  | nil => cases hmem
  | cons head results ih =>
      rw [List.map_cons, List.nodup_cons] at hnodup
      rw [fill_cons]
      rcases List.mem_cons.1 hmem with rfl | hmem
      · rw [getElem?_fill_of_not_mem hnodup.1, List.getElem?_set_self hlt]
      · exact ih hnodup.2 hmem (by rwa [List.length_set])

theorem mapM_id_map_some (values : List β) : (values.map some).mapM id = some values := by
  induction values with
  | nil => rfl
  | cons value values ih =>
      rw [List.map_cons, List.mapM_cons, ih]
      rfl

/-- Futures are answered in their own order, whatever order they complete in. -/
theorem joinAll_of_perm {values : List β} {completions : List (ℕ × β)}
    (hperm : completions.Perm (values.mapIdx Prod.mk)) :
    joinAll values.length completions = some values := by
  have hkeys : (values.mapIdx Prod.mk).map Prod.fst = List.range values.length := by
    refine List.ext_getElem (by simp) fun place hleft hright => ?_
    simp
  have hnodup : (completions.map Prod.fst).Nodup := by
    rw [(hperm.map Prod.fst).nodup_iff, hkeys]
    exact List.nodup_range
  have hfill : fill (List.replicate values.length none) completions = values.map some := by
    refine List.ext_getElem? fun place => ?_
    by_cases hplace : place < values.length
    · have hmem : (place, values[place]) ∈ completions := by
        rw [hperm.mem_iff, List.mem_iff_getElem]
        exact ⟨place, by simpa using hplace, by simp⟩
      rw [getElem?_fill_of_mem hnodup hmem (by rwa [List.length_replicate])]
      simp [hplace]
    · have hle := Nat.le_of_not_lt hplace
      rw [List.getElem?_eq_none (by simpa using hle), List.getElem?_eq_none (by simpa using hle)]
  rw [joinAll, hfill, mapM_id_map_some]

end Talea.Slots
