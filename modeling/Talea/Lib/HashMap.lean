import Mathlib

/-!
# Finite maps

A hash map is used here for its entries, never for an order of iteration, so
it is a `Finmap`: two maps with the same entries are equal.
-/

namespace Talea

abbrev HashMap (κ υ : Type*) := Finmap fun _ : κ => υ

namespace HashMap

variable {κ υ ω : Type*} [DecidableEq κ]

theorem lookup_insert_ite (map : HashMap κ υ) (key other : κ) (value : υ) :
    (map.insert key value).lookup other =
      if other = key then some value else map.lookup other := by
  split
  · next h => rw [h, Finmap.lookup_insert]
  · next h => rw [Finmap.lookup_insert_of_ne map h]

theorem lookup_erase_ite (map : HashMap κ υ) (key other : κ) :
    (map.erase key).lookup other = if other = key then none else map.lookup other := by
  split
  · next h => rw [h, Finmap.lookup_erase]
  · next h => rw [Finmap.lookup_erase_ne h]

/-- A key is looked up as one of the entries inserted last, or as before. -/
theorem lookup_foldl_insert (entries : List (κ × υ)) (map : HashMap κ υ) (key : κ) :
    (∃ entry ∈ entries, entry.1 = key ∧
      (entries.foldl (fun map entry => map.insert entry.1 entry.2) map).lookup key =
        some entry.2) ∨
    key ∉ entries.map Prod.fst ∧
      (entries.foldl (fun map entry => map.insert entry.1 entry.2) map).lookup key =
        map.lookup key := by
  induction entries generalizing map with
  | nil => exact Or.inr ⟨List.not_mem_nil, rfl⟩
  | cons entry entries ih =>
      rcases ih (map.insert entry.1 entry.2) with ⟨later, hlater, hkey, hlookup⟩ | ⟨hnot, hlookup⟩
      · exact Or.inl ⟨later, List.mem_cons_of_mem _ hlater, hkey, hlookup⟩
      · rw [lookup_insert_ite] at hlookup
        by_cases hkey : key = entry.1
        · rw [if_pos hkey] at hlookup
          exact Or.inl ⟨entry, List.mem_cons_self, hkey.symm, hlookup⟩
        · rw [if_neg hkey] at hlookup
          refine Or.inr ⟨?_, hlookup⟩
          rw [List.map_cons, List.mem_cons]
          exact fun h => h.elim hkey hnot

/-- A key among the entries is looked up the same whatever they are inserted
into. -/
theorem lookup_foldl_insert_of_mem {entries : List (κ × υ)} {key : κ}
    (hkey : key ∈ entries.map Prod.fst) (map other : HashMap κ υ) :
    (entries.foldl (fun map entry => map.insert entry.1 entry.2) map).lookup key =
      (entries.foldl (fun map entry => map.insert entry.1 entry.2) other).lookup key := by
  induction entries generalizing map other with
  | nil => cases hkey
  | cons entry entries ih =>
      by_cases hlater : key ∈ entries.map Prod.fst
      · exact ih hlater _ _
      · have hfirst : key = entry.1 := by simpa [hlater] using hkey
        have hlast : ∀ map : HashMap κ υ, ((entry :: entries).foldl (fun map entry =>
            map.insert entry.1 entry.2) map).lookup key = some entry.2 := by
          intro map
          rcases lookup_foldl_insert entries (map.insert entry.1 entry.2) key with
            ⟨found, hfound, rfl, -⟩ | ⟨-, hlookup⟩
          · exact absurd (List.mem_map_of_mem hfound) hlater
          · rw [lookup_insert_ite, if_pos hfirst] at hlookup
            exact hlookup
        rw [hlast, hlast]

/-- Apply a function to every value. -/
def mapVals (f : υ → ω) (map : HashMap κ υ) : HashMap κ ω :=
  Finmap.keysLookupEquiv.symm
    ⟨(map.keys, fun key => (map.lookup key).map f), fun key => by
      simp [Finmap.lookup_isSome, Finmap.mem_keys]⟩

@[simp]
theorem lookup_mapVals (f : υ → ω) (map : HashMap κ υ) (key : κ) :
    (mapVals f map).lookup key = (map.lookup key).map f := by
  rw [mapVals, Finmap.keysLookupEquiv_symm_apply_lookup]

theorem mapVals_mapVals_of_leftInverse {f : υ → ω} {g : ω → υ} (hleft : Function.LeftInverse g f)
    (map : HashMap κ υ) : mapVals g (mapVals f map) = map := by
  refine Finmap.ext_lookup fun key => ?_
  simp [Option.map_map, hleft.comp_eq_id]

end HashMap

end Talea
