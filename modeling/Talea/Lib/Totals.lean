import Talea.Lib.HashMap
import Talea.Lib.Int64
import Talea.Lib.SortedPairs

/-!
# Totals

What a table of accounts adds up to: the sum of a weight over the entries of a
map, the entries in the order of their keys, and sums of amounts that are not
negative in a register that saturates.
-/

namespace Talea.HashMap

variable {κ υ : Type*}

/-- The sum of a weight over the values. -/
def total (weight : υ → ℤ) (map : HashMap κ υ) : ℤ :=
  (map.entries.map fun entry => weight entry.2).sum

@[simp]
theorem total_empty (weight : υ → ℤ) : total weight (∅ : HashMap κ υ) = 0 := rfl

section Insert

variable [DecidableEq κ]

/-- A new key adds the weight of its value. -/
theorem total_insert_of_notMem (weight : υ → ℤ) {map : HashMap κ υ} {key : κ}
    (hnew : key ∉ map) (value : υ) :
    total weight (map.insert key value) = total weight map + weight value := by
  unfold total
  rw [Finmap.entries_insert_of_notMem hnew, Multiset.map_cons, Multiset.sum_cons, add_comm]

theorem insert_erase {map : HashMap κ υ} (key : κ) (value : υ) :
    (map.erase key).insert key value = map.insert key value := by
  refine Finmap.ext_lookup fun other => ?_
  rw [lookup_insert_ite, lookup_insert_ite, lookup_erase_ite]
  split <;> rfl

theorem insert_of_lookup {map : HashMap κ υ} {key : κ} {value : υ}
    (hlookup : map.lookup key = some value) : map.insert key value = map := by
  refine Finmap.ext_lookup fun other => ?_
  rw [lookup_insert_ite]
  split
  · next hsame => rw [hsame, hlookup]
  · rfl

/-- A key that is there changes the total by the difference of the weights. -/
theorem total_insert_of_lookup (weight : υ → ℤ) {map : HashMap κ υ} {key : κ} {old : υ}
    (hlookup : map.lookup key = some old) (value : υ) :
    total weight (map.insert key value) = total weight map - weight old + weight value := by
  have hgone : key ∉ map.erase key := Finmap.notMem_erase_self
  have hold : total weight map = total weight (map.erase key) + weight old := by
    rw [← total_insert_of_notMem weight hgone, insert_erase, insert_of_lookup hlookup]
  rw [← insert_erase, total_insert_of_notMem weight hgone, hold]
  ring

end Insert

/-! ## Entries in the order of their keys -/

section Sorted

variable [LinearOrder κ]

theorem sort_eq_of_perm {left right : AList fun _ : κ => υ}
    (hperm : left.entries.Perm right.entries) :
    SortedPairs.sort (left.entries.map fun entry => (entry.1, entry.2)) =
      SortedPairs.sort (right.entries.map fun entry => (entry.1, entry.2)) := by
  have hascending : ∀ pairs : AList fun _ : κ => υ, SortedPairs.Ascending
      (SortedPairs.sort (pairs.entries.map fun entry => (entry.1, entry.2))) := by
    intro pairs
    refine SortedPairs.ascending_sort ?_
    rw [List.map_map]
    exact pairs.nodupKeys
  have hentries := hperm.map fun entry => (entry.1, entry.2)
  have hsame := ((SortedPairs.sort_perm _).trans hentries).trans (SortedPairs.sort_perm _).symm
  exact hsame.eq_of_pairwise (fun a b _ _ hab hba => absurd (hab.trans hba) (lt_irrefl _))
    (hascending left) (hascending right)

/-- The entries by ascending keys, however the map iterates over them. -/
def sorted (map : HashMap κ υ) : List (κ × υ) :=
  map.liftOn (fun pairs => SortedPairs.sort (pairs.entries.map fun entry => (entry.1, entry.2)))
    fun _ _ => sort_eq_of_perm

@[simp]
theorem mem_sorted [DecidableEq κ] {map : HashMap κ υ} {key : κ} {value : υ} :
    (key, value) ∈ map.sorted ↔ map.lookup key = some value := by
  induction map using Finmap.induction_on with
  | H pairs =>
      rw [sorted, Finmap.liftOn_toFinmap, SortedPairs.mem_sort, Finmap.lookup_toFinmap]
      simp only [List.mem_map, Prod.mk.injEq]
      rw [← Option.mem_def, AList.mem_lookup_iff]
      constructor
      · rintro ⟨⟨k, v⟩, hmem, rfl, rfl⟩
        exact hmem
      · intro hmem
        exact ⟨⟨key, value⟩, hmem, rfl, rfl⟩

end Sorted

end Talea.HashMap

namespace Talea.I64

/-! ## Saturating totals -/

/-- A total that is not negative, as a saturating register shows it. -/
def saturated (total : ℤ) : ℤ :=
  min 9223372036854775807 total

@[simp]
theorem saturated_zero : saturated 0 = 0 := rfl

/-- Saturating at every step is saturating at the end. -/
theorem saturatingAdd_saturated {total amount : ℤ} (htotal : 0 ≤ total) (hamount : 0 ≤ amount) :
    saturatingAdd (saturated total) amount = saturated (total + amount) := by
  unfold saturatingAdd saturated
  omega

end Talea.I64
