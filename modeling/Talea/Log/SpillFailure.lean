import Talea.Log.BinaryRuntime
import Talea.Log.IdemIndex

/-!
# A spill that fails

The oldest half of the hot map is drained and sorted by key before the new run
is encoded and written.  When that fails the drained keys go back into the map
and to the front of its order, but as they were sorted: from the least to the
greatest, or backwards when the run could not be encoded.
-/

namespace Talea.Log

namespace TieredIdem

variable {rt : Runtime} {io : SpillIo}

/-- The keys a flush drains. -/
def oldestHalf (idem : TieredIdem) : List String :=
  idem.order.take (idem.hot.keys.card / 2)

/-- The order in which a failed flush puts its keys back. -/
def SortedBack (io : SpillIo) (keys : List String) : Prop :=
  if io.encodes then keys.Pairwise (· < ·) else keys.Pairwise (· > ·)

/-- Drained keys that are put back leave the hot map as it was. -/
theorem putBack_drain_eq {idem : TieredIdem} {n : ℕ}
    {spilled : List (String × CommittedRec)}
    (hspilled : spilled.Perm (drain n idem.order idem.hot).1) :
    putBack spilled (drain n idem.order idem.hot).2.2 = idem.hot := by
  obtain ⟨-, -, -, hpairs, hrest⟩ := drain_general n idem.order idem.hot
  refine lookup_putBack (fun pair hpair => hpairs pair (hspilled.mem_iff.1 hpair)) ?_
  intro key hkey
  rw [hrest, if_neg fun hmem => hkey ((hspilled.map Prod.fst).mem_iff.2 hmem)]

theorem eq_of_ascending {left right : List String} (hperm : left.Perm right)
    (hleft : left.Pairwise (· < ·)) (hright : right.Pairwise (· < ·)) : left = right :=
  hperm.eq_of_pairwise (fun _ _ _ _ hlt hgt => absurd hgt hlt.asymm) hleft hright

/-- Sorting drained keys is putting the oldest half in ascending order. -/
theorem keys_sort_drain_eq_iff {n : ℕ} {order keys : List String}
    {hot : HashMap String CommittedRec} (hkeys : keys.Perm (order.take n))
    (hascending : keys.Pairwise (· < ·)) :
    (SortedPairs.sort (drain n order hot).1).map Prod.fst = keys ↔
      ∀ key ∈ order.take n, key ∈ hot := by
  obtain ⟨-, hsub, hnodup, hpairs, -⟩ := drain_general n order hot
  have hsort := (SortedPairs.sort_perm (drain n order hot).1).map Prod.fst
  constructor
  · intro heq key hkey
    rw [← hkeys.mem_iff, ← heq, hsort.mem_iff] at hkey
    obtain ⟨pair, hpair, rfl⟩ := List.mem_map.1 hkey
    exact Finmap.mem_of_lookup_eq_some (hpairs pair hpair)
  · intro hmem
    have htake : (order.take n).Nodup :=
      hkeys.nodup_iff.1 (hascending.imp fun {_ _} hlt => hlt.ne)
    rw [keys_drain htake hmem] at hsort
    refine eq_of_ascending (hsort.trans hkeys.symm) ?_ hascending
    exact List.pairwise_map.2 (SortedPairs.ascending_sort hnodup)

/-- A failed flush changes nothing but the front of the order. -/
theorem flushSpill_failed (hfails : io.encodes = false ∨ io.write ≠ .written)
    (idem : TieredIdem) (dir : RunDir) :
    (idem.flushSpill rt io dir).1 =
      let keys := (SortedPairs.sort
        (drain (idem.hot.keys.card / 2) idem.order idem.hot).1).map Prod.fst
      { idem with
        order := (if io.encodes then keys else keys.reverse) ++
          idem.order.drop (idem.hot.keys.card / 2) } := by
  have horder := (drain_general (idem.hot.keys.card / 2) idem.order idem.hot).1
  unfold flushSpill
  dsimp only
  by_cases hzero : idem.hot.keys.card / 2 = 0
  · simp [hzero, drain, SortedPairs.sort]
  rw [if_neg hzero]
  by_cases hnone : (drain (idem.hot.keys.card / 2) idem.order idem.hot).1 = []
  · have hback : putBack [] (drain (idem.hot.keys.card / 2) idem.order idem.hot).2.2 =
        idem.hot := putBack_drain_eq (by rw [hnone])
    rw [putBack, List.foldl_nil] at hback
    rw [if_pos hnone, hnone, ← horder, hback]
    simp [SortedPairs.sort]
  rw [if_neg hnone]
  have hperm := SortedPairs.sort_perm (drain (idem.hot.keys.card / 2) idem.order idem.hot).1
  by_cases hencodes : io.encodes
  · rw [if_pos hencodes, if_pos hencodes, putBack_drain_eq ((List.reverse_perm _).trans hperm),
      horder]
    cases hwrite : io.write with
    | written =>
        exfalso
        rcases hfails with hbad | hbad
        · rw [hbad] at hencodes
          cases hencodes
        · exact hbad hwrite
    | failed => rfl
    | renamed => rfl
  · rw [if_neg hencodes, if_neg hencodes, putBack_drain_eq hperm, horder]

/-- A failed flush leaves the index as it was exactly when the oldest half, all
of it hot, has been inserted in the order in which it is put back. -/
theorem failed_flush_restores_iff (rt : Runtime) (io : SpillIo)
    (hfails : io.encodes = false ∨ io.write ≠ .written) (idem : TieredIdem) (dir : RunDir) :
    let after := (idem.flushSpill rt io dir).1
    (after.hot = idem.hot ∧ after.order = idem.order ∧ after.runs = idem.runs ∧
        after.bloom = idem.bloom) ↔
      (∀ key ∈ idem.oldestHalf, key ∈ idem.hot) ∧ SortedBack io idem.oldestHalf := by
  intro after
  have hafter : after = _ := flushSpill_failed hfails idem dir
  have hsplit := List.take_append_drop (idem.hot.keys.card / 2) idem.order
  have hascending : ((SortedPairs.sort
      (drain (idem.hot.keys.card / 2) idem.order idem.hot).1).map Prod.fst).Pairwise (· < ·) :=
    List.pairwise_map.2 (SortedPairs.ascending_sort
      (drain_general (idem.hot.keys.card / 2) idem.order idem.hot).2.2.1)
  rw [hafter]
  dsimp only
  simp only [true_and, and_true]
  conv_lhs => rhs; rw [← hsplit]
  rw [List.append_left_inj, oldestHalf, SortedBack]
  by_cases hencodes : io.encodes
  · rw [if_pos hencodes, if_pos hencodes]
    constructor
    · intro heq
      rw [heq] at hascending
      exact ⟨(keys_sort_drain_eq_iff (List.Perm.refl _) hascending).1 heq, hascending⟩
    · rintro ⟨hmem, hsorted⟩
      exact (keys_sort_drain_eq_iff (List.Perm.refl _) hsorted).2 hmem
  · rw [if_neg hencodes, if_neg hencodes, List.reverse_eq_iff]
    constructor
    · intro heq
      rw [heq] at hascending
      exact ⟨(keys_sort_drain_eq_iff (List.reverse_perm _) hascending).1 heq,
        List.pairwise_reverse.1 hascending⟩
    · rintro ⟨hmem, hsorted⟩
      exact (keys_sort_drain_eq_iff (List.reverse_perm _) (List.pairwise_reverse.2 hsorted)).2 hmem

end TieredIdem

namespace FullDisk

/-- A disk on which no new run can be written. -/
def io : SpillIo :=
  { SpillIo.ok with write := .failed }

/-- Four keys in an index for two, the second one first. -/
def idem : TieredIdem :=
  ["b", "a", "c", "d"].foldl (fun idem key => idem.insert key ⟨⟨1⟩, 1, 1⟩) (.withCap 2)

end FullDisk

theorem TieredIdem.failed_flush_restores_iff_fullDisk :
    let after := (FullDisk.idem.flushSpill binaryRuntime FullDisk.io ∅).1
    (after.hot = FullDisk.idem.hot ∧ after.order = FullDisk.idem.order ∧
        after.runs = FullDisk.idem.runs ∧ after.bloom = FullDisk.idem.bloom) ↔
      (∀ key ∈ FullDisk.idem.oldestHalf, key ∈ FullDisk.idem.hot) ∧
        SortedBack FullDisk.io FullDisk.idem.oldestHalf :=
  failed_flush_restores_iff binaryRuntime FullDisk.io (Or.inr (by decide)) FullDisk.idem ∅

/-- The two oldest keys come back in the other order. -/
theorem TieredIdem.failed_flush_reorders :
    FullDisk.idem.needsFlush = true ∧ FullDisk.idem.order = ["b", "a", "c", "d"] ∧
      (FullDisk.idem.flushSpill binaryRuntime FullDisk.io ∅).1.order = ["a", "b", "c", "d"] := by
  refine ⟨?_, ?_, ?_⟩
  · decide +kernel
  · decide +kernel
  · decide +kernel

end Talea.Log
