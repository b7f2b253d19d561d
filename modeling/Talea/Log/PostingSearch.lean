import Talea.Lib.PartitionPoint
import Talea.Log.Snapshot

/-!
# Searching a posting history

A history is searched by time or by seq, chunk by chunk and then inside one
chunk.  What is found is what a search of the flat sequence finds.
-/

namespace Talea.Log

namespace PostingIndex

/-- Global index of the first entry that does not hold the predicate.  The
chunks are searched by their last entries. -/
def partitionPointBy (index : PostingIndex) (holds : PostingEntry → Bool) : ℕ :=
  let chunkIdx := partitionPoint (lastHolds holds) index.sealed
  match index.sealed[chunkIdx]? with
  | some chunk => chunkIdx * chunkLen + partitionPoint holds chunk
  | none => index.sealed.length * chunkLen + partitionPoint holds index.tail

/-- Global index of the first entry behind an instant. -/
def partitionPointAt (index : PostingIndex) (time : Int) : ℕ :=
  index.partitionPointBy fun entry => entry.at' ≤ time

/-- Global index of the first entry behind a seq. -/
def partitionPointSeq (index : PostingIndex) (after : Int) : ℕ :=
  index.partitionPointBy fun entry => entry.seq ≤ after

def get (index : PostingIndex) (idx : ℕ) : Option PostingEntry :=
  if idx < index.sealed.length * chunkLen then
    index.sealed[idx / chunkLen]?.bind fun chunk => chunk[idx % chunkLen]?
  else index.tail[idx - index.sealed.length * chunkLen]?

/-- The entries from a global index on. -/
def iterFrom (index : PostingIndex) (idx : ℕ) : List PostingEntry :=
  let sealedTotal := index.sealed.length * chunkLen
  let sealedEntries :=
    if idx < sealedTotal then
      (index.sealed.drop (idx / chunkLen)).zipIdx.flatMap fun (chunk, ci) =>
        chunk.drop (if ci = 0 then idx % chunkLen else 0)
    else []
  sealedEntries ++ index.tail.drop (min (idx - sealedTotal) index.tail.length)

variable (index : PostingIndex)

theorem length_sealed : index.sealed.flatten.length = index.sealed.length * chunkLen :=
  length_flatten_blocks index.sealed_full

theorem ne_nil_of_mem_sealed {chunk : List PostingEntry} (hchunk : chunk ∈ index.sealed) :
    chunk ≠ [] := by
  rintro rfl
  have hlen := index.sealed_full [] hchunk
  have := chunkLen_pos
  simp at hlen
  omega

theorem partitionPointBy_eq {holds : PostingEntry → Bool}
    (hpart : Partitioned holds index.flat) :
    index.partitionPointBy holds = (index.flat.takeWhile holds).length := by
  have hchunks : Partitioned (lastHolds holds) index.sealed :=
    Partitioned.inBlocks hpart fun _ => index.ne_nil_of_mem_sealed
  have hwhole := Partitioned.length_takeWhile_blocks hpart index.sealed_full chunkLen_pos
  rw [flat, hwhole, partitionPointBy, hchunks.partitionPoint_eq]
  cases hchunk : index.sealed[(index.sealed.takeWhile (lastHolds holds)).length]? with
  | some chunk =>
      have hmem := List.mem_of_getElem? hchunk
      obtain ⟨before, after, hsplit⟩ := List.append_of_mem hmem
      have hinside : Partitioned holds chunk := by
        have hsealed := hpart.left_of_append
        rw [hsplit, List.flatten_append, List.flatten_cons] at hsealed
        exact hsealed.right_of_append.left_of_append
      dsimp only
      rw [hinside.partitionPoint_eq]
  | none =>
      have htail : Partitioned holds index.tail := hpart.right_of_append
      have hlen := List.getElem?_eq_none_iff.1 hchunk
      have hle := (List.takeWhile_prefix (l := index.sealed) (lastHolds holds)).length_le
      dsimp only
      rw [htail.partitionPoint_eq, le_antisymm hle hlen]

theorem get_eq (idx : ℕ) : index.get idx = index.flat[idx]? := by
  rw [get, flat]
  by_cases hlt : idx < index.sealed.length * chunkLen
  · rw [if_pos hlt, List.getElem?_append_left (by rw [length_sealed]; exact hlt),
      getElem?_flatten_blocks index.sealed_full chunkLen_pos]
  · rw [if_neg hlt, List.getElem?_append_right (by rw [length_sealed]; omega), length_sealed]

theorem iterFrom_eq (idx : ℕ) : index.iterFrom idx = index.flat.drop idx := by
  rw [iterFrom, flat, List.drop_append, length_sealed]
  dsimp only
  congr 1
  · by_cases hlt : idx < index.sealed.length * chunkLen
    · rw [if_pos hlt]
      have hnumber : idx / chunkLen < index.sealed.length :=
        (Nat.div_lt_iff_lt_mul chunkLen_pos).2 hlt
      have hblock := List.getElem?_eq_getElem hnumber
      have hdrop := drop_flatten_blocks index.sealed_full hblock
        (Nat.mod_lt idx chunkLen_pos).le
      rw [Nat.div_add_mod'] at hdrop
      rw [hdrop, ← List.cons_getElem_drop_succ (h := hnumber), List.zipIdx_cons, List.flatMap_cons]
      congr 1
      -- behind the first chunk nothing is cut off
      have hrest : ∀ pair ∈ (index.sealed.drop (idx / chunkLen + 1)).zipIdx 1,
          pair.1.drop (if pair.2 = 0 then idx % chunkLen else 0) = pair.1 := by
        intro pair hpair
        have hplace := (List.mem_zipIdx hpair).1
        rw [if_neg (by omega), List.drop_zero]
      rw [Nat.zero_add, List.flatMap_congr hrest, ← List.flatMap_map Prod.fst (fun chunk => chunk),
        List.zipIdx_map_fst, List.flatMap_id']
    · rw [if_neg hlt, List.drop_eq_nil_of_le]
      rw [length_sealed]
      omega
  · by_cases hle : idx - index.sealed.length * chunkLen ≤ index.tail.length
    · rw [min_eq_left hle]
    · rw [min_eq_right (by omega), List.drop_length, List.drop_eq_nil_of_le (by omega)]

end PostingIndex

end Talea.Log
