import Talea.Log.PostingSearch
import Talea.Log.Reopening

/-!
# A posting history is a flat sequence

Entries are pushed one after the other and kept in chunks.  Whatever is asked
about them, the answer is the one that the flat sequence of the pushed entries
gives, and the chunks are again the same when the flat sequence is loaded.
-/

namespace Talea.Log

namespace PostingIndex

/-- Total number of entries. -/
def len (index : PostingIndex) : ℕ :=
  index.sealed.length * chunkLen + index.tail.length

def isEmpty (index : PostingIndex) : Bool :=
  index.sealed.isEmpty && index.tail.isEmpty

theorem len_eq (index : PostingIndex) : index.len = index.flat.length := by
  rw [len, flat, List.length_append, length_sealed]

theorem isEmpty_eq (index : PostingIndex) : index.isEmpty = index.flat.isEmpty := by
  unfold isEmpty flat
  cases hsealed : index.sealed with
  | nil => rfl
  | cons chunk rest =>
      have hne := index.ne_nil_of_mem_sealed (hsealed ▸ List.mem_cons_self)
      obtain ⟨entry, entries, rfl⟩ := List.exists_cons_of_ne_nil hne
      rfl

/-- A search finds what a search of the flat sequence finds. -/
theorem partitionPointBy_eq_flat (index : PostingIndex) {holds : PostingEntry → Bool}
    (hpart : Partitioned holds index.flat) :
    index.partitionPointBy holds = partitionPoint holds index.flat := by
  rw [partitionPointBy_eq index hpart, hpart.partitionPoint_eq]

end PostingIndex

/-- What is not larger than a bound comes first in an ascending sequence. -/
theorem partitioned_of_pairwise {entries : List PostingEntry} {measure : PostingEntry → Int}
    (hascends : entries.Pairwise fun left right => measure left ≤ measure right) (bound : Int) :
    Partitioned (fun entry => measure entry ≤ bound) entries := by
  refine hascends.imp fun {left right} hle hright => ?_
  simp only [decide_eq_true_eq] at hright ⊢
  omega

/-- A history that has been pushed entry by entry, in the order of seqs and of
times, answers as the flat sequence of the entries: its length, its entries by
index, its rest from any index on, past the end too, and both searches.  Its
chunks are full, its tail is not, and loading its flat form makes the same
chunks and tail. -/
theorem postingIndex_flat (entries : List PostingEntry)
    (hseqs : entries.Pairwise fun left right => left.seq ≤ right.seq)
    (htimes : entries.Pairwise fun left right => left.at' ≤ right.at') :
    let index := entries.foldl PostingIndex.push .empty
    index.len = entries.length ∧ index.isEmpty = entries.isEmpty ∧
      (∀ idx, index.get idx = entries[idx]?) ∧
      (∀ idx, index.iterFrom idx = entries.drop idx) ∧
      (∀ time, index.partitionPointAt time =
        partitionPoint (fun entry => entry.at' ≤ time) entries) ∧
      (∀ after, index.partitionPointSeq after =
        partitionPoint (fun entry => entry.seq ≤ after) entries) ∧
      (∀ chunk ∈ index.sealed, chunk.length = chunkLen) ∧ index.tail.length < chunkLen ∧
      PostingIndex.ofFlat index.flat = index := by
  intro index
  have hflat : index.flat = entries := PostingIndex.flat_ofFlat entries
  refine ⟨?_, ?_, fun idx => ?_, fun idx => ?_, fun time => ?_, fun after => ?_,
    index.sealed_full, index.tail_short, PostingIndex.ofFlat_flat index⟩
  · rw [PostingIndex.len_eq, hflat]
  · rw [PostingIndex.isEmpty_eq, hflat]
  · rw [PostingIndex.get_eq, hflat]
  · rw [PostingIndex.iterFrom_eq, hflat]
  · rw [PostingIndex.partitionPointAt, PostingIndex.partitionPointBy_eq_flat, hflat]
    rw [hflat]
    exact partitioned_of_pairwise htimes time
  · rw [PostingIndex.partitionPointSeq, PostingIndex.partitionPointBy_eq_flat, hflat]
    rw [hflat]
    exact partitioned_of_pairwise hseqs after

namespace TwoEntries

/-- Two entries of one event. -/
def entries : List PostingEntry :=
  [⟨3, 50, ⟨1⟩, 5, .debit, 5⟩, ⟨3, 50, ⟨1⟩, 2, .credit, 3⟩]

end TwoEntries

theorem postingIndex_flat_twoEntries :
    (TwoEntries.entries.foldl PostingIndex.push .empty).partitionPointSeq 3 =
      partitionPoint (fun entry => entry.seq ≤ 3) TwoEntries.entries :=
  (postingIndex_flat TwoEntries.entries (by decide) (by decide)).2.2.2.2.2.1 3

end Talea.Log
