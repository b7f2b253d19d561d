import Talea.Sql.Tables
import Talea.Lib.ExceptFold

/-!
# The fold over the postings

One entry for each account that a draft touches, with the sum of what the draft
does to it and what the account's row says.
-/

namespace Talea.Sql

/-- What some postings of a draft add to an account. -/
def deltaOf (postings : List Posting) (key : String) : Int :=
  (postings.map fun posting => if posting.account.toKey = key then postingDelta posting else 0).sum

section Delta

variable {postings more : List Posting} {key : String}

theorem deltaOf_concat (posting : Posting) :
    deltaOf (postings ++ [posting]) key =
      deltaOf postings key + if posting.account.toKey = key then postingDelta posting else 0 := by
  simp [deltaOf]

theorem deltaOf_eq_zero (huntouched : ¬ ∃ posting ∈ postings, posting.account.toKey = key) :
    deltaOf postings key = 0 := by
  refine List.sum_eq_zero fun delta hdelta => ?_
  obtain ⟨posting, hposting, rfl⟩ := List.mem_map.1 hdelta
  exact if_neg fun hkey => huntouched ⟨posting, hposting, hkey⟩

end Delta

/-- The entry of an account shows the postings so far and the account's row. -/
structure Pending.Shows (accounts : HashMap String AccountRow) (postings : List Posting)
    (entry : Pending) : Prop where
  delta : entry.delta = deltaOf postings entry.key
  inRange : I64.InRange entry.delta
  row : ∃ row, accounts.lookup entry.key = some row ∧ entry.asset = row.asset ∧
    entry.normalSide = row.normalSide ∧ entry.minBalance = row.minBalance

/-- One entry for each account touched. -/
structure Folded (accounts : HashMap String AccountRow) (postings : List Posting)
    (pending : List Pending) : Prop where
  nodup : (pending.map Pending.key).Nodup
  keys : ∀ key, key ∈ pending.map Pending.key ↔
    ∃ posting ∈ postings, posting.account.toKey = key
  shows : ∀ entry ∈ pending, entry.Shows accounts postings

section Fold

variable {accounts : HashMap String AccountRow} {postings rest : List Posting}
  {pending next : List Pending} {posting : Posting}

theorem Folded.nil : Folded accounts [] [] where
  nodup := List.nodup_nil
  keys key := by simp
  shows := nofun

theorem entryFor_ok (hfolded : Folded accounts postings pending) {entry : Pending}
    (hentry : entryFor accounts pending posting = .ok entry) :
    entry.key = posting.account.toKey ∧ entry.Shows accounts postings := by
  unfold entryFor at hentry
  split at hentry
  · next found hfound =>
      cases hentry
      have hkey := List.find?_some hfound
      exact ⟨of_decide_eq_true hkey, hfolded.shows _ (List.mem_of_find?_eq_some hfound)⟩
  · next hnone =>
      split at hentry
      · cases hentry
      · next row hrow =>
          cases hentry
          refine ⟨rfl, ?_, I64.inRange_zero, row, hrow, rfl, rfl, rfl⟩
          refine (deltaOf_eq_zero fun htouched => ?_).symm
          obtain ⟨entry, hmem, hkey⟩ := List.mem_map.1 ((hfolded.keys _).2 htouched)
          exact List.find?_eq_none.1 hnone entry hmem (decide_eq_true hkey)

theorem addPosting_ok (hadd : addPosting accounts pending posting = .ok next) :
    ∃ entry delta, entryFor accounts pending posting = .ok entry ∧
      delta = entry.delta + postingDelta posting ∧ I64.InRange delta ∧
      next = pending.filter (fun other => other.key ≠ entry.key) ++ [{ entry with delta }] := by
  unfold addPosting at hadd
  obtain ⟨entry, hentry, hadd⟩ := Except.bind_eq_ok.1 hadd
  split at hadd
  · cases hadd
  · split at hadd
    · cases hadd
    · next delta hdelta =>
        cases hadd
        obtain ⟨hrange, rfl⟩ := I64.checked_eq_some.1 hdelta
        exact ⟨entry, _, hentry, rfl, hrange, rfl⟩

theorem Folded.add (hfolded : Folded accounts postings pending)
    (hadd : addPosting accounts pending posting = .ok next) :
    Folded accounts (postings ++ [posting]) next := by
  obtain ⟨entry, delta, hentry, hdelta, hrange, rfl⟩ := addPosting_ok hadd
  obtain ⟨hkey, hshows⟩ := entryFor_ok hfolded hentry
  have hnew : Pending.key { entry with delta } = entry.key := rfl
  have hmem : ∀ key, key ∈ (pending.filter fun other => other.key ≠ entry.key).map Pending.key ↔
      key ∈ pending.map Pending.key ∧ key ≠ entry.key := by
    intro key
    simp only [List.mem_map, List.mem_filter, decide_eq_true_eq]
    constructor
    · rintro ⟨other, ⟨hother, hne⟩, rfl⟩
      exact ⟨⟨other, hother, rfl⟩, hne⟩
    · rintro ⟨⟨other, hother, rfl⟩, hne⟩
      exact ⟨other, ⟨hother, hne⟩, rfl⟩
  refine ⟨?_, fun key => ?_, fun other hother => ?_⟩
  · rw [List.map_append, List.map_singleton, hnew, List.nodup_append]
    refine ⟨(List.filter_sublist.map _).nodup hfolded.nodup, List.nodup_singleton _,
      fun key hold last hlast => ?_⟩
    rw [List.mem_singleton.1 hlast]
    exact ((hmem key).1 hold).2
  · rw [List.map_append, List.mem_append, hmem, hfolded.keys, List.map_singleton,
      List.mem_singleton, hnew, hkey]
    simp only [List.mem_append, List.mem_singleton, or_and_right, exists_or, exists_eq_left]
    constructor
    · rintro (⟨htouched, -⟩ | rfl)
      · exact Or.inl htouched
      · exact Or.inr rfl
    · rintro (htouched | rfl)
      · by_cases hsame : key = posting.account.toKey
        · exact Or.inr hsame
        · exact Or.inl ⟨htouched, hsame⟩
      · exact Or.inr rfl
  · rcases List.mem_append.1 hother with hold | hlast
    · obtain ⟨hold, hne⟩ := List.mem_filter.1 hold
      have hold := hfolded.shows other hold
      have hne : posting.account.toKey ≠ other.key := by
        rw [← hkey]
        exact (of_decide_eq_true hne).symm
      refine ⟨?_, hold.inRange, hold.row⟩
      rw [deltaOf_concat, if_neg hne, add_zero]
      exact hold.delta
    · cases List.mem_singleton.1 hlast
      refine ⟨?_, hrange, hshows.row⟩
      rw [hnew, deltaOf_concat, if_pos hkey.symm, ← hshows.delta]
      exact hdelta

theorem Folded.fold (hfolded : Folded accounts postings pending)
    (hfold : rest.foldlM (addPosting accounts) pending = .ok next) :
    Folded accounts (postings ++ rest) next := by
  induction rest generalizing postings pending with
  | nil =>
      cases hfold
      rwa [List.append_nil]
  | cons posting rest ih =>
      rw [List.foldlM_cons, Except.bind_eq_ok] at hfold
      obtain ⟨mid, hadd, hrest⟩ := hfold
      have hall := ih (hfolded.add hadd) hrest
      rwa [List.append_assoc] at hall

/-- The fold of a draft's postings. -/
theorem loadPending_ok {tx : Transaction} (hload : loadPending accounts tx = .ok pending) :
    Folded accounts tx.postings pending := by
  unfold loadPending at hload
  obtain ⟨folded, hfold, hsort⟩ := Except.bind_eq_ok.1 hload
  cases hsort
  have hfolded := Folded.nil.fold hfold
  have hperm := List.perm_insertionSort (fun left right : Pending => left.key ≤ right.key) folded
  refine ⟨(hperm.map _).nodup_iff.2 hfolded.nodup, fun key => ?_, fun entry hentry =>
    hfolded.shows entry (hperm.mem_iff.1 hentry)⟩
  rw [(hperm.map Pending.key).mem_iff]
  exact hfolded.keys key

end Fold

end Talea.Sql
