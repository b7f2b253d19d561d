import Talea.Postgres.Commits

/-!
# The write set of a batch

One pass over the drafts skips those whose key is taken, and adds the others up
by account.  What it keeps of an account is the steps that the drafts take on
it, in their order, and the sum of them modulo `2^64`.
-/

namespace Talea.Postgres

open Sql

/-- The steps that drafts take on an account. -/
def stepsOf (folds : List (List Pending)) (key : String) : List Int :=
  folds.flatMap fun pending =>
    (pending.filter fun entry => entry.key = key).map Pending.delta

section Steps

variable {folds : List (List Pending)} {pending : List Pending} {key : String}

@[simp]
theorem stepsOf_cons : stepsOf (pending :: folds) key =
    (pending.filter fun entry => entry.key = key).map Pending.delta ++ stepsOf folds key :=
  List.flatMap_cons

theorem stepsOf_concat : stepsOf (folds ++ [pending]) key =
    stepsOf folds key ++ (pending.filter fun entry => entry.key = key).map Pending.delta := by
  rw [stepsOf, List.flatMap_append, List.flatMap_singleton]
  rfl

/-- A draft takes one step on each account that it touches. -/
theorem steps_folded {accounts : HashMap String AccountRow} {postings : List Posting}
    (hfolded : Folded accounts postings pending) (key : String) :
    (pending.filter fun entry => entry.key = key).map Pending.delta =
      if key ∈ pending.map Pending.key then [deltaOf postings key] else [] := by
  have hshows : ∀ entry ∈ pending, entry.delta = deltaOf postings entry.key := fun entry hentry =>
    (hfolded.shows entry hentry).delta
  have hnodup := hfolded.nodup
  clear hfolded
  induction pending with
  | nil => rfl
  | cons first rest ih =>
      obtain ⟨hfirst, hrest⟩ := List.nodup_cons.1 hnodup
      have ih := ih (fun entry hentry => hshows entry (List.mem_cons_of_mem _ hentry)) hrest
      by_cases hkey : first.key = key
      · subst hkey
        rw [if_neg hfirst] at ih
        rw [List.filter_cons_of_pos (by simp), List.map_cons, ih,
          if_pos (by simp), hshows first List.mem_cons_self]
      · rw [List.filter_cons_of_neg (by simpa using hkey), ih]
        simp [Ne.symm hkey]

theorem sum_steps_folded {accounts : HashMap String AccountRow} {postings : List Posting}
    (hfolded : Folded accounts postings pending) (key : String) :
    ((pending.filter fun entry => entry.key = key).map Pending.delta).sum =
      deltaOf postings key := by
  rw [steps_folded hfolded]
  split
  · exact List.sum_singleton
  · next hnot =>
      rw [hfolded.keys] at hnot
      exact (deltaOf_eq_zero hnot).symm

end Steps

/-- The aggregates of some folded drafts. -/
structure Aggregated (folds : List (List Pending)) (agg : List (String × AcctAgg)) : Prop where
  nodup : (agg.map Prod.fst).Nodup
  keys : ∀ key, key ∈ agg.map Prod.fst ↔ stepsOf folds key ≠ []
  steps : ∀ entry ∈ agg, entry.2.steps.map Prod.snd = stepsOf folds entry.1
  total : ∀ entry ∈ agg, entry.2.totalDelta = I64.wrapping (stepsOf folds entry.1).sum

section Aggregated

variable {folds : List (List Pending)} {pending : List Pending} {agg : List (String × AcctAgg)}

theorem Aggregated.nil : Aggregated [] [] where
  nodup := List.nodup_nil
  keys key := by simp [stepsOf]
  steps := nofun
  total := nofun

theorem mem_of_lookup {key : String} {entry : AcctAgg} (hlookup : agg.lookup key = some entry) :
    (key, entry) ∈ agg := by
  obtain ⟨before, after, rfl, -⟩ := List.lookup_eq_some_iff.1 hlookup
  exact List.mem_append_right _ List.mem_cons_self

/-- The entry that a draft goes on with. -/
theorem Aggregated.entry (haggregated : Aggregated folds agg) (key : String) (draftIdx : ℕ) :
    ((agg.lookup key).getD ⟨0, [], draftIdx⟩).steps.map Prod.snd = stepsOf folds key ∧
      ((agg.lookup key).getD ⟨0, [], draftIdx⟩).totalDelta =
        I64.wrapping (stepsOf folds key).sum := by
  cases hlookup : agg.lookup key with
  | some entry =>
      have hmem := mem_of_lookup hlookup
      exact ⟨haggregated.steps _ hmem, haggregated.total _ hmem⟩
  | none =>
      have hnone : stepsOf folds key = [] := by
        by_contra hsteps
        obtain ⟨entry, hentry, hkey⟩ := List.mem_map.1 ((haggregated.keys key).2 hsteps)
        have hne := List.lookup_eq_none_iff.1 hlookup entry hentry
        simp [hkey] at hne
      rw [hnone]
      exact ⟨rfl, rfl⟩

theorem Aggregated.addPending {draftIdx : ℕ} {entry : Pending}
    (haggregated : Aggregated (folds ++ [pending]) agg) :
    Aggregated (folds ++ [pending ++ [entry]]) (addPending draftIdx agg entry) := by
  have hsteps : ∀ key, stepsOf (folds ++ [pending ++ [entry]]) key =
      stepsOf (folds ++ [pending]) key ++ if entry.key = key then [entry.delta] else [] := by
    intro key
    rw [stepsOf_concat, stepsOf_concat, List.filter_append, List.map_append, List.append_assoc]
    congr 2
    by_cases hkey : entry.key = key <;> simp [hkey]
  obtain ⟨hold, htotal⟩ := haggregated.entry entry.key draftIdx
  have hother : ∀ other ∈ agg.filter (fun other => other.1 ≠ entry.key),
      other ∈ agg ∧ entry.key ≠ other.1 := fun other hmem =>
    ⟨List.mem_of_mem_filter hmem, Ne.symm (of_decide_eq_true (List.mem_filter.1 hmem).2)⟩
  refine ⟨?_, fun key => ?_, fun other hmem => ?_, fun other hmem => ?_⟩
  · rw [Postgres.addPending, List.map_append, List.nodup_append]
    refine ⟨(List.filter_sublist.map _).nodup haggregated.nodup, List.nodup_singleton _,
      fun key hkey last hlast => ?_⟩
    obtain ⟨other, hmem, rfl⟩ := List.mem_map.1 hkey
    cases List.mem_singleton.1 hlast
    exact (hother other hmem).2.symm
  · rw [Postgres.addPending, List.map_append, List.mem_append, hsteps]
    by_cases hkey : entry.key = key
    · subst hkey
      simp
    · rw [if_neg hkey, List.append_nil, ← haggregated.keys key]
      simp [Ne.symm hkey]
  · rw [hsteps]
    rcases List.mem_append.1 hmem with hmem | hmem
    · obtain ⟨hmem, hkey⟩ := hother other hmem
      rw [if_neg hkey, List.append_nil]
      exact haggregated.steps other hmem
    · cases List.mem_singleton.1 hmem
      rw [if_pos rfl, ← hold, List.map_append]
      rfl
  · rw [hsteps]
    rcases List.mem_append.1 hmem with hmem | hmem
    · obtain ⟨hmem, hkey⟩ := hother other hmem
      rw [if_neg hkey, List.append_nil]
      exact haggregated.total other hmem
    · cases List.mem_singleton.1 hmem
      rw [if_pos rfl, List.sum_append, List.sum_singleton, ← I64.wrapping_wrapping_add, ← htotal]
      rfl

/-- A whole draft is added up. -/
theorem Aggregated.addDraft {draftIdx : ℕ} (haggregated : Aggregated folds agg) :
    Aggregated (folds ++ [pending]) (pending.foldl (Postgres.addPending draftIdx) agg) := by
  have hstart : Aggregated (folds ++ [[]]) agg := by
    have hsame : ∀ key, stepsOf (folds ++ [[]]) key = stepsOf folds key := fun key => by
      rw [stepsOf_concat]
      exact List.append_nil _
    exact ⟨haggregated.nodup, fun key => by rw [hsame, haggregated.keys],
      fun entry hentry => by rw [hsame, haggregated.steps entry hentry],
      fun entry hentry => by rw [hsame, haggregated.total entry hentry]⟩
  have hall : ∀ (rest done : List Pending) (agg : List (String × AcctAgg)),
      Aggregated (folds ++ [done]) agg →
        Aggregated (folds ++ [done ++ rest]) (rest.foldl (Postgres.addPending draftIdx) agg) := by
    intro rest
    induction rest with
    | nil =>
        intro done agg hdone
        rwa [List.append_nil]
    | cons entry rest ih =>
        intro done agg hdone
        have hentry : Aggregated (folds ++ [done ++ [entry]])
            (Postgres.addPending draftIdx agg entry) := hdone.addPending
        have hnext := ih (done ++ [entry]) _ hentry
        rwa [List.append_assoc] at hnext
  exact hall pending [] agg hstart

end Aggregated

/-- A write set holds drafts of the batch in their places, folded and added up,
and knows the keys of the slots that it leaves out. -/
structure Built (accounts : HashMap String AccountRow) (txs : List Transaction) (set : WriteSet)
    (folds : List (List Pending)) : Prop where
  folded : List.Forall₂ (fun draft pending => Folded accounts draft.2.postings pending)
    set.writes folds
  aggregated : Aggregated folds set.agg
  written : ∀ draft ∈ set.writes, (draft.2, draft.1) ∈ txs.zipIdx
  repeated : ∀ slot ∈ set.dedupSlots, ∃ tx, (tx, slot.1) ∈ txs.zipIdx ∧
    tx.idempotencyKey.key = slot.2

section Built

variable {accounts : HashMap String AccountRow} {byKey : HashMap String Committed}
  {txs : List Transaction} {set next : WriteSet} {folds : List (List Pending)}

theorem Built.addDraft (hbuilt : Built accounts txs set folds) {slot : Transaction × ℕ}
    (hslot : slot ∈ txs.zipIdx) (hadd : addDraft byKey accounts set slot = .ok next) :
    ∃ folds, Built accounts txs next folds := by
  obtain ⟨tx, input⟩ := slot
  unfold Postgres.addDraft at hadd
  dsimp only at hadd
  split at hadd
  · cases hadd
    refine ⟨folds, hbuilt.folded, hbuilt.aggregated, hbuilt.written, fun slot hmem => ?_⟩
    rcases List.mem_append.1 hmem with hold | hnew
    · exact hbuilt.repeated slot hold
    · cases List.mem_singleton.1 hnew
      exact ⟨tx, hslot, rfl⟩
  · obtain ⟨pending, hfold, hadd⟩ := Except.bind_eq_ok.1 hadd
    cases hadd
    refine ⟨folds ++ [pending],
      List.rel_append hbuilt.folded (.cons (Sql.loadPending_ok hfold) .nil),
      hbuilt.aggregated.addDraft, fun draft hmem => ?_, hbuilt.repeated⟩
    rcases List.mem_append.1 hmem with hold | hnew
    · exact hbuilt.written draft hold
    · cases List.mem_singleton.1 hnew
      exact hslot

theorem buildWriteSet_ok (hbuild : buildWriteSet byKey accounts txs = .ok set) :
    ∃ folds, Built accounts txs set folds := by
  have hstep : ∀ set slot next, slot ∈ txs.zipIdx → (∃ folds, Built accounts txs set folds) →
      Postgres.addDraft byKey accounts set slot = .ok next →
        ∃ folds, Built accounts txs next folds := by
    rintro set slot next hslot ⟨folds, hbuilt⟩ hadd
    exact hbuilt.addDraft hslot hadd
  have hstart : ∃ folds, Built accounts txs ⟨[], [], []⟩ folds :=
    ⟨[], .nil, .nil, List.forall_mem_nil _, List.forall_mem_nil _⟩
  exact foldlM_invariant hstep hstart hbuild

end Built

/-! ## Answers -/

/-- The answers to the slots of a batch, each from the row of its key or from
the draft in its place. -/
theorem answers_of {db : Database} {book : Book} {accounts : HashMap String AccountRow}
    {byKey : HashMap String Committed} {txs : List Transaction} {set : WriteSet}
    {folds : List (List Pending)} {done : List (ℕ × Committed)} {answers : List Answer}
    (hbuilt : Built accounts txs set folds) (hbook : ∀ tx ∈ txs, tx.book = book)
    (hbyKey : ∀ key committed, byKey.lookup key = some committed → ∃ row ∈ db.transactions,
      row.book = book.name ∧ row.idempotencyKey = key ∧ committedOf row = committed)
    (hdone : ∀ entry ∈ done, ∃ tx, (tx, entry.1) ∈ txs.zipIdx ∧ Stored db tx entry.2)
    (hanswers : answersOf byKey set done txs.length = .ok answers) : Answers db txs answers := by
  have hall := Except.mapM_eq_ok.1 hanswers
  rw [List.forall₂_iff_get] at hall
  obtain ⟨hlength, hall⟩ := hall
  rw [List.length_range] at hlength
  refine List.forall₂_iff_get.2 ⟨hlength, fun input hinput hanswer committed hok => ?_⟩
  have hslot := hall input (by rwa [List.length_range]) hanswer
  simp only [List.get_eq_getElem, List.getElem_range] at hslot hok ⊢
  rw [hok] at hslot
  have hplace : ∀ {tx : Transaction}, (tx, input) ∈ txs.zipIdx → tx = txs[input] := fun hmem =>
    (Option.some.inj ((List.getElem?_eq_getElem hinput).symm.trans
      (List.mem_zipIdx_iff_getElem?.1 hmem))).symm
  cases hrepeated : set.dedupSlots.lookup input with
  | some key =>
      have hfound : byKey.lookup key = some committed := by
        rw [hrepeated] at hslot
        dsimp only at hslot
        split at hslot
        · next found hfound =>
            cases hslot
            exact hfound
        · cases hslot
      obtain ⟨before, after, hslots, -⟩ := List.lookup_eq_some_iff.1 hrepeated
      obtain ⟨tx, hmem, hkey⟩ := hbuilt.repeated (input, key) (by simp [hslots])
      obtain ⟨row, hrow, hname, hrowKey, hcommitted⟩ := hbyKey key committed hfound
      rw [hplace hmem] at hkey
      exact ⟨row, hrow, hname.trans (congrArg Book.name (hbook _ (List.getElem_mem hinput)).symm),
        hrowKey.trans hkey.symm, hcommitted⟩
  | none =>
      have hfound : done.lookup input = some committed := by
        rw [hrepeated] at hslot
        dsimp only at hslot
        split at hslot
        · next found hfound =>
            cases hslot
            exact hfound
        · cases hslot
      obtain ⟨before, after, hentries, -⟩ := List.lookup_eq_some_iff.1 hfound
      obtain ⟨tx, hmem, hstored⟩ := hdone (input, committed) (by simp [hentries])
      rw [hplace hmem] at hstored
      exact hstored

end Talea.Postgres
