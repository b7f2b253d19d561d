import Talea.Log.RunInvariant

/-!
# Exactly one transaction per key

Whatever a run of the book does, its log has no two transactions with the same
idempotency key, and whoever was answered `Ok` under a key was told about the
one transaction the log has for it.
-/

namespace Talea.Log

variable {rt : Runtime}

/-- The event posts a transaction with this idempotency key. -/
def WireEvent.posts (key : String) (ev : WireEvent) : Bool :=
  match ev.event with
  | .transactionPosted tx => tx.idempotencyKey.key = key
  | _ => false

theorem WireEvent.posts_eq_true_iff {key : String} {ev : WireEvent} :
    ev.posts key = true ↔ ∃ committed, ev.committed = some (key, committed) := by
  obtain ⟨seq, time, event⟩ := ev
  cases event with
  | transactionPosted tx => simp [posts, committed, LedgerEvent.committedAs]
  | assetRegistered asset => simp [posts, committed, LedgerEvent.committedAs]
  | accountOpened account cfg => simp [posts, committed, LedgerEvent.committedAs]

theorem WireEvent.committed_eq_some_iff {key : String} {committed : Committed} {ev : WireEvent} :
    ev.committed = some (key, committed) ↔
      ∃ tx, ev.event = .transactionPosted tx ∧ tx.idempotencyKey.key = key ∧
        committed = ⟨tx.id, ev.seq, ev.at'⟩ := by
  obtain ⟨seq, time, event⟩ := ev
  cases event with
  | transactionPosted tx => simp [WireEvent.committed, LedgerEvent.committedAs, eq_comm]
  | assetRegistered asset => simp [WireEvent.committed, LedgerEvent.committedAs]
  | accountOpened account cfg => simp [WireEvent.committed, LedgerEvent.committedAs]

/-- The transactions of a key in a list of events without duplicate keys. -/
theorem length_filter_posts_le {events : List WireEvent}
    (hnodup : ((commitsOf events).map Prod.fst).Nodup) (key : String) :
    (events.filter (WireEvent.posts key)).length ≤ 1 := by
  induction events with
  | nil => simp
  | cons ev events ih =>
      rw [commitsOf_cons, List.map_append, List.nodup_append] at hnodup
      obtain ⟨-, hrest, hfresh⟩ := hnodup
      by_cases hposts : ev.posts key = true
      · obtain ⟨committed, hcommitted⟩ := WireEvent.posts_eq_true_iff.1 hposts
        have hnone : events.filter (WireEvent.posts key) = [] := by
          refine List.filter_eq_nil_iff.2 fun other hother hsame => ?_
          obtain ⟨again, hagain⟩ := WireEvent.posts_eq_true_iff.1 hsame
          have hmem := List.mem_map_of_mem (f := Prod.fst) (mem_commitsOf hother hagain)
          exact hfresh key (by simp [hcommitted]) key hmem rfl
        rw [List.filter_cons_of_pos hposts, hnone, List.length_singleton]
      · rw [List.filter_cons_of_neg hposts]
        exact ih hrest

theorem RunInv.length_filter_posts_le {run : Run} (hinv : RunInv rt run) (key : String) :
    ((run.events rt).filter (WireEvent.posts key)).length ≤ 1 :=
  Log.length_filter_posts_le hinv.logValid.keys_nodup key

/-- What was answered under a key is what the log's one transaction of the key
says. -/
theorem RunInv.filter_posts_of_answered {run : Run} (hinv : RunInv rt run) {key : String}
    {committed : Committed} (hanswered : (key, committed) ∈ run.answered) :
    ∃ ev tx, (run.events rt).filter (WireEvent.posts key) = [ev] ∧
      ev.event = .transactionPosted tx ∧ committed = ⟨tx.id, ev.seq, ev.at'⟩ := by
  obtain ⟨ev, hev, hcommitted⟩ := List.mem_filterMap.1 (hinv.answered _ hanswered)
  obtain ⟨tx, hevent, -, heq⟩ := WireEvent.committed_eq_some_iff.1 hcommitted
  have hmem : ev ∈ (run.events rt).filter (WireEvent.posts key) :=
    List.mem_filter.2 ⟨hev, WireEvent.posts_eq_true_iff.2 ⟨committed, hcommitted⟩⟩
  have hlen := hinv.length_filter_posts_le key
  obtain ⟨only, honly⟩ := List.length_eq_one_iff.1
    (le_antisymm hlen (List.length_pos_of_mem hmem))
  rw [honly, List.mem_singleton] at hmem
  exact ⟨ev, tx, by rw [honly, hmem], hevent, heq⟩

/-- In every run, a key has at most one transaction in the log, and every `Ok`
ever answered under it carries that transaction's id, seq and timestamp. -/
theorem exactly_once (rt : Runtime) (opts : LogStoreOptions) (io : SpillIo)
    (actions : List Action) :
    (∀ key, (((Run.exec rt opts io actions).events rt).filter
      (WireEvent.posts key)).length ≤ 1) ∧
    ∀ answer ∈ (Run.exec rt opts io actions).answered,
      ∃ ev tx, ((Run.exec rt opts io actions).events rt).filter
          (WireEvent.posts answer.1) = [ev] ∧
        ev.event = .transactionPosted tx ∧ answer.2 = ⟨tx.id, ev.seq, ev.at'⟩ :=
  have hinv := RunInv.exec rt opts io actions
  ⟨hinv.length_filter_posts_le, fun _ hanswer => hinv.filter_posts_of_answered hanswer⟩

end Talea.Log
