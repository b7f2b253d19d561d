import Talea.Postgres.Drafts

/-!
# Commits with and without savepoints

A single commit is a transaction of its own; a batch runs its drafts one after
the other in one transaction, each behind a savepoint.  A draft that fails gives
back what it has written, the number it has claimed among it, and one that has
lost the race for its key looks the winner up.
-/

namespace Talea.Postgres

open Sql

/-- Every answer that is not an error is the row of its key. -/
def Answers (db : Database) (txs : List Transaction) (answers : List Answer) : Prop :=
  List.Forall₂ (fun tx answer => ∀ committed, answer = .ok committed → Stored db tx committed)
    txs answers

theorem Answers.mono {db later : Database} {txs : List Transaction} {answers : List Answer}
    (hanswers : Answers db txs answers)
    (hrows : ∀ row ∈ db.transactions, row ∈ later.transactions) : Answers later txs answers :=
  hanswers.imp fun _ _ hstored committed hok => (hstored committed hok).mono hrows

theorem Answers.errors {db : Database} (txs : List Transaction) (error : StoreError) :
    Answers db txs (txs.map fun _ => .error error) := by
  induction txs with
  | nil => exact .nil
  | cons tx txs ih => exact .cons nofun ih

section Commit

variable {exact inserts : Prop} {shared : Shared} {own : Tx} {tx : Transaction}

/-- The answer of a transaction that has been dropped. -/
def DroppedAnswer (tx : Transaction) (result : Except Fault Committed) (shared : Shared) : Prop :=
  ∀ committed, result = .ok committed → Stored shared.db tx committed

/-- The draft in a transaction of its own. -/
theorem safe_ownTransaction (hinv : Consistent exact shared) :
    Safe server (contract exact inserts)
      (fun result shared own => DroppedAnswer tx result shared ∧ own = .idle)
      (dropped do
        let committed ← commitDraft tx
        let _ ← Statement.send .commit
        return committed) shared own := by
  refine SafeDb.dropped (DroppedAnswer tx) (fun result shared later hresult hgrown committed hok =>
    (hresult committed hok).mono hgrown.respects.rows) (fun later hinv _ => ?_) hinv
  have hdraft := safe_commitDraft inserts tx [] Holding.nil hinv CountersFirst.nil
  refine SafeDb.bind (hdraft.mono (fun _ _ _ => id) fun fault shared own _ committed hok =>
    (nomatch hok)) (fun committed shared own hinv hown hanswered => ?_) hinv CountersFirst.nil
  obtain ⟨⟨ops, hholding⟩, -, hmarks, hfailed, hstored⟩ := hanswered
  obtain ⟨writes, marks, failed⟩ := own
  dsimp only at hmarks hfailed
  subst hmarks hfailed
  refine SafeDb.commit ops (fun shared => Holding exact ops shared writes ∧
      Stored (view shared.db writes) tx committed) ⟨hholding, hstored⟩
    (fun shared later hholds hgrown => ⟨hholds.1.grown hgrown fun _ => id,
      hholds.2.mono (hgrown.respects.view writes).rows⟩) (fun _ hholds => hholds.1)
    (fun shared later hholds hlater hinv => ?_) hinv
  refine SafeDb.pure (fun shared => Stored shared.db tx committed) ?_
    (fun shared later hstored hgrown => hstored.mono hgrown.respects.rows)
    (fun shared hstored other hok => Except.ok.inj hok ▸ hstored) hinv
  rw [hlater]
  exact hholds.2

/-- The lookup of the transaction that owns a key. -/
theorem safe_findCommitted (marks : List ℕ) {ops : List Op} {writes : List Write}
    (hholding : Holding exact ops shared writes) (hinv : Consistent exact shared)
    (hown : CountersFirst writes) :
    Safe server (contract exact inserts)
      (fun found shared own => own = ⟨writes, marks, false⟩ ∧ Holding exact ops shared writes ∧
        ∀ prior, found = .ok (some prior) → Stored (view shared.db writes) tx prior)
      (findCommitted tx.book tx.idempotencyKey).run shared ⟨writes, marks, false⟩ := by
  have hstay : ∀ shared later, Holding exact ops shared writes →
      Grown (locks writes) shared later → Holding exact ops later writes :=
    fun shared later hholding hgrown => hholding.grown hgrown fun _ => id
  intro later hrely hlater _
  have hnow := hstay shared later hholding (grown_of_rely hinv hrely)
  have hexec : server.exec later ⟨writes, marks, false⟩
      (.selectTransaction tx.book.name tx.idempotencyKey.key) =
      (.ok (((view later.db writes).transactions.find? fun row => row.book = tx.book.name ∧
        row.idempotencyKey = tx.idempotencyKey.key).map committedOf), later,
          ⟨writes, marks, false⟩) := by
    change (_, _, Tx.mk (writes ++ []) _ _) = _
    rw [List.append_nil]
    rfl
  rw [hexec]
  refine ⟨hlater, hown, ?_⟩
  refine safe_return (fun shared => Holding exact ops shared writes ∧ ∀ prior,
      ((view later.db writes).transactions.find? fun row => row.book = tx.book.name ∧
        row.idempotencyKey = tx.idempotencyKey.key).map committedOf = some prior →
          Stored (view shared.db writes) tx prior) ⟨hnow, fun prior => stored_find⟩
    (fun shared later hholds hgrown => ⟨hstay shared later hholds.1 hgrown, fun prior hprior =>
      (hholds.2 prior hprior).mono (hgrown.respects.view writes).rows⟩)
    (fun _ hholds => ⟨rfl, hholds.1, fun prior hprior => hholds.2 prior (Except.ok.inj hprior)⟩)
    hlater

/-- A lost race ends with the row of the key, or with an error. -/
theorem lostRace_ok {fault : Fault} {found : Except Fault (Option Committed)}
    {committed : Committed} (hlost : lostRace fault found = .ok committed) :
    found = .ok (some committed) := by
  unfold lostRace at hlost
  split at hlost <;> cases hlost
  rfl

/-- How a single commit ends. -/
theorem safe_commit (hinv : Consistent exact shared) (hown : CountersFirst own.writes) :
    Safe server (contract exact inserts)
      (fun answer shared _ => ∀ committed, answer = .ok committed → Stored shared.db tx committed)
      (commit tx) shared own := by
  unfold commit
  split
  · exact safe_return (fun _ => True) trivial (fun _ _ _ _ => trivial) (fun _ _ => nofun) hinv
  · refine Safe.bind (safe_ownTransaction hinv) (fun result shared own hinv hown hresult => ?_) hinv
      hown
    obtain ⟨hdropped, rfl⟩ := hresult shared .refl hinv
    cases result with
    | ok committed =>
        exact safe_return (fun shared => Stored shared.db tx committed) (hdropped committed rfl)
          (fun shared later hstored hgrown => hstored.mono hgrown.respects.rows)
          (fun shared hstored other hok => Except.ok.inj hok ▸ hstored) hinv
    | error fault =>
        dsimp only
        split
        · refine Safe.bind (SafeDb.dropped
              (fun found shared => ∀ prior, found = .ok (some prior) → Stored shared.db tx prior)
              (fun result shared later hresult hgrown prior hprior =>
              (hresult prior hprior).mono hgrown.respects.rows) (fun later hinv _ => ?_) hinv)
            (fun found shared own hinv _ hlookup => ?_) hinv hown
          · refine Safe.mono ?_ (safe_findCommitted [] Holding.nil hinv CountersFirst.nil)
            rintro found shared own ⟨-, -, hfound⟩
            cases found <;> exact hfound
          · obtain ⟨hfound, rfl⟩ := hlookup shared .refl hinv
            exact safe_return (fun shared => ∀ prior, found = .ok (some prior) →
                Stored shared.db tx prior) hfound (fun shared later hfound hgrown prior hprior =>
              (hfound prior hprior).mono hgrown.respects.rows)
              (fun shared hfound committed hok => hfound committed (lostRace_ok hok)) hinv
        · exact safe_return (fun _ => True) trivial (fun _ _ _ _ => trivial) (fun _ _ => nofun) hinv

end Commit

/-! ## Drafts behind savepoints -/

/-- What the drafts of a batch have left so far. -/
structure Batched (exact : Prop) (writes : List Write) (marks : List ℕ) (shared : Shared)
    (own : Tx) : Prop where
  holding : ∃ ops, Holding exact ops shared own.writes
  isPrefix : writes <+: own.writes
  marks : own.marks = marks
  failed : own.failed = false

section Savepoints

variable {exact inserts : Prop} {ops : List Op} {writes : List Write} {marks : List ℕ}
  {shared : Shared} {tx : Transaction}

/-- One draft of a batch: what it has written stays, or goes with its
savepoint. -/
theorem safe_commitInSavepoint (hholding : Holding exact ops shared writes)
    (hinv : Consistent exact shared) (hown : CountersFirst writes) :
    Safe server (contract exact inserts)
      (fun answer shared own => Batched exact writes marks shared own ∧
        ∀ committed, answer = .ok committed → Stored (own.view shared) tx committed)
      (commitInSavepoint tx) shared ⟨writes, marks, false⟩ := by
  have hstay : ∀ shared later, Holding exact ops shared writes →
      Grown (locks writes) shared later → Holding exact ops later writes :=
    fun shared later hholding hgrown => hholding.grown hgrown fun _ => id
  have herror : ∀ {error : StoreError} {shared : Shared}, Holding exact ops shared writes →
      Batched exact writes marks shared ⟨writes, marks, false⟩ ∧
        ∀ committed, (.error error : Answer) = .ok committed →
          Stored (Tx.view ⟨writes, marks, false⟩ shared) tx committed :=
    fun hholding => ⟨⟨⟨ops, hholding⟩, List.prefix_rfl, rfl, rfl⟩, nofun⟩
  unfold commitInSavepoint
  split
  · exact safe_return _ hholding hstay (fun _ => herror) hinv
  · refine safe_moved .savepoint (.ok ()) ⟨writes, writes.length :: marks, false⟩ _ hholding hstay
      (fun _ => rfl) hown (fun shared hinv hholding => ?_) hinv
    refine Safe.bind (safe_commitDraft inserts tx _ hholding hinv hown)
      (fun result shared own hinv hfirst hresult => ?_) hinv hown
    have hnow := hresult shared .refl hinv
    cases result with
    | ok committed =>
        obtain ⟨⟨after, hafter⟩, hprefix, hmarks, hfailed, hstored⟩ := hnow
        obtain ⟨all, tops, failed⟩ := own
        dsimp only at hmarks hfailed
        subst hmarks hfailed
        have hboth : ∀ shared later, Holding exact after shared all ∧
            Stored (view shared.db all) tx committed → Grown (locks all) shared later →
              Holding exact after later all ∧ Stored (view later.db all) tx committed :=
          fun shared later hholds hgrown => ⟨hholds.1.grown hgrown fun _ => id,
            hholds.2.mono (hgrown.respects.view all).rows⟩
        refine safe_moved .release (.ok ()) ⟨all, marks, false⟩ _ ⟨hafter, hstored⟩ hboth (fun _ => rfl)
          hfirst (fun shared hinv hholds => ?_) hinv
        exact safe_return _ hholds hboth (fun shared hholds => ⟨⟨⟨after, hholds.1⟩, hprefix, rfl,
          rfl⟩, fun other hok => Except.ok.inj hok ▸ hholds.2⟩) hinv
    | error fault =>
        obtain ⟨hholding, hprefix, hmarks⟩ := hnow
        obtain ⟨all, tops, failed⟩ := own
        dsimp only at hprefix hmarks
        subst hmarks
        have htake : all.take writes.length = writes := (List.prefix_iff_eq_take.1 hprefix).symm
        have hwider : ∀ shared later, Holding exact ops shared writes →
            Grown (locks all) shared later → Holding exact ops later writes :=
          fun shared later hholding hgrown => hholding.grown hgrown fun lock hlock => by
            obtain ⟨more, rfl⟩ := hprefix
            exact mem_locks_append_left hlock
        refine safe_moved .rollbackTo (.ok ()) ⟨writes, writes.length :: marks, false⟩ _ hholding hwider
          (fun shared => ?_) hown (fun shared hinv hholding => ?_) hinv
        · change (_, _, Tx.mk (all.take writes.length) _ _) = _
          rw [htake]
        · refine safe_moved .release (.ok ()) ⟨writes, marks, false⟩ _ hholding hstay (fun _ => rfl)
            hown (fun shared hinv hholding => ?_) hinv
          change Safe server (contract exact inserts) _
            (if fault.unique then
              (findCommitted tx.book tx.idempotencyKey).run >>= fun found =>
                pure (lostRace fault found)
            else pure (.error fault.error)) _ _
          split
          · refine Safe.bind (safe_findCommitted marks hholding hinv hown)
              (fun found shared own hinv hown hlookup => ?_) hinv hown
            obtain ⟨rfl, hholds⟩ := hlookup shared .refl hinv
            exact safe_return (fun shared => Holding exact ops shared writes ∧ ∀ prior,
                found = .ok (some prior) → Stored (view shared.db writes) tx prior) hholds
              (fun shared later hholds hgrown =>
                ⟨hstay shared later hholds.1 hgrown, fun prior hprior =>
                  (hholds.2 prior hprior).mono (hgrown.respects.view writes).rows⟩)
              (fun shared hholds => ⟨⟨⟨ops, hholds.1⟩, List.prefix_rfl, rfl, rfl⟩,
                fun committed hok => hholds.2 committed (lostRace_ok hok)⟩) hinv
          · exact safe_return _ hholding hstay (fun _ => herror) hinv

theorem mem_transactions_view {db : Database} {row : TransactionRow} :
    row ∈ (view db writes).transactions ↔ row ∈ db.transactions ∨ .transaction row ∈ writes := by
  induction writes generalizing db with
  | nil => simp
  | cons write writes ih =>
      rw [view_cons, ih, List.mem_cons]
      cases write <;> simp [Write.apply, or_assoc, eq_comm]

/-- An answer given under some writes is the row of its key, as long as these
stay. -/
def Kept (writes : List Write) (tx : Transaction) (answer : Answer) (shared : Shared) : Prop :=
  ∀ committed, answer = .ok committed → ∃ row : TransactionRow,
    (row ∈ shared.db.transactions ∨ .transaction row ∈ writes) ∧ row.book = tx.book.name ∧
      row.idempotencyKey = tx.idempotencyKey.key ∧ committedOf row = committed

theorem Kept.of_stored {answer : Answer} (hstored : ∀ committed, answer = .ok committed →
    Stored (view shared.db writes) tx committed) : Kept writes tx answer shared := by
  intro committed hok
  obtain ⟨row, hrow, hprops⟩ := hstored committed hok
  exact ⟨row, mem_transactions_view.1 hrow, hprops⟩

theorem Kept.stored {answer : Answer} {all : List Write} (hkept : Kept writes tx answer shared)
    (hearlier : writes <+: all) {committed : Committed} (hok : answer = .ok committed) :
    Stored (view shared.db all) tx committed := by
  obtain ⟨row, hrow, hprops⟩ := hkept committed hok
  exact ⟨row, mem_transactions_view.2 (hrow.imp_right fun hmem => hearlier.subset hmem), hprops⟩

theorem Kept.exec {answer : Answer} (hkept : Kept writes tx answer shared) (own : Tx)
    (statement : Statement) : Kept writes tx answer (server.exec shared own statement).2.1 := by
  intro committed hok
  obtain ⟨row, hrow, hprops⟩ := hkept committed hok
  refine ⟨row, hrow.imp_left fun hmem => ?_, hprops⟩
  rcases exec_shared shared own statement with hsame | hcommitted
  · change row ∈ (Postgres.exec shared own statement).2.1.db.transactions
    rwa [hsame]
  · change row ∈ (Postgres.exec shared own statement).2.1.db.transactions
    rw [hcommitted]
    exact transactions_view.subset hmem

theorem safe_commitDrafts (marks : List ℕ) (txs : List Transaction)
    (hholding : Holding exact ops shared writes) (hinv : Consistent exact shared) (hown : CountersFirst writes) :
    Safe server (contract exact inserts)
      (fun answers shared own => Batched exact writes marks shared own ∧
        Answers (own.view shared) txs answers)
      (commitDrafts txs) shared ⟨writes, marks, false⟩ := by
  induction txs generalizing ops writes shared with
  | nil =>
      exact safe_return _ hholding
        (fun shared later hholding hgrown => hholding.grown hgrown fun _ => id)
        (fun shared hholding => ⟨⟨⟨ops, hholding⟩, List.prefix_rfl, rfl, rfl⟩, .nil⟩) hinv
  | cons tx txs ih =>
      refine Safe.bind (safe_commitInSavepoint hholding hinv hown)
        (fun answer shared own hinv hown hanswer => ?_) hinv hown
      obtain ⟨⟨⟨after, hafter⟩, hprefix, hmarks, hfailed⟩, hstored⟩ := hanswer shared .refl hinv
      obtain ⟨all, tops, failed⟩ := own
      dsimp only at hprefix hmarks hfailed
      subst hmarks hfailed
      refine Safe.bind (Safe.frame (Kept all tx answer)
          (fun shared own statement hkept => hkept.exec own statement)
          (fun _ _ hkept => hkept) (ih hafter hinv hown) (Kept.of_stored hstored))
        (fun answers shared own hinv hown hanswers => ?_) hinv hown
      obtain ⟨⟨⟨⟨last, hlast⟩, hmore, hmarks, hfailed⟩, hall⟩, hkept⟩ := hanswers shared .refl hinv
      refine safe_return (fun shared => Holding exact last shared own.writes ∧
          Answers (own.view shared) (tx :: txs) (answer :: answers))
        ⟨hlast, .cons (fun committed => hkept.stored hmore) hall⟩
        (fun shared later hholds hgrown => ⟨hholds.1.grown hgrown fun _ => id,
          hholds.2.mono (hgrown.respects.view own.writes).rows⟩)
        (fun shared hholds => ⟨⟨⟨last, hholds.1⟩, hprefix.trans hmore, hmarks, hfailed⟩, hholds.2⟩)
        hinv

/-- How a batch ends that commits draft by draft. -/
theorem safe_commitBatchPerDraft (txs : List Transaction) {own : Tx}
    (hinv : Consistent exact shared) :
    Safe server (contract exact inserts) (fun answers shared _ => Answers shared.db txs answers)
      (commitBatchPerDraft txs) shared own := by
  refine safe_moved .begin (.ok ()) .idle (fun _ => True) trivial (fun _ _ _ _ => trivial)
    (fun _ => rfl) CountersFirst.nil (fun shared hinv _ => ?_) hinv
  refine Safe.bind (safe_commitDrafts [] txs Holding.nil hinv CountersFirst.nil)
    (fun answers shared own hinv hown hanswers => ?_) hinv CountersFirst.nil
  obtain ⟨⟨⟨ops, hholding⟩, -, hmarks, hfailed⟩, hall⟩ := hanswers shared .refl hinv
  obtain ⟨writes, marks, failed⟩ := own
  dsimp only at hmarks hfailed
  subst hmarks hfailed
  refine safe_committed ops (fun shared => Holding exact ops shared writes ∧
      Answers (view shared.db writes) txs answers) ⟨hholding, hall⟩
    (fun shared later hholds hgrown => ⟨hholds.1.grown hgrown fun _ => id,
      hholds.2.mono (hgrown.respects.view writes).rows⟩) (fun _ hholds => hholds.1)
    (fun shared later hholds hlater hinv => ?_) hinv
  refine safe_return (fun shared => Answers shared.db txs answers) ?_
    (fun shared later hanswers hgrown => hanswers.mono hgrown.respects.rows)
    (fun _ hanswers => hanswers) hinv
  rw [hlater]
  exact hholds.2

end Savepoints

end Talea.Postgres
