import Talea.Lib.Steps
import Talea.Lib.ExceptFold
import Talea.Sqlite.Database

/-!
# A batch and the drafts that fail in it

A draft that fails leaves the database as it was, and the others do as if it
had not been there.  What no savepoint holds is a panic, and a panic comes from
one place: a counter or a balance that leaves the 64-bit range.
-/

namespace Talea.Sqlite

open Sql

variable {db db' final : Database} {tx : Transaction} {time : Int}
  {drafts : List (Transaction × Int)} {answers : List Answer}

/-! ## Where a draft panics -/

section Panic

variable {α β : Type} {result : Except Fault α} {next : α → Except Fault β}

theorem bind_eq_panic : (result >>= next) = .error .panic ↔
    result = .error .panic ∨ ∃ value, result = .ok value ∧ next value = .error .panic := by
  cases result with
  | error fault => simp [bind, Except.bind]
  | ok value => simp [bind, Except.bind]

/-- A computation that catches every failure but a panic. -/
def Calm (result : Except Fault α) : Prop :=
  result ≠ .error .panic

theorem Calm.ok (value : α) : Calm (.ok value : Except Fault α) := nofun

theorem Calm.bind (hresult : Calm result) (hnext : ∀ value, Calm (next value)) :
    Calm (result >>= next) := by
  intro hpanic
  rcases bind_eq_panic.1 hpanic with hfirst | ⟨value, -, hsecond⟩
  · exact hresult hfirst
  · exact hnext value hsecond

theorem Calm.refuseIf (refused : Prop) [Decidable refused] {fault : Fault}
    (hfault : fault ≠ .panic) : Calm (refuseIf refused fault) := by
  unfold Sqlite.refuseIf
  split
  · intro h
    cases h
    exact hfault rfl
  · exact .ok ()

theorem refuseIf_eq_ok {refused : Prop} [Decidable refused] {fault : Fault} {value : Unit} :
    refuseIf refused fault = .ok value ↔ ¬ refused := by
  unfold Sqlite.refuseIf
  split <;> simp [*]

theorem readInteger_eq_panic {value : Int} :
    readInteger value = .error .panic ↔ ¬ I64.InRange value := by
  unfold readInteger
  split <;> simp [*]

theorem mapM_readInteger_eq_panic {f : α → Int} (items : List α) :
    (items.mapM fun item => readInteger (f item)) = .error .panic ↔
      ∃ item ∈ items, ¬ I64.InRange (f item) := by
  induction items with
  | nil => simp [pure, Except.pure]
  | cons item items ih =>
      rw [List.mapM_cons, bind_eq_panic, readInteger_eq_panic, List.exists_mem_cons_iff]
      by_cases hrange : I64.InRange (f item)
      · have hread : readInteger (f item) = .ok (f item) := if_pos hrange
        rw [hread]
        simp only [hrange, not_true_eq_false, false_or, Except.ok.injEq, exists_eq_left']
        rw [bind_eq_panic, ih]
        simp [pure, Except.pure]
      · simp [hrange]

theorem nextSeq_eq_ok {book : String} {value : Int × Database} :
    nextSeq db book = .ok value ↔ I64.InRange (claimedSeq db book) ∧
      value = (claimedSeq db book, { db with books := db.books.insert book (claimedSeq db book) }) := by
  unfold nextSeq readInteger
  split
  · next h => simp [h, bind, Except.bind, eq_comm]
  · next h => simp [h, bind, Except.bind]

theorem nextSeq_eq_panic {book : String} :
    nextSeq db book = .error .panic ↔ ¬ I64.InRange (claimedSeq db book) := by
  unfold nextSeq
  rw [bind_eq_panic, readInteger_eq_panic]
  simp

/-- The upsert panics on a balance that leaves the range, if SQLite runs it. -/
theorem upsertBalances_eq_panic {seq : Int} {pending : List Pending} :
    upsertBalances db seq pending = .error .panic ↔
      pending ≠ [] ∧ 4 * pending.length ≤ maxVariables ∧
        ∃ entry ∈ pending, ¬ I64.InRange (newRaw db.balances entry) := by
  unfold upsertBalances
  simp only [bind_eq_panic, mapM_readInteger_eq_panic, refuseIf_eq_ok]
  have hempty : refuseIf (pending = []) (failure "near \"ON\": syntax error") ≠ .error .panic :=
    Calm.refuseIf _ nofun
  have hmany : refuseIf (maxVariables < 4 * pending.length) (failure "too many SQL variables") ≠
      .error .panic :=
    Calm.refuseIf _ nofun
  simp [hempty, hmany, exists_const, not_lt]

theorem calm_checkMinimums (entries : List (Pending × Int)) : Calm (checkMinimums entries) := by
  induction entries with
  | nil => exact .ok ()
  | cons entry entries ih =>
      unfold checkMinimums
      split
      · exact ih
      · dsimp only
        split
        · nofun
        · exact ih

theorem calm_insertTransaction (seq : Int) : Calm (insertTransaction db tx seq time) := by
  refine .bind (.refuseIf _ nofun) fun _ => ?_
  exact .bind (.refuseIf _ nofun) fun _ => .ok _

theorem calm_insertPostings (seq : Int) : Calm (insertPostings db tx seq time) := by
  refine .bind (.refuseIf _ nofun) fun _ => ?_
  refine .bind (.refuseIf _ nofun) fun _ => ?_
  exact .bind (.refuseIf _ nofun) fun _ => .ok _

theorem calm_insertEvent (book : String) (seq : Int) (event : LedgerEvent) :
    Calm (insertEvent db book seq time event) :=
  .bind (.refuseIf _ nofun) fun _ => .ok _

theorem calm_loadDraft : Calm (loadDraft db tx) := by
  refine .bind (.refuseIf _ nofun) fun _ => ?_
  cases loadPending db.accounts tx with
  | error error => nofun
  | ok pending => exact .ok pending

theorem writeTransaction_eq_panic {pending : List Pending} :
    writeTransaction db tx pending time = .error .panic ↔
      ¬ I64.InRange (claimedSeq db tx.book.name) ∨
        pending ≠ [] ∧ 4 * pending.length ≤ maxVariables ∧
          ∃ entry ∈ pending, ¬ I64.InRange (newRaw db.balances entry) := by
  have hrest : ∀ (raws : List Int) (db : Database) (seq : Int), Calm (do
      checkMinimums (pending.zip raws)
      let db ← insertTransaction db tx seq time
      let db ← insertPostings db tx seq time
      let db ← insertEvent db tx.book.name seq time (.transactionPosted tx)
      (.ok (⟨tx.id, seq, time⟩, db) : Except Fault (Committed × Database))) := by
    intro raws db seq
    refine .bind (calm_checkMinimums _) fun _ => .bind (calm_insertTransaction seq) fun _ => ?_
    exact .bind (calm_insertPostings seq) fun _ => .bind (calm_insertEvent _ _ _) fun _ => .ok _
  unfold writeTransaction
  rw [bind_eq_panic, nextSeq_eq_panic]
  by_cases hclaim : I64.InRange (claimedSeq db tx.book.name)
  · simp only [hclaim, not_true_eq_false, false_or, nextSeq_eq_ok, true_and, exists_eq_left]
    rw [bind_eq_panic, upsertBalances_eq_panic]
    refine or_iff_left ?_
    rintro ⟨⟨raws, next⟩, -, hpanic⟩
    exact hrest raws next _ hpanic
  · simp [hclaim]

end Panic

/-- The draft's counter and balances stay in the 64-bit range, where it gets as
far as claiming them. -/
def Fits (db : Database) (draft : Transaction × Int) : Prop :=
  draft.1.book.isReserved = false → findCommitted db draft.1.book draft.1.idempotencyKey = none →
    ∀ pending, loadDraft db draft.1 = .ok pending →
      I64.InRange (claimedSeq db draft.1.book.name) ∧
        (pending ≠ [] → 4 * pending.length ≤ maxVariables →
          ∀ entry ∈ pending, I64.InRange (newRaw db.balances entry))

theorem commitDraft_eq_panic :
    commitDraft db tx time = .error .panic ↔
      findCommitted db tx.book tx.idempotencyKey = none ∧ ∃ pending, loadDraft db tx = .ok pending ∧
        writeTransaction db tx pending time = .error .panic := by
  unfold commitDraft
  cases findCommitted db tx.book tx.idempotencyKey with
  | some prior => simp
  | none =>
      dsimp only
      rw [bind_eq_panic]
      simp only [true_and]
      exact or_iff_right calm_loadDraft

theorem commitInSavepoint_eq_none :
    commitInSavepoint db tx time = none ↔
      tx.book.isReserved = false ∧ commitDraft db tx time = .error .panic := by
  unfold commitInSavepoint
  cases tx.book.isReserved with
  | true => simp
  | false =>
      rw [if_neg Bool.false_ne_true]
      cases commitDraft db tx time with
      | ok value => simp
      | error fault =>
          cases fault with
          | panic => simp
          | error error unique =>
              dsimp only
              cases (if unique then findCommitted db tx.book tx.idempotencyKey else none) <;> simp

/-- A draft in its savepoint is answered exactly when it fits. -/
theorem commitInSavepoint_isSome_iff :
    (commitInSavepoint db tx time).isSome = true ↔ Fits db (tx, time) := by
  rw [Option.isSome_iff_ne_none, Ne, commitInSavepoint_eq_none, commitDraft_eq_panic]
  unfold Fits
  simp only [writeTransaction_eq_panic]
  push Not
  exact Iff.rfl

/-! ## The drafts that fail -/

/-- A draft that fails leaves the database as it was. -/
theorem commitInSavepoint_error {error : StoreError}
    (hstep : commitInSavepoint db tx time = some (.error error, db')) : db' = db := by
  unfold commitInSavepoint at hstep
  split at hstep
  · cases hstep
    rfl
  · split at hstep
    · cases hstep
    · cases hstep
    · split at hstep <;> cases hstep
      rfl

/-- The drafts that were answered with a commit. -/
def succeeded (drafts : List (Transaction × Int)) (answers : List Answer) :
    List (Transaction × Int) :=
  ((drafts.zip answers).filter fun pair => pair.2.isOk).map Prod.fst

theorem commitBatch_cons {draft : Transaction × Int} {result : List Answer × Database} :
    commitBatch db (draft :: drafts) = some result ↔
      ∃ answer mid answers final, commitInSavepoint db draft.1 draft.2 = some (answer, mid) ∧
        commitBatch mid drafts = some (answers, final) ∧ result = (answer :: answers, final) := by
  obtain ⟨tx, time⟩ := draft
  rw [commitBatch]
  cases commitInSavepoint db tx time with
  | none => simp
  | some pair =>
      obtain ⟨answer, mid⟩ := pair
      simp only [Option.map_eq_some_iff, Option.some.injEq, Prod.mk.injEq, Prod.exists]
      constructor
      · rintro ⟨answers, final, hrest, rfl⟩
        exact ⟨answer, mid, answers, final, ⟨rfl, rfl⟩, hrest, rfl⟩
      · rintro ⟨answer', mid', answers, final, ⟨rfl, rfl⟩, hrest, rfl⟩
        exact ⟨answers, final, hrest, rfl⟩

theorem length_answers (hbatch : commitBatch db drafts = some (answers, final)) :
    answers.length = drafts.length := by
  induction drafts generalizing db answers final with
  | nil =>
      cases hbatch
      rfl
  | cons draft drafts ih =>
      obtain ⟨answer, mid, rest, last, -, hrest, heq⟩ := commitBatch_cons.1 hbatch
      cases heq
      rw [List.length_cons, List.length_cons, ih hrest]

/-- Without the drafts that failed, the others get the same answers and leave
the same database. -/
theorem commitBatch_succeeded (hbatch : commitBatch db drafts = some (answers, final)) :
    commitBatch db (succeeded drafts answers) =
      some (answers.filter fun answer => answer.isOk, final) := by
  induction drafts generalizing db answers final with
  | nil =>
      cases hbatch
      rfl
  | cons draft drafts ih =>
      obtain ⟨answer, mid, rest, last, hdraft, hrest, heq⟩ := commitBatch_cons.1 hbatch
      cases heq
      have hothers := ih hrest
      cases answer with
      | error error =>
          cases commitInSavepoint_error hdraft
          exact hothers
      | ok committed =>
          exact commitBatch_cons.2 ⟨.ok committed, mid, _, _, hdraft, hothers, rfl⟩

/-! ## The batch as a whole -/

/-- What is asked of a batch: an answer for every draft, no trace of a draft
that fails, and for the others the outcome they would have had without it. -/
def Isolated (db : Database) (drafts : List (Transaction × Int)) : Prop :=
  ∃ answers final, commitBatch db drafts = some (answers, final) ∧
    answers.length = drafts.length ∧
    (∀ before tx time after mid failed error, drafts = before ++ (tx, time) :: after →
      (commitBatch db before).map Prod.snd = some mid →
      commitInSavepoint mid tx time = some (.error error, failed) → failed = mid) ∧
    commitBatch db (succeeded drafts answers) =
      some (answers.filter fun answer => answer.isOk, final)

/-- One draft of a batch, as a step of the database. -/
def savepointStep (db : Database) (draft : Transaction × Int) : Option Database :=
  (commitInSavepoint db draft.1 draft.2).map Prod.snd

theorem commitBatch_isSome_iff :
    (∃ answers final, commitBatch db drafts = some (answers, final)) ↔
      StepsMeet savepointStep Fits db drafts := by
  induction drafts generalizing db with
  | nil => exact ⟨fun _ => trivial, fun _ => ⟨[], db, rfl⟩⟩
  | cons draft drafts ih =>
      obtain ⟨tx, time⟩ := draft
      constructor
      · rintro ⟨answers, final, hbatch⟩
        obtain ⟨answer, mid, rest, last, hdraft, hrest, -⟩ := commitBatch_cons.1 hbatch
        refine ⟨commitInSavepoint_isSome_iff.1 (Option.isSome_iff_exists.2 ⟨_, hdraft⟩),
          fun next hnext => ?_⟩
        rw [savepointStep, hdraft] at hnext
        cases hnext
        exact ih.1 ⟨rest, last, hrest⟩
      · rintro ⟨hfits, hmeets⟩
        obtain ⟨⟨answer, mid⟩, hdraft⟩ :=
          Option.isSome_iff_exists.1 (commitInSavepoint_isSome_iff.2 hfits)
        have hmid : savepointStep db (tx, time) = some mid := by
          rw [savepointStep, hdraft]
          rfl
        obtain ⟨answers, final, hrest⟩ := ih.2 (hmeets mid hmid)
        exact ⟨answer :: answers, final,
          commitBatch_cons.2 ⟨answer, mid, answers, final, hdraft, hrest, rfl⟩⟩

/-- A batch isolates its drafts exactly when each of them fits the database
that the ones before it leave. -/
theorem isolated_iff (db : Database) (drafts : List (Transaction × Int)) :
    Isolated db drafts ↔ StepsMeet savepointStep Fits db drafts := by
  rw [← commitBatch_isSome_iff]
  constructor
  · rintro ⟨answers, final, hbatch, -⟩
    exact ⟨answers, final, hbatch⟩
  · rintro ⟨answers, final, hbatch⟩
    refine ⟨answers, final, hbatch, length_answers hbatch, ?_, commitBatch_succeeded hbatch⟩
    intro before tx time after mid failed error _ _ hfailed
    exact commitInSavepoint_error hfailed

/-! ## A balance at the upper end -/

def usd : AssetId := ⟨"USD"⟩

def cash : AccountId := ⟨⟨"shop"⟩, "cash"⟩

def sales : AccountId := ⟨⟨"shop"⟩, "sales"⟩

/-- A transaction that moves an amount from one account to the other. -/
def transfer (id : ℕ) (key : String) (minor : Int) (hrange : I64.InRange minor) : Transaction where
  id := ⟨id⟩
  book := ⟨"shop"⟩
  postings := [⟨cash, ⟨minor, usd, hrange⟩, .debit⟩, ⟨sales, ⟨minor, usd, hrange⟩, .credit⟩]
  idempotencyKey := ⟨key⟩
  externalRefs := []
  metadata := "\x7b\x7d"
  occurredAt := 0

/-- A shop whose cash account has received all that an `i64` can hold. -/
def fullShop : Option Database := do
  let (_, db) ← registerAsset .empty ⟨usd, .fiat, 2, "US dollar"⟩ 0
  let (_, db) ← openAccount db ⟨cash, usd, .asset⟩ ⟨some .debit, none⟩ 1
  let (_, db) ← openAccount db ⟨sales, usd, .income⟩ ⟨some .credit, none⟩ 2
  let (_, db) ← commit db (transfer 1 "k1" 9223372036854775807 (by decide)) 3
  some db

/-- One cent more, and the whole batch is answered by a panic. -/
theorem not_isolated_fullShop :
    ∃ db, fullShop = some db ∧ ¬ Isolated db [(transfer 2 "k2" 1 (by decide), 4)] := by
  have hpanic : ∃ db ∈ fullShop,
      (commitBatch db [(transfer 2 "k2" 1 (by decide), 4)]).isSome = false := by
    decide +kernel
  obtain ⟨db, hdb, hnone⟩ := hpanic
  refine ⟨db, hdb, ?_⟩
  rintro ⟨answers, final, hbatch, -⟩
  rw [hbatch] at hnone
  cases hnone

end Talea.Sqlite
