import Talea.Postgres.Isolation
import Talea.Postgres.Store

/-!
# The contract of the instances

Committed rows form a ledger, at times that the clock has passed, and whoever
appends events notifies their books.  Runs may be assumed to be `exact`, with
balances that stay in the 64-bit range inside a batch, and to have `inserts`
that meet no row.
-/

namespace Talea.Postgres

open Sql

structure Consistent (exact : Prop) (shared : Shared) : Prop where
  ledger : Ledger exact shared.db
  past : ∀ row ∈ shared.db.events, row.at' ≤ shared.clock
  commits : shared.db.events = shared.commits.flatMap Commit.rows
  notified : ∀ commit ∈ shared.commits, ∀ row ∈ commit.rows, row.book ∈ commit.books

theorem Consistent.start (exact : Prop) : Consistent exact ⟨.empty, 0, []⟩ where
  ledger := .empty
  past := nofun
  commits := rfl
  notified := nofun

/-- Where the new balance of an account fits an `i64`, so does the balance
behind each of the drafts that it adds up. -/
def SumsFit (shared : Shared) (tx : Tx) : Statement → Prop
  | .upsertBalances rows =>
      ∀ row ∈ rows, I64.InRange (rawBalance (tx.view shared) row.key + row.delta) →
        I64.RunsInRange (rawBalance (tx.view shared) row.key) row.steps
  | _ => True

/-- An `INSERT` into the registry meets no row, and a counter is not at its
end. -/
def InsertsNew (shared : Shared) (tx : Tx) : Statement → Prop
  | .insertAsset asset => (tx.view shared).assets.lookup asset.id.id = none
  | .insertAccount key _ => (tx.view shared).accounts.lookup key = none
  | .claimSeqs book count => I64.InRange (claimed (tx.view shared) book count)
  | _ => True

instance (shared : Shared) (tx : Tx) : ∀ statement, Decidable (SumsFit shared tx statement)
  | .upsertBalances rows => inferInstanceAs (Decidable (∀ row ∈ rows,
      I64.InRange (rawBalance (tx.view shared) row.key + row.delta) →
        I64.RunsInRange (rawBalance (tx.view shared) row.key) row.steps))
  | .begin | .commit | .rollback | .savepoint | .release | .rollbackTo | .selectAsset _
  | .insertAsset _ | .selectAccount _ | .insertAccount _ _ | .selectTransaction _ _
  | .selectTransactions _ _ | .selectAccounts _ | .claimSeqs _ _ | .insertTransactions _
  | .insertPostings _ | .insertEvents _ | .notify _ => isTrue trivial

instance (shared : Shared) (tx : Tx) : ∀ statement, Decidable (InsertsNew shared tx statement)
  | .insertAsset asset =>
      inferInstanceAs (Decidable ((tx.view shared).assets.lookup asset.id.id = none))
  | .insertAccount key _ =>
      inferInstanceAs (Decidable ((tx.view shared).accounts.lookup key = none))
  | .claimSeqs book count =>
      inferInstanceAs (Decidable (I64.InRange (claimed (tx.view shared) book count)))
  | .begin | .commit | .rollback | .savepoint | .release | .rollbackTo | .selectAsset _
  | .selectAccount _ | .selectTransaction _ _ | .selectTransactions _ _ | .selectAccounts _
  | .upsertBalances _ | .insertTransactions _ | .insertPostings _ | .insertEvents _
  | .notify _ => isTrue trivial

/-- An account may be opened: the checks in front of it pass. -/
def Openable (shared : Shared) : Call → Prop
  | .openAccount account _ =>
      account.id.book.isReserved = false ∧
        (shared.db.assets.lookup account.asset.id).isSome = true
  | _ => True

instance (shared : Shared) : ∀ call, Decidable (Openable shared call)
  | .openAccount account _ =>
      inferInstanceAs (Decidable (account.id.book.isReserved = false ∧
        (shared.db.assets.lookup account.asset.id).isSome = true))
  | .registerAsset _ | .commit _ | .commitBatch _ => isTrue trivial

def contract (exact inserts : Prop) : Contract Call Statement Shared Tx where
  Inv := Consistent exact
  Own tx := CountersFirst tx.writes
  Starts shared call := inserts → Openable shared call
  Cond shared tx statement :=
    (exact → SumsFit shared tx statement) ∧ (inserts → InsertsNew shared tx statement)

/-! ## What others do -/

/-- What a transaction may find later. -/
structure Grown (held : List Lock) (shared later : Shared) : Prop where
  respects : Respects held shared.db later.db
  clock : shared.clock ≤ later.clock

section Grown

variable {exact inserts : Prop} {held : List Lock} {shared mid later : Shared} {tx : Tx}

theorem Grown.refl : Grown held shared shared :=
  ⟨.refl, le_rfl⟩

theorem Grown.trans (hfirst : Grown held shared mid) (hsecond : Grown held mid later) :
    Grown held shared later :=
  ⟨hfirst.respects.trans hsecond.respects, hfirst.clock.trans hsecond.clock⟩

theorem Grown.mono {more : List Lock} (hgrown : Grown held shared later)
    (hsub : ∀ lock ∈ more, lock ∈ held) : Grown more shared later :=
  ⟨hgrown.respects.mono hsub, hgrown.clock⟩

/-- Only a commit changes what all see. -/
theorem exec_shared (shared : Shared) (tx : Tx) (statement : Statement) :
    (exec shared tx statement).2.1 = shared ∨
      (exec shared tx statement).2.1 = tx.committed shared := by
  cases statement with
  | begin => exact Or.inl rfl
  | rollback => exact Or.inl rfl
  | commit =>
      unfold exec
      dsimp only
      split
      · exact Or.inl rfl
      · exact Or.inr rfl
  | rollbackTo =>
      refine Or.inl ?_
      unfold exec
      dsimp only
      split <;> rfl
  | _ =>
      refine Or.inl ?_
      unfold exec
      dsimp only
      split
      · rfl
      · first | rfl | (split <;> rfl)

theorem Grown.of_moves (hinv : Consistent exact shared)
    (hmoves : Moves server (contract exact inserts) tx shared later) :
    Grown (locks tx.writes) shared later := by
  cases hmoves with
  | exec other request hapart hown hlater =>
      rcases exec_shared shared other request with hsame | hcommitted
      · rw [show (server.exec shared other request).2.1 = shared from hsame]
        exact .refl
      · have heq : (server.exec shared other request).2.1 = other.committed shared := hcommitted
        rw [heq] at hlater ⊢
        exact ⟨respects_view hinv.ledger hlater.ledger hapart hown, le_rfl⟩
  | drift elapsed hlater =>
      exact ⟨.refl, by
        change shared.clock ≤ shared.clock + (elapsed : Int)
        omega⟩

theorem grown_of_rely (hinv : Consistent exact shared)
    (hrely : Rely server (contract exact inserts) tx shared later) :
    Grown (locks tx.writes) shared later := by
  have hboth : Grown (locks tx.writes) shared later ∧ Consistent exact later := by
    induction hrely with
    | refl => exact ⟨.refl, hinv⟩
    | tail _ hmoves ih =>
        refine ⟨ih.1.trans (Grown.of_moves ih.2 hmoves), ?_⟩
        cases hmoves with
        | exec _ _ _ _ hlater => exact hlater
        | drift _ hlater => exact hlater
  exact hboth.1

end Grown

end Talea.Postgres
