import Talea.Core.Types

/-!
# Events, answers and errors of a store

The vocabulary of the `Store` trait: what an event of the log is, what a commit
is answered with, and the errors a store rejects an operation with.
-/

namespace Talea

structure AccountCfg where
  normalSide : Option Direction
  minBalance : Option Int
  deriving DecidableEq

structure Committed where
  txid : TxId
  seq : Int
  at' : Int
  deriving DecidableEq

inductive LedgerEvent
  | assetRegistered (asset : AssetDef)
  | accountOpened (account : AccountDef) (cfg : AccountCfg)
  | transactionPosted (tx : Transaction)
  deriving DecidableEq

inductive StoreError
  | constraintViolation (account : AccountId) (minBalance wouldBe : Int)
  | unknownAccount (account : AccountId)
  | unknownAsset (asset : AssetId)
  | assetMismatch (account : AccountId) (accountAsset asset : AssetId)
  | alreadyExists (what : String)
  | invalidBook (book : Book)
  | saturated
  | io (message : String)
  deriving DecidableEq

/-- Reserved book that holds the book-agnostic events. -/
def systemBook : Book := ⟨"_system"⟩

theorem systemBook_isReserved : systemBook.isReserved = true := by
  decide

/-- Stored balances are debit-positive; the effective balance is adjusted to
the normal side.  Negating an `i64` wraps at the lower end of the range. -/
def effective (raw : Int) (normalSide : Option Direction) : Int :=
  match normalSide with
  | some .credit => I64.wrappingNeg raw
  | _ => raw

/-- The balance adjusted to the normal side, as an integer. -/
def adjusted (raw : Int) (normalSide : Option Direction) : Int :=
  match normalSide with
  | some .credit => -raw
  | _ => raw

/-- The machine's negation is the integer's, but for the least `i64`, which it
leaves below. -/
theorem effective_le_adjusted {raw : Int} (hraw : I64.InRange raw)
    (normalSide : Option Direction) : effective raw normalSide ≤ adjusted raw normalSide := by
  unfold effective adjusted
  split
  · unfold I64.wrappingNeg I64.wrapping
    unfold I64.InRange at hraw
    omega
  · exact le_rfl

/-- The key of the transaction an event posts, with the answer its commit
receives. -/
def LedgerEvent.committedAs (event : LedgerEvent) (seq : Int) (time : Int) :
    Option (String × Committed) :=
  match event with
  | .transactionPosted tx => some (tx.idempotencyKey.key, ⟨tx.id, seq, time⟩)
  | _ => none

end Talea
