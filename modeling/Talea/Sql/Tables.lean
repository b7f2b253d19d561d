import Talea.Core.Store
import Talea.Lib.HashMap

/-!
# The tables of the SQL stores

Both SQL stores keep the same tables, look transactions up by idempotency key,
and fold the postings of a draft in the same way before they write.  Tables
whose rows are only looked up by primary key are maps; the others are lists in
the order of insertion.  The integer columns hold what their column type says,
64-bit integers.
-/

namespace Talea.Sql

structure AccountRow where
  asset : AssetId
  kind : AccountKind
  normalSide : Option Direction
  minBalance : Option Int
  deriving DecidableEq

structure EventRow where
  book : String
  seq : Int
  at' : Int
  event : LedgerEvent

structure TransactionRow where
  txId : TxId
  book : String
  seq : Int
  idempotencyKey : String
  committedAt : Int

structure PostingRow where
  txId : TxId
  idx : ℕ
  accountKey : String
  asset : AssetId
  minor : Int
  direction : Direction
  book : String
  seq : Int
  committedAt : Int

structure BalanceRow where
  asset : AssetId
  balance : Int
  updatedSeq : Int

structure Database where
  assets : HashMap String AssetDef
  accounts : HashMap String AccountRow
  books : HashMap String Int
  events : List EventRow
  transactions : List TransactionRow
  postings : List PostingRow
  balances : HashMap String BalanceRow

def Database.empty : Database :=
  ⟨∅, ∅, ∅, [], [], [], ∅⟩

/-- One account's folded contribution to a transaction. -/
structure Pending where
  account : AccountId
  asset : AssetId
  normalSide : Option Direction
  minBalance : Option Int
  delta : Int

def Pending.key (pending : Pending) : String :=
  pending.account.toKey

/-- What a posting adds to the raw balance; the machine's negation wraps. -/
def postingDelta (posting : Posting) : Int :=
  match posting.direction with
  | .debit => posting.amount.minor
  | .credit => I64.wrappingNeg posting.amount.minor

/-- The entry of a posting's account: the one that is pending, or a fresh one
for a known account. -/
def entryFor (accounts : HashMap String AccountRow) (pending : List Pending) (posting : Posting) :
    Except StoreError Pending :=
  match pending.find? fun entry => entry.key = posting.account.toKey with
  | some entry => .ok entry
  | none =>
      match accounts.lookup posting.account.toKey with
      | none => .error (.unknownAccount posting.account)
      | some row => .ok ⟨posting.account, row.asset, row.normalSide, row.minBalance, 0⟩

/-- One turn of the fold over the postings. -/
def addPosting (accounts : HashMap String AccountRow) (pending : List Pending)
    (posting : Posting) : Except StoreError (List Pending) := do
  let entry ← entryFor accounts pending posting
  if entry.asset ≠ posting.amount.asset then
    .error (.assetMismatch posting.account entry.asset posting.amount.asset)
  else
    match I64.checkedAdd entry.delta (postingDelta posting) with
    | none =>
        .error (.io ("posting delta overflow for account " ++ posting.account.toKey))
    | some delta =>
        .ok (pending.filter (fun other => other.key ≠ entry.key) ++ [{ entry with delta }])

/-- The postings folded into one signed delta per account, sorted by account
key. -/
def loadPending (accounts : HashMap String AccountRow) (tx : Transaction) :
    Except StoreError (List Pending) := do
  let pending ← tx.postings.foldlM (addPosting accounts) []
  .ok (pending.insertionSort fun left right => left.key ≤ right.key)

/-- The answer to a key that has been used. -/
def findCommitted (db : Database) (book : Book) (idem : IdempotencyKey) : Option Committed :=
  (db.transactions.find? fun row => row.book = book.name ∧ row.idempotencyKey = idem.key).map
    fun row => ⟨row.txId, row.seq, row.committedAt⟩

/-- The posting rows of a transaction. -/
def postingRows (tx : Transaction) (seq time : Int) : List PostingRow :=
  tx.postings.mapIdx fun idx posting =>
    { txId := tx.id
      idx
      accountKey := posting.account.toKey
      asset := posting.amount.asset
      minor := posting.amount.minor
      direction := posting.direction
      book := tx.book.name
      seq
      committedAt := time }

end Talea.Sql
