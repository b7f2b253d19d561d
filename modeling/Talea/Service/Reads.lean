import Talea.Core.FormatMinor
import Talea.Core.WireJson
import Talea.Log.Positions
import Talea.Log.TrialBalance
import Talea.Service.Drafts
import Talea.Service.HistoryPages

/-!
# The reads of the service

What the service makes of the answers of its store.  A store is given by the
functions that the reads call.
-/

namespace Talea.Service

open Talea.Log (BalanceSnapshot PostingRecord StoredTransaction TrialBalanceRow)

structure BalanceView where
  account : String
  asset : String
  balance : String
  asOf : Option ℤ
  updatedSeq : ℤ
  deriving DecidableEq

/-- A committed transaction; `metadata` is the JSON text of the caller's value. -/
structure TransactionView where
  txId : String
  book : String
  seq : ℤ
  at' : ℤ
  postings : List PostingView
  externalRefs : List ExternalRef
  metadata : String
  deriving DecidableEq

structure TrialBalanceLine where
  asset : String
  debits : ℤ
  credits : ℤ
  deriving DecidableEq

structure TrialBalanceView where
  book : String
  asOf : Option ℤ
  lines : List TrialBalanceLine
  deriving DecidableEq

/-- What the reads ask a store. -/
structure StoreReads where
  balance : AccountId → Option ℤ → Except StoreError BalanceSnapshot
  asset : AssetId → Except StoreError (Option AssetDef)
  accountHistory : AccountId → Option ℤ → ℕ → Except StoreError (List PostingRecord)
  transaction : TxId → Except StoreError (Option StoredTransaction)
  trialBalance : Book → Option ℤ → Except StoreError (List TrialBalanceRow)

namespace StoreReads

variable (store : StoreReads)

def readBalance (book path : String) (asOf : Option ℤ) : Except ApiError BalanceView := do
  let book ← parseBookLax book
  let account : AccountId := ⟨book, path⟩
  let snapshot ← (store.balance account asOf).mapError mapStoreErr
  match ← (store.asset snapshot.asset).mapError mapStoreErr with
  | none => .error (.internal "ledger inconsistency")
  | some asset =>
      .ok ⟨account.toKey, asset.id.id, formatMinor snapshot.minor asset.precision, asOf,
        snapshot.updatedSeq⟩

def readHistory (book path : String) (page : Page) : Except ApiError (Paged PostingView) := do
  let book ← parseBookLax book
  let limit := max 1 (min page.limit.toNat 1000)
  let records ← (store.accountHistory ⟨book, path⟩ page.afterSeq limit).mapError mapStoreErr
  let next := if records.length < limit then none else records.getLast?.map PostingRecord.seq
  .ok ⟨records.map viewOf, next⟩

/-- The postings of a committed transaction. -/
def postingView (stored : StoredTransaction) (posting : Posting) : PostingView where
  seq := stored.seq
  txId := TxId.text stored.transaction.id
  account := posting.account.toKey
  minor := posting.amount.minor
  asset := posting.amount.asset.id
  direction := posting.direction
  at' := stored.at'

def transactionView (stored : StoredTransaction) : TransactionView where
  txId := TxId.text stored.transaction.id
  book := stored.transaction.book.name
  seq := stored.seq
  at' := stored.at'
  postings := stored.transaction.postings.map (postingView stored)
  externalRefs := stored.transaction.externalRefs
  metadata := stored.transaction.metadata

/-- The answer for an id under which there is no transaction; it repeats the
text that was asked for. -/
def noTransaction (txId : String) : ApiError :=
  .notFound ("transaction " ++ txId)

/-- A transaction by the text of its id. -/
def readTransaction (parseUuid : String → Except String ℕ) (txId : String) :
    Except ApiError TransactionView := do
  let id ← (parseUuid txId).mapError fun message => invalid "tx_id" ("not a uuid: " ++ message)
  match ← (store.transaction ⟨id⟩).mapError mapStoreErr with
  | none => .error (noTransaction txId)
  | some stored => .ok (transactionView stored)

def readTrialBalance (book : String) (asOf : Option ℤ) : Except ApiError TrialBalanceView := do
  let book ← parseBookLax book
  let rows ← (store.trialBalance book asOf).mapError mapStoreErr
  .ok ⟨book.name, asOf, rows.map fun row => ⟨row.asset.id, row.debits, row.credits⟩⟩

end StoreReads

/-- A book that is read has a name. -/
theorem parseBookLax_eq_ok {name : String} {book : Book} :
    parseBookLax name = .ok book ↔ name ≠ "" ∧ book = ⟨name⟩ := by
  unfold parseBookLax
  split_ifs with hname
  · simp [hname]
  · simp [hname, eq_comm]

end Talea.Service
