import Talea.Log.Calls
import Talea.Log.Histories
import Talea.Log.PostingSearch

/-!
# Reading an account

Balances and posting histories, as of now or from some point on, read from the
states in memory.
-/

namespace Talea.Log

/-- What a read of the store looks at: the flag of the shutdown, and the states
of the books. -/
structure StoreView where
  shutDown : Bool
  books : HashMap String BookState

/-- The error for a book name that is not safe as a directory. -/
def invalidBookName (book : String) : StoreError :=
  .io ("invalid book name " ++ book.quote ++
    ": must not be empty or contain '/', '\\', or '..'")

namespace StoreView

/-- The state of a book, without creating the book. -/
def existingBook (store : StoreView) (book : String) : Except StoreError (Option BookState) :=
  if store.shutDown then .error (.io "store has been shut down")
  else if validateBookName book then .ok (store.books.lookup book)
  else .error (invalidBookName book)

/-- The account, if the book and the account exist. -/
def findAccount (store : StoreView) (account : AccountId) : Except StoreError AccountState :=
  match store.existingBook account.book.name with
  | .error err => .error err
  | .ok none => .error (.unknownAccount account)
  | .ok (some state) =>
      match state.accounts.lookup account.toKey with
      | none => .error (.unknownAccount account)
      | some acct => .ok acct

end StoreView

/-! ## Balances -/

structure BalanceSnapshot where
  minor : Int
  asset : AssetId
  updatedSeq : Int
  deriving DecidableEq

/-- The balance now, or as it stood at an instant. -/
def AccountState.balance (acct : AccountState) (asOf : Option Int) : BalanceSnapshot :=
  match asOf with
  | none => ⟨effective acct.rawBalance acct.cfg.normalSide, acct.account.asset, acct.updatedSeq⟩
  | some time =>
      let idx := acct.postings.partitionPointAt time
      let entry := if idx = 0 then none else acct.postings.get (idx - 1)
      match entry with
      | none => ⟨0, acct.account.asset, 0⟩
      | some entry =>
          ⟨effective entry.rawAfter acct.cfg.normalSide, acct.account.asset, entry.seq⟩

/-- Current balance, or the one as of an instant. -/
def balance (store : StoreView) (account : AccountId) (asOf : Option Int) :
    Except StoreError BalanceSnapshot :=
  (store.findAccount account).map fun acct => acct.balance asOf

/-! ## Histories -/

structure PostingRecord where
  seq : Int
  txid : TxId
  account : AccountId
  minor : Int
  asset : AssetId
  direction : Direction
  at' : Int
  deriving DecidableEq

/-- Take entries up to a number of distinct seqs; the entries of one seq stay
together. -/
def takeSeqs (limit : ℕ) : ℕ → Int → List PostingEntry → List PostingEntry
  | _, _, [] => []
  | distinct, lastSeq, entry :: entries =>
      if entry.seq ≠ lastSeq then
        if limit ≤ distinct then []
        else entry :: takeSeqs limit (distinct + 1) entry.seq entries
      else entry :: takeSeqs limit distinct lastSeq entries

def AccountState.record (acct : AccountState) (account : AccountId) (entry : PostingEntry) :
    PostingRecord where
  seq := entry.seq
  txid := entry.txid
  account := account
  minor := entry.minor
  asset := acct.account.asset
  direction := entry.direction
  at' := entry.at'

/-- The history of an account behind a seq; the limit counts distinct seqs. -/
def AccountState.history (acct : AccountState) (account : AccountId) (afterSeq : Option Int)
    (limit : ℕ) : List PostingRecord :=
  let start := acct.postings.partitionPointSeq (afterSeq.getD 0)
  (takeSeqs limit 0 0 (acct.postings.iterFrom start)).map (acct.record account)

def accountHistory (store : StoreView) (account : AccountId) (afterSeq : Option Int)
    (limit : ℕ) : Except StoreError (List PostingRecord) :=
  if limit = 0 then .ok []
  else (store.findAccount account).map fun acct => acct.history account afterSeq limit

end Talea.Log
