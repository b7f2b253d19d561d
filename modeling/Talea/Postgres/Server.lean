import Talea.Lib.Sessions
import Talea.Sql.Tables

/-!
# The Postgres server

Read-committed transactions over the tables.  A statement sees what has been
committed when it runs, and what its own transaction has written.  What a
transaction writes it locks: rows by their key, and the entries of unique
indexes.  A statement that would lock what another transaction holds waits, and
then runs on what that one has left; locks go with the transaction, or with a
rollback to a savepoint.  Text that Postgres cannot store and lost connections
are left out.
-/

namespace Talea.Postgres

open Sql

/-- The error of a statement, told apart where it is a violation of a unique
constraint. -/
structure Fault where
  error : StoreError
  unique : Bool

/-- A row of the multi-row upsert of the balances.  `steps` is what the delta is
the sum of; it is not sent. -/
structure BalanceUpsert where
  key : String
  asset : AssetId
  delta : Int
  updatedSeq : Int
  steps : List Int

inductive Statement
  | begin
  | commit
  | rollback
  | savepoint
  | release
  | rollbackTo
  | selectAsset (id : String)
  | insertAsset (asset : AssetDef)
  | selectAccount (key : String)
  | insertAccount (key : String) (row : AccountRow)
  | selectTransaction (book key : String)
  | selectTransactions (book : String) (keys : List String)
  | selectAccounts (keys : List String)
  /-- The upsert of the counter row, with the reading of the clock in its
  `RETURNING`. -/
  | claimSeqs (book : String) (count : Int)
  | upsertBalances (rows : List BalanceUpsert)
  | insertTransactions (rows : List TransactionRow)
  | insertPostings (rows : List PostingRow)
  | insertEvents (rows : List EventRow)
  | notify (book : String)

/-- What a statement returns; an upsert of balances, the new balances in the
order of its rows. -/
def Statement.Rows : Statement → Type
  | .selectAsset _ => Option AssetDef
  | .selectAccount _ => Option AccountRow
  | .selectTransaction _ _ => Option Committed
  | .selectTransactions _ _ => List (String × Committed)
  | .selectAccounts _ => HashMap String AccountRow
  | .claimSeqs _ _ => Int × Int
  | .upsertBalances _ => List Int
  | _ => Unit

abbrev Statement.Reply (statement : Statement) : Type :=
  Except Fault statement.Rows

/-- The row of a transaction. -/
def transactionRow (tx : Transaction) (seq time : Int) : TransactionRow :=
  ⟨tx.id, tx.book.name, seq, tx.idempotencyKey.key, time⟩

/-! ## Writes and locks -/

/-- What a transaction has written and not committed. -/
inductive Write
  | asset (asset : AssetDef)
  | account (key : String) (row : AccountRow)
  | counter (book : String) (last : Int)
  | balance (key : String) (row : BalanceRow)
  | transaction (row : TransactionRow)
  | posting (row : PostingRow)
  | event (row : EventRow)
  | notify (book : String)

inductive Lock
  | asset (id : String)
  | account (key : String)
  | counter (book : String)
  | balance (key : String)
  | transaction (id : TxId)
  | idempotencyKey (book key : String)
  | posting (id : TxId) (idx : ℕ)
  | event (book : String) (seq : Int)
  deriving DecidableEq

/-- The rows and index entries that a write locks. -/
def Write.locks : Write → List Lock
  | .asset added => [.asset added.id.id]
  | .account key _ => [.account key]
  | .counter book _ => [.counter book]
  | .balance key _ => [.balance key]
  | .transaction row => [.transaction row.txId, .idempotencyKey row.book row.idempotencyKey]
  | .posting row => [.posting row.txId row.idx]
  | .event row => [.event row.book row.seq]
  | .notify _ => []

def Write.apply (db : Database) : Write → Database
  | .asset added => { db with assets := db.assets.insert added.id.id added }
  | .account key row => { db with accounts := db.accounts.insert key row }
  | .counter book last => { db with books := db.books.insert book last }
  | .balance key row => { db with balances := db.balances.insert key row }
  | .transaction row => { db with transactions := db.transactions ++ [row] }
  | .posting row => { db with postings := db.postings ++ [row] }
  | .event row => { db with events := db.events ++ [row] }
  | .notify _ => db

/-- The database as a transaction with these writes sees it. -/
def view (db : Database) (writes : List Write) : Database :=
  writes.foldl Write.apply db

def locks (writes : List Write) : List Lock :=
  writes.flatMap Write.locks

/-- The events among the writes. -/
def eventRows (writes : List Write) : List EventRow :=
  writes.filterMap fun write =>
    match write with
    | .event row => some row
    | _ => none

/-- The books that a commit of the writes notifies. -/
def notified (writes : List Write) : List String :=
  writes.filterMap fun write =>
    match write with
    | .notify book => some book
    | _ => none

/-! ## Statements -/

def uniqueViolation (table : String) : Fault :=
  ⟨.io ("duplicate key value violates unique constraint \"" ++ table ++ "_pkey\""), true⟩

def keyViolation : Fault :=
  ⟨.io ("duplicate key value violates unique constraint " ++
    "\"transactions_book_idempotency_key_key\""), true⟩

def bigintOutOfRange : Fault :=
  ⟨.io "bigint out of range", false⟩

def inFailedTransaction : Fault :=
  ⟨.io ("current transaction is aborted, commands ignored until end of transaction block"), false⟩

/-- What the upsert makes of a counter row. -/
def claimed (db : Database) (book : String) (count : Int) : Int :=
  (db.books.lookup book).getD 0 + count

/-- The balance of an account before a batch touches it. -/
def rawBalance (db : Database) (key : String) : Int :=
  ((db.balances.lookup key).map BalanceRow.balance).getD 0

/-- The balance row that the upsert leaves. -/
def upserted (db : Database) (row : BalanceUpsert) : BalanceRow where
  asset := ((db.balances.lookup row.key).map BalanceRow.asset).getD row.asset
  balance := rawBalance db row.key + row.delta
  updatedSeq := row.updatedSeq

/-- Insert rows one after the other into a table with unique indexes. -/
def insertRows {α : Type} (write : α → Write) (conflict : Database → α → Option Fault) :
    Database → List α → Except Fault (List Write)
  | _, [] => .ok []
  | db, row :: rows =>
      match conflict db row with
      | some fault => .error fault
      | none => (insertRows write conflict ((write row).apply db) rows).map (write row :: ·)

def transactionConflict (db : Database) (row : TransactionRow) : Option Fault :=
  if ∃ other ∈ db.transactions, other.txId = row.txId then some (uniqueViolation "transactions")
  else if ∃ other ∈ db.transactions,
      other.book = row.book ∧ other.idempotencyKey = row.idempotencyKey then some keyViolation
  else none

def postingConflict (db : Database) (row : PostingRow) : Option Fault :=
  if ∃ other ∈ db.postings, other.txId = row.txId ∧ other.idx = row.idx then
    some (uniqueViolation "postings")
  else none

def eventConflict (db : Database) (row : EventRow) : Option Fault :=
  if ∃ other ∈ db.events, other.book = row.book ∧ other.seq = row.seq then
    some (uniqueViolation "events")
  else none

/-- A transaction row as an answer. -/
def committedOf (row : TransactionRow) : Committed :=
  ⟨row.txId, row.seq, row.committedAt⟩

/-- The rows of some accounts. -/
def accountRows (db : Database) (keys : List String) : HashMap String AccountRow :=
  keys.foldl
    (fun rows key =>
      match db.accounts.lookup key with
      | some row => rows.insert key row
      | none => rows)
    ∅

/-- What a statement returns and writes, from what its transaction sees. -/
def Statement.run (db : Database) (clock : Int) :
    (statement : Statement) → Except Fault (statement.Rows × List Write)
  | .begin | .commit | .rollback | .savepoint | .release | .rollbackTo => .ok ((), [])
  | .selectAsset id => .ok (db.assets.lookup id, [])
  | .insertAsset asset =>
      match db.assets.lookup asset.id.id with
      | some _ => .error (uniqueViolation "assets")
      | none => .ok ((), [.asset asset])
  | .selectAccount key => .ok (db.accounts.lookup key, [])
  | .insertAccount key row =>
      match db.accounts.lookup key with
      | some _ => .error (uniqueViolation "accounts")
      | none => .ok ((), [.account key row])
  | .selectTransaction book key =>
      .ok ((db.transactions.find? fun row => row.book = book ∧ row.idempotencyKey = key).map
        committedOf, [])
  | .selectTransactions book keys =>
      .ok ((db.transactions.filter fun row => row.book = book ∧ row.idempotencyKey ∈ keys).map
        fun row => (row.idempotencyKey, committedOf row), [])
  | .selectAccounts keys => .ok (accountRows db keys, [])
  | .claimSeqs book count =>
      if I64.InRange (claimed db book count) then
        .ok ((claimed db book count, clock), [.counter book (claimed db book count)])
      else .error bigintOutOfRange
  | .upsertBalances rows =>
      if ∀ row ∈ rows, I64.InRange (rawBalance db row.key + row.delta) then
        .ok (rows.map fun row => rawBalance db row.key + row.delta,
          rows.map fun row => .balance row.key (upserted db row))
      else .error bigintOutOfRange
  | .insertTransactions rows =>
      (insertRows .transaction transactionConflict db rows).map fun writes => ((), writes)
  | .insertPostings rows =>
      (insertRows .posting postingConflict db rows).map fun writes => ((), writes)
  | .insertEvents rows =>
      (insertRows .event eventConflict db rows).map fun writes => ((), writes)
  | .notify book => .ok ((), [.notify book])

/-! ## Transactions -/

/-- An open transaction: its writes, the places of its savepoints, and whether a
statement has failed. -/
structure Tx where
  writes : List Write
  marks : List ℕ
  failed : Bool

def Tx.idle : Tx :=
  ⟨[], [], false⟩

/-- What a commit has published: its events, and the books that it notified. -/
structure Commit where
  rows : List EventRow
  books : List String

/-- What all see: the committed rows, the clock, and the commits so far. -/
structure Shared where
  db : Database
  clock : Int
  commits : List Commit

def Tx.view (tx : Tx) (shared : Shared) : Database :=
  Postgres.view shared.db tx.writes

/-- What a commit leaves. -/
def Tx.committed (tx : Tx) (shared : Shared) : Shared :=
  { shared with
    db := tx.view shared
    commits := shared.commits ++ [⟨eventRows tx.writes, notified tx.writes⟩] }

/-- A failed transaction answers nothing but the statements that end it or go
back to a savepoint, and its `COMMIT` is a rollback. -/
def exec (shared : Shared) (tx : Tx) (statement : Statement) : statement.Reply × Shared × Tx :=
  match statement with
  | .begin => (.ok (), shared, .idle)
  | .rollback => (.ok (), shared, .idle)
  | .commit => (.ok (), if tx.failed then shared else tx.committed shared, .idle)
  | .rollbackTo =>
      match tx.marks with
      | [] => (.error inFailedTransaction, shared, { tx with failed := true })
      | mark :: marks =>
          (.ok (), shared, ⟨tx.writes.take mark, mark :: marks, false⟩)
  | .savepoint =>
      if tx.failed then (.error inFailedTransaction, shared, tx)
      else (.ok (), shared, { tx with marks := tx.writes.length :: tx.marks })
  | .release =>
      if tx.failed then (.error inFailedTransaction, shared, tx)
      else (.ok (), shared, { tx with marks := tx.marks.tail })
  | statement =>
      if tx.failed then (.error inFailedTransaction, shared, tx)
      else
        match statement.run (tx.view shared) shared.clock with
        | .ok (rows, writes) => (.ok rows, shared, { tx with writes := tx.writes ++ writes })
        | .error fault => (.error fault, shared, { tx with failed := true })

/-- No row or index entry is locked by both. -/
def Tx.Apart (own other : Tx) : Prop :=
  ∀ lock ∈ locks own.writes, lock ∉ locks other.writes

def server : Server Statement Statement.Reply Shared Tx ℕ where
  exec := exec
  Apart := Tx.Apart
  decApart _ _ := inferInstanceAs (Decidable (∀ lock ∈ _, lock ∉ _))
  symm _ _ hapart lock hother hown := hapart lock hown hother
  idle := .idle
  idle_apart _ := nofun
  drift elapsed shared := { shared with clock := shared.clock + elapsed }

end Talea.Postgres
