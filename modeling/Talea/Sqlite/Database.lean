import Talea.Sql.Tables

/-!
# Writing to SQLite

The statements of a write transaction, one after the other on the database that
the transaction sees; the write lock is taken up front, so there is no other.
A statement that SQLite refuses is an error, which the code catches as a value.
An addition that leaves the 64-bit range is no error to SQLite: it stores a
`REAL`, and reading that column as an `i64` panics.
-/

namespace Talea.Sqlite

open Sql

/-- What stops a transaction half-way: an error, told apart where it is a
violation of a unique constraint, or a panic. -/
inductive Fault
  | error (error : StoreError) (unique : Bool)
  | panic
  deriving DecidableEq

/-- The most bound variables of a statement. -/
def maxVariables : ℕ := 32766

def failure (message : String) : Fault :=
  .error (.io message) false

def uniqueViolation (columns : String) : Fault :=
  .error (.io ("UNIQUE constraint failed: " ++ columns)) true

/-- A column read as an `i64`. -/
def readInteger (value : Int) : Except Fault Int :=
  if I64.InRange value then .ok value else .error .panic

/-- Refuse a statement with a reason. -/
def refuseIf (refused : Prop) [Decidable refused] (fault : Fault) : Except Fault Unit :=
  if refused then .error fault else .ok ()

/-- What the upsert of the counter row makes of it. -/
def claimedSeq (db : Database) (book : String) : Int :=
  match db.books.lookup book with
  | none => 1
  | some last => last + 1

/-- Claim the next sequence number of a book. -/
def nextSeq (db : Database) (book : String) : Except Fault (Int × Database) := do
  let seq ← readInteger (claimedSeq db book)
  .ok (seq, { db with books := db.books.insert book seq })

def insertEvent (db : Database) (book : String) (seq time : Int) (event : LedgerEvent) :
    Except Fault Database := do
  refuseIf (∃ row ∈ db.events, row.book = book ∧ row.seq = seq)
    (uniqueViolation "events.book, events.seq")
  .ok { db with events := db.events ++ [⟨book, seq, time, event⟩] }

/-- The raw balance of an account once a delta is added. -/
def newRaw (balances : HashMap String BalanceRow) (pending : Pending) : Int :=
  match balances.lookup pending.key with
  | none => pending.delta
  | some row => row.balance + pending.delta

def upsertBalance (seq : Int) (balances : HashMap String BalanceRow) (pending : Pending) :
    HashMap String BalanceRow :=
  let asset := ((balances.lookup pending.key).map BalanceRow.asset).getD pending.asset
  balances.insert pending.key ⟨asset, newRaw balances pending, seq⟩

/-- The multi-row upsert of the balances, and the new balances it returns. -/
def upsertBalances (db : Database) (seq : Int) (pending : List Pending) :
    Except Fault (List Int × Database) := do
  refuseIf (pending = []) (failure "near \"ON\": syntax error")
  refuseIf (maxVariables < 4 * pending.length) (failure "too many SQL variables")
  let raws ← pending.mapM fun entry => readInteger (newRaw db.balances entry)
  .ok (raws, { db with balances := pending.foldl (upsertBalance seq) db.balances })

/-- No account ends below its minimum. -/
def checkMinimums : List (Pending × Int) → Except Fault Unit
  | [] => .ok ()
  | (pending, raw) :: rest =>
      match pending.minBalance with
      | none => checkMinimums rest
      | some min =>
          let wouldBe := effective raw pending.normalSide
          if wouldBe < min then
            .error (.error (.constraintViolation pending.account min wouldBe) false)
          else checkMinimums rest

def insertTransaction (db : Database) (tx : Transaction) (seq time : Int) :
    Except Fault Database := do
  refuseIf (∃ row ∈ db.transactions, row.txId = tx.id) (uniqueViolation "transactions.tx_id")
  refuseIf (∃ row ∈ db.transactions,
      row.book = tx.book.name ∧ row.idempotencyKey = tx.idempotencyKey.key)
    (uniqueViolation "transactions.book, transactions.idempotency_key")
  .ok
    { db with
      transactions := db.transactions ++
        [⟨tx.id, tx.book.name, seq, tx.idempotencyKey.key, time⟩] }

def insertPostings (db : Database) (tx : Transaction) (seq time : Int) :
    Except Fault Database := do
  refuseIf (tx.postings = []) (failure "incomplete input")
  refuseIf (maxVariables < 9 * tx.postings.length) (failure "too many SQL variables")
  refuseIf (∃ row ∈ db.postings, row.txId = tx.id ∧ row.idx < tx.postings.length)
    (uniqueViolation "postings.tx_id, postings.idx")
  .ok { db with postings := db.postings ++ postingRows tx seq time }

/-- The write phase: counter, balances, transaction, postings, event.  `time` is
what `ledger_now` gives. -/
def writeTransaction (db : Database) (tx : Transaction) (pending : List Pending) (time : Int) :
    Except Fault (Committed × Database) := do
  let (seq, db) ← nextSeq db tx.book.name
  let (raws, db) ← upsertBalances db seq pending
  checkMinimums (pending.zip raws)
  let db ← insertTransaction db tx seq time
  let db ← insertPostings db tx seq time
  let db ← insertEvent db tx.book.name seq time (.transactionPosted tx)
  .ok (⟨tx.id, seq, time⟩, db)

/-- The accounts of a draft, loaded by one query. -/
def loadDraft (db : Database) (tx : Transaction) : Except Fault (List Pending) := do
  refuseIf (maxVariables < (tx.postings.map fun posting => posting.account.toKey).dedup.length)
    (failure "too many SQL variables")
  match loadPending db.accounts tx with
  | .error error => .error (.error error false)
  | .ok pending => .ok pending

/-- Lookup, checks, write: what a single commit and a batch share. -/
def commitDraft (db : Database) (tx : Transaction) (time : Int) :
    Except Fault (Committed × Database) :=
  match findCommitted db tx.book tx.idempotencyKey with
  | some prior => .ok (prior, db)
  | none => do
      let pending ← loadDraft db tx
      writeTransaction db tx pending time

abbrev Answer := Except StoreError Committed

/-- One draft in its savepoint: an error undoes what the draft has written, and
the winner of a lost key race answers instead.  `none` is a panic. -/
def commitInSavepoint (db : Database) (tx : Transaction) (time : Int) :
    Option (Answer × Database) :=
  if tx.book.isReserved then some (.error (.invalidBook tx.book), db)
  else
    match commitDraft db tx time with
    | .ok (committed, db') => some (.ok committed, db')
    | .error .panic => none
    | .error (.error error unique) =>
        match if unique then findCommitted db tx.book tx.idempotencyKey else none with
        | some prior => some (.ok prior, db)
        | none => some (.error error, db)

/-- The drafts of a batch one after the other, each with its clock reading. -/
def commitBatch (db : Database) : List (Transaction × Int) → Option (List Answer × Database)
  | [] => some ([], db)
  | (tx, time) :: rest =>
      match commitInSavepoint db tx time with
      | none => none
      | some (answer, db') =>
          (commitBatch db' rest).map fun (answers, final) => (answer :: answers, final)

/-- A single commit; what it does not commit is rolled back. -/
def commit (db : Database) (tx : Transaction) (time : Int) : Option (Answer × Database) :=
  commitInSavepoint db tx time

def registerAsset (db : Database) (asset : AssetDef) (time : Int) :
    Option (Except StoreError Unit × Database) :=
  match db.assets.lookup asset.id.id with
  | some existing =>
      if existing = asset then some (.ok (), db)
      else some (.error (.alreadyExists ("asset " ++ asset.id.id)), db)
  | none =>
      let written : Except Fault Database := do
        let db := { db with assets := db.assets.insert asset.id.id asset }
        let (seq, db) ← nextSeq db systemBook.name
        insertEvent db systemBook.name seq time (.assetRegistered asset)
      match written with
      | .ok db' => some (.ok (), db')
      | .error .panic => none
      | .error (.error error _) => some (.error error, db)

def openAccount (db : Database) (account : AccountDef) (cfg : AccountCfg) (time : Int) :
    Option (Except StoreError Unit × Database) :=
  if account.id.book.isReserved then some (.error (.invalidBook account.id.book), db)
  else if db.assets.lookup account.asset.id = none then
    some (.error (.unknownAsset account.asset), db)
  else
    match db.accounts.lookup account.id.toKey with
    | some row =>
        if row = ⟨account.asset, account.kind, cfg.normalSide, cfg.minBalance⟩ then
          some (.ok (), db)
        else some (.error (.alreadyExists ("account " ++ account.id.toKey)), db)
    | none =>
        let row : AccountRow := ⟨account.asset, account.kind, cfg.normalSide, cfg.minBalance⟩
        let written : Except Fault Database := do
          let db := { db with accounts := db.accounts.insert account.id.toKey row }
          let (seq, db) ← nextSeq db account.id.book.name
          insertEvent db account.id.book.name seq time (.accountOpened account cfg)
        match written with
        | .ok db' => some (.ok (), db')
        | .error .panic => none
        | .error (.error error _) => some (.error error, db)

end Talea.Sqlite
