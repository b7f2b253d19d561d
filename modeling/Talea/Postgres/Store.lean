import Talea.Postgres.Server
import Talea.Core.Store

/-!
# The calls of the Postgres store

Each call is a program of statements.  A transaction that is dropped is rolled
back; the rollback is taken to come at once, since it does nothing but give
locks back.
-/

namespace Talea.Postgres

open Sql

abbrev Script (α : Type) : Type :=
  Program Statement Statement.Reply α

/-- Statements in a transaction, up to the first one that fails. -/
abbrev Db (α : Type) : Type :=
  ExceptT Fault (Program Statement Statement.Reply) α

def Statement.send (statement : Statement) : Db statement.Rows :=
  ExceptT.mk (Program.send statement)

/-- A transaction that is dropped behind its last statement. -/
def dropped {α : Type} (body : Db α) : Script (Except Fault α) := do
  let _ ← Program.send Statement.begin
  let result ← body.run
  let _ ← Program.send Statement.rollback
  return result

def fail {α : Type} (error : StoreError) : Db α :=
  throw ⟨error, false⟩

abbrev Answer := Except StoreError Committed

/-! ## Shared helpers -/

def nextSeq (book : String) : Db (Int × Int) :=
  Statement.send (.claimSeqs book 1)

def insertEvent (book : String) (seq time : Int) (event : LedgerEvent) : Db Unit :=
  Statement.send (.insertEvents [⟨book, seq, time, event⟩])

def notify (book : Book) : Db Unit :=
  Statement.send (.notify book.name)

def findCommitted (book : Book) (idem : IdempotencyKey) : Db (Option Committed) :=
  Statement.send (.selectTransaction book.name idem.key)

def loadAccounts (keys : List String) : Db (HashMap String AccountRow) :=
  Statement.send (.selectAccounts keys)

def foldPostings (tx : Transaction) (accounts : HashMap String AccountRow) :
    Except StoreError (List Pending) :=
  Sql.loadPending accounts tx

/-- The keys of the accounts that some postings touch. -/
def accountKeys (postings : List Posting) : List String :=
  (postings.map fun posting => posting.account.toKey).dedup

def loadPending (tx : Transaction) : Db (List Pending) := do
  let accounts ← loadAccounts (accountKeys tx.postings)
  match foldPostings tx accounts with
  | .ok pending => return pending
  | .error error => fail error

/-- The first account that ends below its minimum. -/
def checkMinimums : List (Pending × Int) → Except StoreError Unit
  | [] => .ok ()
  | (pending, raw) :: rest =>
      match pending.minBalance with
      | none => checkMinimums rest
      | some min =>
          let wouldBe := effective raw pending.normalSide
          if wouldBe < min then
            .error (.constraintViolation pending.account min wouldBe)
          else checkMinimums rest

def Pending.upsert (seq : Int) (pending : Pending) : BalanceUpsert where
  key := pending.key
  asset := pending.asset
  delta := pending.delta
  updatedSeq := seq
  steps := [pending.delta]

/-- The write phase, every statement of it under the lock of the book's
counter. -/
def writeTransaction (tx : Transaction) (pending : List Pending) : Db Committed := do
  let (seq, time) ← nextSeq tx.book.name
  let raws ← Statement.send (.upsertBalances (pending.map (Pending.upsert seq)))
  match checkMinimums (pending.zip raws) with
  | .error error => fail error
  | .ok () =>
      Statement.send (.insertTransactions [transactionRow tx seq time])
      Statement.send (.insertPostings (postingRows tx seq time))
      insertEvent tx.book.name seq time (.transactionPosted tx)
      notify tx.book
      return ⟨tx.id, seq, time⟩

def commitDraft (tx : Transaction) : Db Committed := do
  match ← findCommitted tx.book tx.idempotencyKey with
  | some prior => return prior
  | none =>
      let pending ← loadPending tx
      writeTransaction tx pending

/-- The answer to a draft that has failed: behind a unique violation, that of
the transaction which owns the key. -/
def lostRace (fault : Fault) (found : Except Fault (Option Committed)) : Answer :=
  match found with
  | .ok (some prior) => .ok prior
  | .ok none => .error fault.error
  | .error other => .error other.error

def commit (tx : Transaction) : Script Answer :=
  if tx.book.isReserved then return .error (.invalidBook tx.book)
  else do
    match ← dropped (do
        let committed ← commitDraft tx
        let _ ← Statement.send .commit
        return committed) with
    | .ok committed => return .ok committed
    | .error fault =>
        if fault.unique then
          let found ← dropped (findCommitted tx.book tx.idempotencyKey)
          return lostRace fault found
        else return .error fault.error

/-- One draft in its savepoint. -/
def commitInSavepoint (tx : Transaction) : Script Answer :=
  if tx.book.isReserved then return .error (.invalidBook tx.book)
  else do
    match ← Program.send Statement.savepoint with
    | .error fault => return .error fault.error
    | .ok _ =>
        match ← (commitDraft tx).run with
        | .ok committed =>
            match ← Program.send Statement.release with
            | .ok _ => return .ok committed
            | .error fault => return .error fault.error
        | .error fault =>
            match ← ExceptT.run (do
                let _ ← Statement.send .rollbackTo
                Statement.send .release) with
            | .error _ => return .error (.io "draft failed; savepoint rollback also failed")
            | .ok _ =>
                if fault.unique then
                  let found ← (findCommitted tx.book tx.idempotencyKey).run
                  return lostRace fault found
                else return .error fault.error

/-- The drafts of a batch, each in its savepoint. -/
def commitDrafts : List Transaction → Script (List Answer)
  | [] => return []
  | tx :: txs => do
      let answer ← commitInSavepoint tx
      let answers ← commitDrafts txs
      return answer :: answers

def commitBatchPerDraft (txs : List Transaction) : Script (List Answer) := do
  match ← Program.send Statement.begin with
  | .error _ => return txs.map fun _ => .error (.io "failed to begin batch transaction")
  | .ok _ =>
      let answers ← commitDrafts txs
      match ← Program.send Statement.commit with
      | .ok _ => return answers
      | .error _ => return txs.map fun _ => .error (.io "batch commit failed")

/-! ## The fast path -/

/-- One account's contribution across the write set; the sum is a plain `+=` on
an `i64`. -/
structure AcctAgg where
  totalDelta : Int
  steps : List (ℕ × Int)
  lastTouchIdx : ℕ

/-- The drafts to write with their places in the input, the slots that repeat a
key, and the accounts touched. -/
structure WriteSet where
  writes : List (ℕ × Transaction)
  dedupSlots : List (ℕ × String)
  agg : List (String × AcctAgg)

def addPending (draftIdx : ℕ) (agg : List (String × AcctAgg)) (pending : Pending) :
    List (String × AcctAgg) :=
  let entry := (agg.lookup pending.key).getD ⟨0, [], draftIdx⟩
  agg.filter (fun other => other.1 ≠ pending.key) ++
    [(pending.key,
      { totalDelta := I64.wrappingAdd entry.totalDelta pending.delta
        steps := entry.steps ++ [(draftIdx, pending.delta)]
        lastTouchIdx := draftIdx })]

/-- One turn of the loop over the batch. -/
def addDraft (byKey : HashMap String Committed) (accounts : HashMap String AccountRow)
    (set : WriteSet) (slot : Transaction × ℕ) : Except StoreError WriteSet :=
  let (tx, input) := slot
  let key := tx.idempotencyKey.key
  if (byKey.lookup key).isSome ∨ key ∈ set.writes.map fun draft => draft.2.idempotencyKey.key then
    .ok { set with dedupSlots := set.dedupSlots ++ [(input, key)] }
  else do
    let pendings ← foldPostings tx accounts
    .ok
      { set with
        writes := set.writes ++ [(input, tx)]
        agg := pendings.foldl (addPending set.writes.length) set.agg }

def buildWriteSet (byKey : HashMap String Committed) (accounts : HashMap String AccountRow)
    (txs : List Transaction) : Except StoreError WriteSet :=
  txs.zipIdx.foldlM (addDraft byKey accounts) ⟨[], [], []⟩

/-- The rows of the balance upsert, sorted by key. -/
def balanceUpserts (accounts : HashMap String AccountRow) (first : Int)
    (agg : List (String × AcctAgg)) : List BalanceUpsert :=
  (agg.insertionSort fun left right => left.1 ≤ right.1).map fun (key, entry) =>
    { key
      asset := ((accounts.lookup key).map AccountRow.asset).getD ⟨""⟩
      delta := entry.totalDelta
      updatedSeq := first + entry.lastTouchIdx
      steps := entry.steps.map Prod.snd }

/-- The balance behind each draft stays at the minimum or above. -/
def prefixesHold (normalSide : Option Direction) (min : Int) : Int → List Int → Bool
  | _, [] => true
  | running, delta :: steps =>
      let running := I64.wrappingAdd running delta
      decide (min ≤ effective running normalSide) && prefixesHold normalSide min running steps

/-- The check of the running balances of one account, replayed from its balance
before the batch. -/
def accountHolds (accounts : HashMap String AccountRow) (row : BalanceUpsert) (final : Int) :
    Bool :=
  match accounts.lookup row.key with
  | none => true
  | some acct =>
      match acct.minBalance with
      | none => true
      | some min =>
          prefixesHold acct.normalSide min (I64.wrappingSub final row.delta) row.steps

/-- What makes the fast path give up. -/
def aborted : Fault :=
  ⟨.io "fast path aborted", false⟩

/-- A draft of the write set with its sequence number. -/
structure NumberedDraft where
  seq : Int
  input : ℕ
  tx : Transaction

def numbered (first : Int) (writes : List (ℕ × Transaction)) : List NumberedDraft :=
  writes.zipIdx.map fun (draft, idx) => ⟨first + idx, draft.1, draft.2⟩

def NumberedDraft.committed (time : Int) (draft : NumberedDraft) : Committed :=
  ⟨draft.tx.id, draft.seq, time⟩

/-- Write the whole set in the open transaction; what comes back is the drafts
with their time. -/
def writeSet (book : Book) (set : WriteSet) (accounts : HashMap String AccountRow) :
    Db (List NumberedDraft × Int) := do
  let count : Int := set.writes.length
  let (last, time) ← Statement.send (.claimSeqs book.name count)
  let first := last - count + 1
  let rows := balanceUpserts accounts first set.agg
  let finals ← Statement.send (.upsertBalances rows)
  if (rows.zip finals).all fun (row, final) => accountHolds accounts row final then
    let drafts := numbered first set.writes
    Statement.send (.insertTransactions (drafts.map fun draft =>
      transactionRow draft.tx draft.seq time))
    Statement.send (.insertPostings (drafts.flatMap fun draft =>
      postingRows draft.tx draft.seq time))
    Statement.send (.insertEvents (drafts.map fun draft =>
      ⟨book.name, draft.seq, time, .transactionPosted draft.tx⟩))
    notify book
    return (drafts, time)
  else throw aborted

def collectByKey (byKey : HashMap String Committed) (rows : List (String × Committed)) :
    HashMap String Committed :=
  rows.foldl (fun map row => map.insert row.1 row.2) byKey

/-- The answer to each slot: that of its key where it repeats one, or that of
the draft that has been written for it. -/
def answersOf (byKey : HashMap String Committed) (set : WriteSet) (done : List (ℕ × Committed))
    (count : ℕ) : Except Fault (List Answer) :=
  (List.range count).mapM fun input =>
    let committed :=
      match set.dedupSlots.lookup input with
      | some key => byKey.lookup key
      | none => done.lookup input
    match committed with
    | some committed => .ok (.ok committed)
    | none => .error aborted

/-- The set-based path; `none` sends the batch to the fallback. -/
def tryCommitBatchFast (txs : List Transaction) : Script (Option (List Answer)) :=
  match txs with
  | [] => return none
  | head :: _ =>
      if head.book.isReserved ∨ ∃ tx ∈ txs, tx.book ≠ head.book then return none
      else do
        let result ← dropped (do
          let priors ← Statement.send (.selectTransactions head.book.name
            (txs.map fun tx => tx.idempotencyKey.key))
          let byKey := collectByKey ∅ priors
          let accounts ← loadAccounts (accountKeys (txs.flatMap Transaction.postings))
          match buildWriteSet byKey accounts txs with
          | .error _ => throw aborted
          | .ok set =>
              if set.writes = [] then liftExcept (answersOf byKey set [] txs.length)
              else
                let (drafts, time) ← writeSet head.book set accounts
                let _ ← Statement.send .commit
                let byKey := collectByKey byKey (drafts.map fun draft =>
                  (draft.tx.idempotencyKey.key, draft.committed time))
                let done := drafts.map fun draft => (draft.input, draft.committed time)
                liftExcept (answersOf byKey set done txs.length))
        return result.toOption

def commitBatchTraced (txs : List Transaction) : Script (List Answer) :=
  if txs = [] then return []
  else do
    match ← tryCommitBatchFast txs with
    | some answers => return answers
    | none => commitBatchPerDraft txs

/-! ## Registering and opening -/

def registerAsset (asset : AssetDef) : Db Unit := do
  match ← Statement.send (.selectAsset asset.id.id) with
  | some existing =>
      if existing = asset then return ()
      else fail (.alreadyExists ("asset " ++ asset.id.id))
  | none =>
      Statement.send (.insertAsset asset)
      let (seq, time) ← nextSeq systemBook.name
      insertEvent systemBook.name seq time (.assetRegistered asset)
      notify systemBook
      let _ ← Statement.send .commit
      return ()

def openAccount (account : AccountDef) (cfg : AccountCfg) : Db Unit := do
  match ← Statement.send (.selectAsset account.asset.id) with
  | none => fail (.unknownAsset account.asset)
  | some _ =>
      let row : AccountRow := ⟨account.asset, account.kind, cfg.normalSide, cfg.minBalance⟩
      match ← Statement.send (.selectAccount account.id.toKey) with
      | some existing =>
          if existing = row then return ()
          else fail (.alreadyExists ("account " ++ account.id.toKey))
      | none =>
          Statement.send (.insertAccount account.id.toKey row)
          let (seq, time) ← nextSeq account.id.book.name
          insertEvent account.id.book.name seq time (.accountOpened account cfg)
          notify account.id.book
          let _ ← Statement.send .commit
          return ()

/-! ## Instances next to each other -/

inductive Call
  | registerAsset (asset : AssetDef)
  | openAccount (account : AccountDef) (cfg : AccountCfg)
  | commit (tx : Transaction)
  | commitBatch (txs : List Transaction)

inductive Result
  | registered (result : Except StoreError Unit)
  | committed (answers : List Answer)

/-- What a call makes of a fault. -/
def registered (result : Except Fault Unit) : Result :=
  .registered (result.mapError Fault.error)

def Call.program : Call → Script Result
  | .registerAsset asset => registered <$> dropped (Postgres.registerAsset asset)
  | .openAccount account cfg =>
      if account.id.book.isReserved then
        return .registered (.error (.invalidBook account.id.book))
      else registered <$> dropped (Postgres.openAccount account cfg)
  | .commit tx => (fun answer => .committed [answer]) <$> Postgres.commit tx
  | .commitBatch txs => .committed <$> commitBatchTraced txs

/-- The calls in flight on any number of instances, and the database. -/
abbrev Instances :=
  World Call Statement Statement.Reply Result Shared Tx

abbrev Event :=
  WorldEvent Call ℕ

def step (world : Instances) (event : Event) : Option Instances :=
  world.step server Call.program event

def fresh : Instances :=
  ⟨⟨.empty, 0, []⟩, []⟩

end Talea.Postgres
