import Talea.Log.Segment
import Talea.Log.IdemSpill

/-!
# The state of one book

`BookState` is the in-memory projection of one book's event log: balances with
their posting histories, the idempotency index, transaction positions and
lifetime sums.  `Scratch` is the overlay of a batch that is validated before
any of it is applied.
-/

namespace Talea.Log

/-! ## Posting histories -/

structure PostingEntry where
  seq : Int
  at' : Int
  txid : TxId
  minor : Int
  direction : Direction
  rawAfter : Int
  deriving DecidableEq

def chunkLen : ℕ := 4096

theorem chunkLen_pos : 0 < chunkLen := by
  simp [chunkLen]

/-- A posting history cut into full chunks and a tail that is not full. -/
structure PostingIndex where
  sealed : List (List PostingEntry)
  tail : List PostingEntry
  sealed_full : ∀ chunk ∈ sealed, chunk.length = chunkLen
  tail_short : tail.length < chunkLen
  deriving DecidableEq

namespace PostingIndex

def empty : PostingIndex :=
  ⟨[], [], by simp, chunkLen_pos⟩

/-- Append an entry; a tail that becomes full is sealed. -/
def push (index : PostingIndex) (entry : PostingEntry) : PostingIndex :=
  if hfull : (index.tail ++ [entry]).length = chunkLen then
    { sealed := index.sealed ++ [index.tail ++ [entry]]
      tail := []
      sealed_full := by
        intro chunk hchunk
        rcases List.mem_append.1 hchunk with hold | hnew
        · exact index.sealed_full chunk hold
        · rw [List.mem_singleton.1 hnew, hfull]
      tail_short := chunkLen_pos }
  else
    { sealed := index.sealed
      tail := index.tail ++ [entry]
      sealed_full := index.sealed_full
      tail_short := by
        have hlen : (index.tail ++ [entry]).length = index.tail.length + 1 := by simp
        have := index.tail_short
        omega }

/-- The flat sequence a history is serialised as. -/
def flat (index : PostingIndex) : List PostingEntry :=
  index.sealed.flatten ++ index.tail

/-- Deserialising pushes the entries of a flat sequence one by one. -/
def ofFlat (entries : List PostingEntry) : PostingIndex :=
  entries.foldl push empty

end PostingIndex

/-! ## Book state -/

structure AccountState where
  account : AccountDef
  cfg : AccountCfg
  rawBalance : Int
  updatedSeq : Int
  postings : PostingIndex
  deriving DecidableEq

def AccountState.opened (account : AccountDef) (cfg : AccountCfg) : AccountState :=
  ⟨account, cfg, 0, 0, .empty⟩

structure BookState where
  nextSeq : Int
  accounts : HashMap String AccountState
  idem : TieredIdem
  txids : HashMap ℕ (Int × FramePos)
  sums : HashMap AssetId (Int × Int)
  lastAt : Option Int

def BookState.initial : BookState where
  nextSeq := 1
  accounts := ∅
  idem := TieredIdem.withCap defaultIdemHotCap
  txids := ∅
  sums := ∅
  lastAt := none

/-- Batch overlay: projected raw balances, and the staged slot of each key
accepted earlier in the batch. -/
structure Scratch where
  raw : HashMap String Int
  idem : HashMap String ℕ

def Scratch.initial : Scratch :=
  ⟨∅, ∅⟩

/-- Checked step of a debit-positive balance. -/
def Direction.move (direction : Direction) (raw minor : Int) : Option Int :=
  match direction with
  | .debit => I64.checkedAdd raw minor
  | .credit => I64.checkedSub raw minor

/-- Fold one posting of an accepted transaction into the projected balances. -/
def Scratch.stagePosting (scratch : Scratch) (posting : Posting) : Except String Scratch :=
  let key := posting.account.toKey
  match scratch.raw.lookup key with
  | none => .error s!"stage: account {key} was not seeded by validate"
  | some raw =>
      match Direction.move posting.direction raw posting.amount.minor with
      | none => .error s!"stage: projection overflow on account {key}"
      | some next => .ok { scratch with raw := scratch.raw.insert key next }

/-- Fold an accepted transaction into the projected balances. -/
def Scratch.stage (scratch : Scratch) (tx : Transaction) : Except String Scratch :=
  tx.postings.foldlM Scratch.stagePosting scratch

namespace BookState

/-- The account of a posting exists and holds the posting's asset. -/
def checkPosting (state : BookState) (posting : Posting) : Except StoreError Unit :=
  match state.accounts.lookup posting.account.toKey with
  | none => .error (.unknownAccount posting.account)
  | some acct =>
      if posting.amount.asset ≠ acct.account.asset then
        .error (.assetMismatch posting.account acct.account.asset posting.amount.asset)
      else .ok ()

/-- Make the overlay hold the committed balance of a posting's account. -/
def seedPosting (state : BookState) (scratch : Scratch) (posting : Posting) : Scratch :=
  let key := posting.account.toKey
  if key ∈ scratch.raw then scratch
  else
    { scratch with
      raw := scratch.raw.insert key
        (((state.accounts.lookup key).map AccountState.rawBalance).getD 0) }

/-- Advance the projection of one transaction by one posting. -/
def projectPosting (scratch : Scratch) (projected : HashMap String Int) (posting : Posting) :
    Except StoreError (HashMap String Int) :=
  let key := posting.account.toKey
  let base := (scratch.raw.lookup key).getD 0
  let raw := (projected.lookup key).getD base
  match Direction.move posting.direction raw posting.amount.minor with
  | none => .error (.io s!"posting delta overflow for account {key}")
  | some next => .ok (projected.insert key next)

/-- Compare the projected balance under `key` with the account's minimum. -/
def checkMinBalance (state : BookState) (projected : HashMap String Int) (key : String) :
    Except StoreError Unit :=
  match state.accounts.lookup key, projected.lookup key with
  | some acct, some raw =>
      match acct.cfg.minBalance with
      | none => .ok ()
      | some minBalance =>
          let wouldBe := effective raw acct.cfg.normalSide
          if wouldBe < minBalance then
            .error (.constraintViolation acct.account.id minBalance wouldBe)
          else .ok ()
  | _, _ => .ok ()

/-- Validate a transaction against the committed state and the overlay.  The
overlay comes back seeded for the accounts of the transaction; its effects are
not folded in.  The minimum balances are compared account by account in the
order of the postings (the source iterates over a hash map). -/
def validate (state : BookState) (tx : Transaction) (scratch : Scratch) :
    Except StoreError Unit × Scratch :=
  if tx.book.isReserved then (.error (.invalidBook tx.book), scratch)
  else
    match tx.postings.forM state.checkPosting with
    | .error err => (.error err, scratch)
    | .ok () =>
        let scratch := tx.postings.foldl state.seedPosting scratch
        match tx.postings.foldlM (projectPosting scratch) ∅ with
        | .error err => (.error err, scratch)
        | .ok projected =>
            (tx.postings.forM fun posting =>
              state.checkMinBalance projected posting.account.toKey, scratch)

/-- Lifetime debit and credit sums; they saturate. -/
def addSums (sums : HashMap AssetId (Int × Int)) (posting : Posting) :
    HashMap AssetId (Int × Int) :=
  let (debits, credits) := (sums.lookup posting.amount.asset).getD (0, 0)
  sums.insert posting.amount.asset
    (match posting.direction with
      | .debit => (I64.saturatingAdd debits posting.amount.minor, credits)
      | .credit => (debits, I64.saturatingAdd credits posting.amount.minor))

/-- Apply one posting of a committed transaction. -/
def applyPosting (tx : Transaction) (seq : Int) (time : Int) (state : BookState)
    (posting : Posting) : Except String BookState :=
  let key := posting.account.toKey
  let sums := addSums state.sums posting
  match state.accounts.lookup key with
  | none => .ok { state with sums }
  | some acct =>
      match Direction.move posting.direction acct.rawBalance posting.amount.minor with
      | none => .error s!"balance overflow applying seq {seq} to account {key}"
      | some raw =>
          let entry : PostingEntry :=
            { seq, at' := time, txid := tx.id, minor := posting.amount.minor
              direction := posting.direction, rawAfter := raw }
          .ok { state with
            accounts := state.accounts.insert key
              { acct with
                rawBalance := raw
                updatedSeq := seq
                postings := acct.postings.push entry }
            sums }

/-- Apply a committed transaction. -/
def tryApplyTransaction (state : BookState) (tx : Transaction) (seq : Int) (time : Int)
    (pos : FramePos) : Except String BookState := do
  let state ← tx.postings.foldlM (applyPosting tx seq time) state
  .ok { state with
    idem := state.idem.insert tx.idempotencyKey.key ⟨tx.id, seq, time⟩
    txids := state.txids.insert tx.id.uuid (seq, pos)
    nextSeq := seq + 1
    lastAt := some time }

/-- Apply an account-opened event; an account that is open already stays. -/
def applyAccountOpened (state : BookState) (account : AccountDef) (cfg : AccountCfg)
    (seq : Int) (time : Int) : BookState :=
  let key := account.id.toKey
  { state with
    accounts :=
      if key ∈ state.accounts then state.accounts
      else state.accounts.insert key (AccountState.opened account cfg)
    nextSeq := seq + 1
    lastAt := some time }

/-- Consume a sequence number without touching book-local state. -/
def bumpSeq (state : BookState) (seq : Int) (time : Int) : BookState :=
  { state with nextSeq := seq + 1, lastAt := some time }

/-- Apply an event of the log; the writer and the replay treat it alike. -/
def applyEvent (state : BookState) (item : WireEvent × FramePos) : Except String BookState :=
  match item.1.event with
  | .transactionPosted tx => state.tryApplyTransaction tx item.1.seq item.1.at' item.2
  | .accountOpened account cfg =>
      .ok (state.applyAccountOpened account cfg item.1.seq item.1.at')
  | .assetRegistered _ => .ok (state.bumpSeq item.1.seq item.1.at')

/-- Fold a list of events into a state. -/
def replay (state : BookState) (items : List (WireEvent × FramePos)) :
    Except String BookState :=
  items.foldlM applyEvent state

end BookState

end Talea.Log
