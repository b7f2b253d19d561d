import Talea.Postgres.Plan

/-!
# The fast path

A batch is read, added up and written in one transaction.  Its numbers are
claimed at once, and each account is upserted once, with the sum of what the
drafts do to it.  When the running balances stay in range, what the transaction
commits is its drafts in a row.
-/

namespace Talea.Postgres

open Sql

/-! ## The upsert -/

section Upserts

variable {accounts : HashMap String AccountRow} {folds : List (List Pending)}
  {agg : List (String × AcctAgg)} {first : Int}

theorem Aggregated.upsert (haggregated : Aggregated folds agg) {row : BalanceUpsert}
    (hrow : row ∈ balanceUpserts accounts first agg) :
    row.steps = stepsOf folds row.key ∧ row.delta = I64.wrapping (stepsOf folds row.key).sum := by
  obtain ⟨entry, hentry, rfl⟩ := List.mem_map.1 hrow
  have hmem : entry ∈ agg := (List.perm_insertionSort _ agg).mem_iff.1 hentry
  exact ⟨haggregated.steps entry hmem, haggregated.total entry hmem⟩

theorem Aggregated.upsert_keys (haggregated : Aggregated folds agg) (key : String) :
    key ∈ (balanceUpserts accounts first agg).map BalanceUpsert.key ↔ stepsOf folds key ≠ [] := by
  rw [← haggregated.keys, balanceUpserts, List.map_map]
  exact ((List.perm_insertionSort _ agg).map Prod.fst).mem_iff

end Upserts

/-- The rows that an upsert leaves. -/
def upsertedRows (db : Database) (rows : List BalanceUpsert) : List (String × BalanceRow) :=
  rows.map fun row => (row.key, upserted db row)

/-- The new balance is the old one and the steps, where the balances behind the
steps stay in the range. -/
theorem add_wrapping_eq {base delta : Int} {steps : List Int} (hbase : I64.InRange base)
    (hdelta : delta = I64.wrapping steps.sum) (hfits : I64.InRange (base + delta))
    (hruns : I64.RunsInRange base steps) : base + delta = base + steps.sum := by
  have htotal := hruns.total hbase
  obtain ⟨turns, hturns⟩ := I64.wrapping_eq_add_mul steps.sum
  rw [hdelta, hturns] at hfits ⊢
  unfold I64.InRange at hfits htotal
  omega

/-- What the upsert and the checks behind it have found out. -/
theorem fits_of_upsert {accounts : HashMap String AccountRow} {db : Database} {first : Int}
    {folds : List (List Pending)} {agg : List (String × AcctAgg)}
    (haggregated : Aggregated folds agg) (hraw : ∀ key, I64.InRange (rawBalance db key))
    (hrange : ∀ row ∈ balanceUpserts accounts first agg,
      I64.InRange (rawBalance db row.key + row.delta))
    (hsums : ∀ row ∈ balanceUpserts accounts first agg,
      I64.InRange (rawBalance db row.key + row.delta) →
        I64.RunsInRange (rawBalance db row.key) row.steps)
    (hchecks : ∀ row ∈ balanceUpserts accounts first agg,
      accountHolds accounts row (rawBalance db row.key + row.delta) = true) :
    Fits accounts db folds ∧
      ∀ entry ∈ upsertedRows db (balanceUpserts accounts first agg),
        entry.2.balance = rawBalance db entry.1 + (stepsOf folds entry.1).sum := by
  have hrow : ∀ key, stepsOf folds key ≠ [] →
      ∃ row ∈ balanceUpserts accounts first agg, row.key = key := fun key hsteps =>
    List.mem_map.1 ((haggregated.upsert_keys key).2 hsteps)
  have hruns : ∀ row ∈ balanceUpserts accounts first agg,
      I64.RunsInRange (rawBalance db row.key) (stepsOf folds row.key) := by
    intro row hmem
    rw [← (haggregated.upsert hmem).1]
    exact hsums row hmem (hrange row hmem)
  refine ⟨⟨fun key => ?_, fun key acct min hacct hmin => ?_⟩, fun entry hentry => ?_⟩
  · by_cases hsteps : stepsOf folds key = []
    · rw [hsteps]
      trivial
    · obtain ⟨row, hmem, rfl⟩ := hrow key hsteps
      exact hruns row hmem
  · by_cases hsteps : stepsOf folds key = []
    · rw [hsteps]
      rfl
    · obtain ⟨row, hmem, rfl⟩ := hrow key hsteps
      have hholds := hchecks row hmem
      unfold accountHolds at hholds
      rw [hacct] at hholds
      dsimp only at hholds
      rw [hmin] at hholds
      dsimp only at hholds
      have hback : I64.wrappingSub (rawBalance db row.key + row.delta) row.delta =
          rawBalance db row.key := by
        rw [I64.wrappingSub, Int.add_sub_cancel, I64.wrapping_of_inRange (hraw row.key)]
      rwa [hback, (haggregated.upsert hmem).1] at hholds
  · obtain ⟨row, hmem, rfl⟩ := List.mem_map.1 hentry
    exact add_wrapping_eq (hraw row.key) (haggregated.upsert hmem).2 (hrange row hmem)
      (hruns row hmem)

theorem forall₂_numbered {accounts : HashMap String AccountRow} {writes : List (ℕ × Transaction)}
    {folds : List (List Pending)}
    (hfolded : List.Forall₂ (fun draft pending => Folded accounts draft.2.postings pending)
      writes folds) (first : Int) :
    List.Forall₂ (fun draft pending => Folded accounts draft.tx.postings pending)
      (numbered first writes) folds := by
  induction hfolded generalizing first with
  | nil => exact .nil
  | cons hhead _ ih =>
      rw [numbered_cons]
      exact .cons hhead (ih (first + 1))

theorem folded_of_mem {accounts : HashMap String AccountRow} {drafts : List NumberedDraft}
    {folds : List (List Pending)}
    (hfolded : List.Forall₂ (fun draft pending => Folded accounts draft.tx.postings pending)
      drafts folds) {draft : NumberedDraft} (hdraft : draft ∈ drafts) :
    ∃ pending, Folded accounts draft.tx.postings pending := by
  induction hfolded with
  | nil => cases hdraft
  | cons hhead _ ih =>
      rcases List.mem_cons.1 hdraft with rfl | hrest
      · exact ⟨_, hhead⟩
      · exact ih hrest

/-! ## What a batch has found out -/

/-- The keys that are known to be taken, each with the answer of its row. -/
def Taken (byKey : HashMap String Committed) (book : Book) (db : Database) : Prop :=
  ∀ key committed, byKey.lookup key = some committed → ∃ row ∈ db.transactions,
    row.book = book.name ∧ row.idempotencyKey = key ∧ committedOf row = committed

/-- The accounts and the transactions that a batch has read. -/
structure Reading (accounts : HashMap String AccountRow) (byKey : HashMap String Committed)
    (book : Book) (db : Database) : Prop where
  accounts : ∀ key row, accounts.lookup key = some row → db.accounts.lookup key = some row
  taken : Taken byKey book db

/-- A batch whose numbers have been claimed. -/
structure Numbered (accounts : HashMap String AccountRow) (byKey : HashMap String Committed)
    (book : Book) (first time : Int) (shared : Shared) : Prop where
  reading : Reading accounts byKey book shared.db
  claims : Claims shared.db book.name first time
  past : time ≤ shared.clock

/-- What the entries of a batch come to. -/
structure Summed (accounts : HashMap String AccountRow) (folds : List (List Pending))
    (entries : List (String × BalanceRow)) (db : Database) : Prop where
  fits : Fits accounts db folds
  balance : ∀ entry ∈ entries,
    entry.2.balance = rawBalance db entry.1 + (stepsOf folds entry.1).sum

section Found

variable {exact : Prop} {accounts : HashMap String AccountRow} {byKey : HashMap String Committed}
  {book : Book} {first time : Int} {folds : List (List Pending)} {held : List Lock}
  {entries : List (String × BalanceRow)} {shared later : Shared} {db next : Database}

theorem Taken.mono (htaken : Taken byKey book db)
    (hrows : ∀ row ∈ db.transactions, row ∈ next.transactions) : Taken byKey book next := by
  intro key committed hfound
  obtain ⟨row, hrow, hprops⟩ := htaken key committed hfound
  exact ⟨row, hrows row hrow, hprops⟩

theorem Reading.grown (hreading : Reading accounts byKey book shared.db)
    (hgrown : Grown held shared later) : Reading accounts byKey book later.db where
  accounts key row hrow := hgrown.respects.accounts key row (hreading.accounts key row hrow)
  taken := hreading.taken.mono hgrown.respects.rows

theorem Numbered.grown (hnumbered : Numbered accounts byKey book first time shared)
    (hgrown : Grown held shared later) (hcounter : .counter book.name ∈ held) :
    Numbered accounts byKey book first time later where
  reading := hnumbered.reading.grown hgrown
  claims := hnumbered.claims.respects hgrown.respects hcounter
  past := hnumbered.past.trans hgrown.clock

/-- The sums stay as they are while the balances are locked. -/
theorem Summed.respects (hsummed : Summed accounts folds entries db)
    (hrespects : Respects held db next)
    (hkeys : ∀ key, stepsOf folds key ≠ [] → .balance key ∈ held)
    (hentries : ∀ entry ∈ entries, .balance entry.1 ∈ held) :
    Summed accounts folds entries next := by
  refine ⟨⟨fun key => ?_, fun key acct min hacct hmin => ?_⟩, fun entry hentry => ?_⟩
  · by_cases hsteps : stepsOf folds key = []
    · rw [hsteps]
      trivial
    · rw [hrespects.rawBalance (hkeys key hsteps)]
      exact hsummed.fits.runs key
  · by_cases hsteps : stepsOf folds key = []
    · rw [hsteps]
      rfl
    · rw [hrespects.rawBalance (hkeys key hsteps)]
      exact hsummed.fits.minimum key acct min hacct hmin
  · rw [hrespects.rawBalance (hentries entry hentry)]
    exact hsummed.balance entry hentry

/-- The answers of the queries that a batch begins with. -/
theorem lookup_collectByKey {rows : List (String × Committed)} {key : String}
    {committed : Committed} (hfound : (collectByKey byKey rows).lookup key = some committed) :
    (key, committed) ∈ rows ∨ byKey.lookup key = some committed := by
  rcases HashMap.lookup_foldl_insert rows byKey key with ⟨entry, hentry, rfl, hlookup⟩ |
    ⟨-, hlookup⟩
  · have hsame : some entry.2 = some committed := hlookup.symm.trans hfound
    cases hsame
    exact Or.inl hentry
  · exact Or.inr (hlookup.symm.trans hfound)

end Found

/-! ## The rows of a batch -/

def balanceWrites (entries : List (String × BalanceRow)) : List Write :=
  entries.map fun entry => .balance entry.1 entry.2

def transactionRows (drafts : List NumberedDraft) (time : Int) : List TransactionRow :=
  drafts.map fun draft => transactionRow draft.tx draft.seq time

def draftPostings (drafts : List NumberedDraft) (time : Int) : List PostingRow :=
  drafts.flatMap fun draft => postingRows draft.tx draft.seq time

def draftEvents (book : Book) (drafts : List NumberedDraft) (time : Int) : List EventRow :=
  drafts.map fun draft => ⟨book.name, draft.seq, time, .transactionPosted draft.tx⟩

/-- What a batch has written when its transaction rows are in. -/
def rowsLaid (book : Book) (last : Int) (entries : List (String × BalanceRow))
    (drafts : List NumberedDraft) (time : Int) : List Write :=
  [.counter book.name last] ++ balanceWrites entries ++
    (transactionRows drafts time).map .transaction

/-- All that a batch writes. -/
def batchWrites (book : Book) (last : Int) (entries : List (String × BalanceRow))
    (drafts : List NumberedDraft) (time : Int) : List Write :=
  rowsLaid book last entries drafts time ++ (draftPostings drafts time).map .posting ++
    (draftEvents book drafts time).map .event ++ [.notify book.name]

/-- The drafts of a plan may come next, at a time that the clock has passed. -/
structure Laid (exact : Prop) (accounts : HashMap String AccountRow)
    (byKey : HashMap String Committed) (book : Book) (plan : Plan) (time : Int)
    (shared : Shared) : Prop where
  chain : Chain exact shared.db (plan.map (stepOp time))
  reading : Reading accounts byKey book shared.db
  past : time ≤ shared.clock

section Laid

variable {exact : Prop} {accounts : HashMap String AccountRow} {byKey : HashMap String Committed}
  {book : Book} {plan : Plan} {first last time : Int} {held : List Lock}
  {entries : List (String × BalanceRow)} {shared later : Shared}

theorem counter_mem_rowsLaid {drafts : List NumberedDraft} :
    .counter book.name ∈ locks (rowsLaid book last entries drafts time) :=
  mem_locks (List.mem_append_left _ (List.mem_append_left _ List.mem_cons_self))
    (List.mem_singleton.2 rfl)

theorem balance_mem_rowsLaid {drafts : List NumberedDraft} {key : String}
    (hkey : key ∈ entries.map Prod.fst) :
    .balance key ∈ locks (rowsLaid book last entries drafts time) := by
  obtain ⟨entry, hentry, rfl⟩ := List.mem_map.1 hkey
  exact mem_locks (List.mem_append_left _ (List.mem_append_right _ (List.mem_map_of_mem hentry)))
    (List.mem_singleton.2 rfl)

theorem transaction_mem_rowsLaid {drafts : List NumberedDraft} {draft : NumberedDraft}
    (hdraft : draft ∈ drafts) {lock : Lock}
    (hlock : lock ∈ Write.locks (.transaction (transactionRow draft.tx draft.seq time))) :
    lock ∈ locks (rowsLaid book last entries drafts time) :=
  mem_locks (List.mem_append_right _ (List.mem_map_of_mem (List.mem_map_of_mem hdraft))) hlock

/-- Under its locks a plan can still come next. -/
theorem Laid.grown (hlaid : Laid exact accounts byKey book plan time shared)
    (hgrown : Grown held shared later) (hbook : ∀ step ∈ plan, step.1.tx.book = book)
    (hkeys : ∀ step ∈ plan, ∀ entry ∈ step.2, entry.1 ∈ entries.map Prod.fst)
    (hheld : ∀ lock ∈ locks (rowsLaid book last entries (plan.map Prod.fst) time), lock ∈ held) :
    Laid exact accounts byKey book plan time later := by
  refine ⟨hlaid.chain.stable hgrown.respects fun op hop db next henabled hrespects => ?_,
    hlaid.reading.grown hgrown, hlaid.past.trans hgrown.clock⟩
  obtain ⟨step, hstep, rfl⟩ := List.mem_map.1 hop
  have hdraft : step.1 ∈ plan.map Prod.fst := List.mem_map_of_mem hstep
  have hcounter : .counter step.1.tx.book.name ∈ held := by
    rw [hbook step hstep]
    exact hheld _ counter_mem_rowsLaid
  have hrow : ∀ lock ∈ Write.locks (.transaction (transactionRow step.1.tx step.1.seq time)),
      lock ∈ held := fun lock hlock => hheld _ (transaction_mem_rowsLaid hdraft hlock)
  exact henabled.respects_posted hrespects hcounter
    (fun entry hentry => hheld _ (balance_mem_rowsLaid (hkeys step hstep entry hentry)))
    (hrow _ List.mem_cons_self) (hrow _ (List.mem_cons_of_mem _ (List.mem_singleton.2 rfl)))

theorem view_batchWrites (db : Database) (drafts : List NumberedDraft) :
    view db (batchWrites book last entries drafts time) =
      { db with
        books := db.books.insert book.name last
        balances := insertAll entries db.balances
        transactions := db.transactions ++ transactionRows drafts time
        postings := db.postings ++ draftPostings drafts time
        events := db.events ++ draftEvents book drafts time } := by
  rw [batchWrites, rowsLaid, view_append, view_append, view_append, view_append, view_append,
    balanceWrites, view_balances, view_transactions, view_postings, view_events]
  rfl

theorem eventRows_batchWrites (drafts : List NumberedDraft) :
    eventRows (batchWrites book last entries drafts time) = draftEvents book drafts time := by
  have hnone : ∀ {α : Type} (write : α → Write) (rows : List α),
      (∀ row other, write row ≠ .event other) → eventRows (rows.map write) = [] := by
    intro α write rows hother
    refine List.filterMap_eq_nil_iff.2 fun made hmade => ?_
    obtain ⟨row, -, rfl⟩ := List.mem_map.1 hmade
    cases hwrite : write row with
    | event other => exact absurd hwrite (hother row other)
    | _ => rfl
  have hall : ∀ rows : List EventRow, eventRows (rows.map .event) = rows := by
    intro rows
    rw [eventRows, List.filterMap_map]
    exact List.filterMap_some
  have happend : ∀ writes more : List Write,
      eventRows (writes ++ more) = eventRows writes ++ eventRows more := fun writes more =>
    List.filterMap_append
  rw [batchWrites, rowsLaid, happend, happend, happend, happend, happend, balanceWrites,
    hnone _ entries fun _ _ => Write.noConfusion, hnone .transaction _ fun _ _ => Write.noConfusion,
    hnone .posting _ fun _ _ => Write.noConfusion, hall]
  exact List.append_nil _

theorem locks_batchWrites (hbook : ∀ step ∈ plan, step.1.tx.book = book)
    (hkeys : ∀ step ∈ plan, ∀ entry ∈ step.2, entry.1 ∈ entries.map Prod.fst) :
    ∀ lock ∈ locks (opWrites (plan.map (stepOp time))),
      lock ∈ locks (batchWrites book last entries (plan.map Prod.fst) time) := by
  intro lock hlock
  obtain ⟨write, hwrite, hlock⟩ := List.mem_flatMap.1 hlock
  obtain ⟨op, hop, hwrite⟩ := List.mem_flatMap.1 hwrite
  obtain ⟨step, hstep, rfl⟩ := List.mem_map.1 hop
  have hdraft : step.1 ∈ plan.map Prod.fst := List.mem_map_of_mem hstep
  have hname : step.1.tx.book.name = book.name := congrArg Book.name (hbook step hstep)
  have hrows : lock ∈ locks (rowsLaid book last entries (plan.map Prod.fst) time) →
      lock ∈ locks (batchWrites book last entries (plan.map Prod.fst) time) := fun hmem => by
    rw [batchWrites]
    exact mem_locks_append_left (mem_locks_append_left (mem_locks_append_left hmem))
  simp only [stepOp, Op.writes, Op.rows, Op.event, List.mem_append, List.mem_cons, List.mem_map,
    List.not_mem_nil, or_false] at hwrite
  rcases hwrite with ((rfl | ⟨entry, hentry, rfl⟩ | rfl | ⟨posting, hposting, rfl⟩) | rfl | rfl)
  · cases List.mem_singleton.1 hlock
    exact hrows (hname ▸ counter_mem_rowsLaid)
  · cases List.mem_singleton.1 hlock
    exact hrows (balance_mem_rowsLaid (hkeys step hstep entry hentry))
  · exact hrows (transaction_mem_rowsLaid hdraft hlock)
  · refine mem_locks (List.mem_append_left _ (List.mem_append_left _ (List.mem_append_right _ ?_)))
      hlock
    exact List.mem_map_of_mem (List.mem_flatMap.2 ⟨step.1, hdraft, hposting⟩)
  · refine mem_locks (List.mem_append_left _ (List.mem_append_right _ ?_)) hlock
    rw [hname]
    exact List.mem_map_of_mem (List.mem_map_of_mem hdraft)
  · cases hlock

/-- What a batch has written is its drafts in a row. -/
theorem Laid.holding (hlaid : Laid exact accounts byKey book plan time shared)
    (hcounted : Counted first (plan.map Prod.fst)) (hplan : plan ≠ [])
    (hbook : ∀ step ∈ plan, step.1.tx.book = book) (hlast : last = first + plan.length - 1)
    (hentries : ∀ map, insertAll (plan.flatMap Prod.snd) map = insertAll entries map)
    (hkeys : ∀ step ∈ plan, ∀ entry ∈ step.2, entry.1 ∈ entries.map Prod.fst) :
    Holding exact (plan.map (stepOp time)) shared
      (batchWrites book last entries (plan.map Prod.fst) time) := by
  have hname : ∀ step ∈ plan, step.1.tx.book.name = book.name := fun step hstep =>
    congrArg Book.name (hbook step hstep)
  have hevents : (plan.map (stepOp time)).map Op.event =
      draftEvents book (plan.map Prod.fst) time := by
    rw [draftEvents, List.map_map, List.map_map]
    refine List.map_congr_left fun step hstep => ?_
    simp only [Function.comp_apply, stepOp, Op.event, hname step hstep]
  refine ⟨hlaid.chain, fun db => ?_, locks_batchWrites hbook hkeys, fun op hop => ?_,
    (eventRows_batchWrites _).trans hevents.symm, fun op hop => ?_⟩
  · rw [view_batchWrites, view_plan, books_plan hcounted hname hplan, hentries, ← hlast,
      ← hevents, List.map_map, draftPostings, List.flatMap_map, transactionRows, List.map_map]
    rfl
  · obtain ⟨step, -, rfl⟩ := List.mem_map.1 hop
    exact hlaid.past
  · obtain ⟨step, hstep, rfl⟩ := List.mem_map.1 hop
    refine List.mem_filterMap.2 ⟨.notify book.name, ?_, ?_⟩
    · exact List.mem_append_right _ (List.mem_singleton.2 rfl)
    · exact congrArg some (hname step hstep).symm

end Laid

/-! ## The statements of a batch -/

/-- What a batch leaves in its transaction, to be committed. -/
structure Written (exact : Prop) (accounts : HashMap String AccountRow)
    (byKey : HashMap String Committed) (book : Book) (set : WriteSet)
    (result : List NumberedDraft × Int) (shared : Shared) (own : Tx) : Prop where
  marks : own.marks = []
  failed : own.failed = false
  holding : ∃ ops, Holding exact ops shared own.writes
  reading : Reading accounts byKey book shared.db
  written : ∀ draft ∈ result.1, (draft.input, draft.tx) ∈ set.writes
  rows : ∀ draft ∈ result.1,
    transactionRow draft.tx draft.seq result.2 ∈ (view shared.db own.writes).transactions

section Statements

variable {exact inserts : Prop} {accounts : HashMap String AccountRow}
  {byKey : HashMap String Committed} {book : Book} {txs : List Transaction} {set : WriteSet}
  {folds : List (List Pending)} {plan : Plan} {first last time : Int}
  {entries : List (String × BalanceRow)} {shared : Shared}

variable (inserts) in
/-- Behind the transaction rows: postings, events, notification. -/
theorem safe_rowsLaid (hlaid : Laid exact accounts byKey book plan time shared)
    (hcounted : Counted first (plan.map Prod.fst)) (hplan : plan ≠ [])
    (hbook : ∀ step ∈ plan, step.1.tx.book = book) (hlast : last = first + plan.length - 1)
    (hentries : ∀ map, insertAll (plan.flatMap Prod.snd) map = insertAll entries map)
    (hkeys : ∀ step ∈ plan, ∀ entry ∈ step.2, entry.1 ∈ entries.map Prod.fst)
    (hwritten : ∀ draft ∈ plan.map Prod.fst, (draft.input, draft.tx) ∈ set.writes)
    (hinv : Consistent exact shared)
    (hown : CountersFirst (rowsLaid book last entries (plan.map Prod.fst) time)) :
    SafeDb exact inserts (Written exact accounts byKey book set) (fun _ _ _ => True)
      (do
        Statement.send (.insertPostings (draftPostings (plan.map Prod.fst) time))
        Statement.send (.insertEvents (draftEvents book (plan.map Prod.fst) time))
        notify book
        return (plan.map Prod.fst, time))
      shared ⟨rowsLaid book last entries (plan.map Prod.fst) time, [], false⟩ := by
  let drafts := plan.map Prod.fst
  let rows := rowsLaid book last entries drafts time
  let laid := Laid exact accounts byKey book plan time
  have hstay : ∀ {all : List Write}, (∀ lock ∈ locks rows, lock ∈ locks all) →
      ∀ shared later, laid shared → Grown (locks all) shared later → laid later :=
    fun hsub shared later hlaid hgrown => hlaid.grown hgrown hbook hkeys hsub
  refine SafeDb.query laid hlaid (hstay fun _ => id) trivial
    (fun shared _ new hinv hlaid _ hrun => ?_) (fun _ _ _ _ _ _ _ _ => trivial) hinv hown
  obtain ⟨inserted, hinsert, heq⟩ := Except.map_eq_ok.1 hrun
  cases heq
  rw [insertRows_ok hinsert]
  have hpostings : CountersFirst (rows ++ (draftPostings drafts time).map .posting) :=
    hown.append fun row hmem => by
      obtain ⟨posting, -, hposting⟩ := List.mem_map.1 hmem
      cases hposting
  refine ⟨hpostings, ?_⟩
  refine SafeDb.query laid hlaid (hstay fun _ => mem_locks_append_left) trivial
    (fun shared _ new hinv hlaid _ hrun => ?_) (fun _ _ _ _ _ _ _ _ => trivial) hinv hpostings
  obtain ⟨events, hinsert, heq⟩ := Except.map_eq_ok.1 hrun
  cases heq
  rw [insertRows_ok hinsert]
  have hevents : CountersFirst (rows ++ (draftPostings drafts time).map .posting ++
      (draftEvents book drafts time).map .event) :=
    hpostings.append fun row hmem => by
      obtain ⟨made, hmade, hevent⟩ := List.mem_map.1 hmem
      cases hevent
      obtain ⟨draft, -, rfl⟩ := List.mem_map.1 hmade
      exact mem_locks_append_left counter_mem_rowsLaid
  refine ⟨hevents, ?_⟩
  refine SafeDb.query laid hlaid
    (hstay fun _ hlock => mem_locks_append_left (mem_locks_append_left hlock)) trivial
    (fun shared _ new hinv hlaid _ hrun => ?_) (fun _ _ _ _ _ _ _ _ => trivial) hinv hevents
  cases hrun
  have hnotify : CountersFirst (batchWrites book last entries drafts time) :=
    hevents.append fun row hmem => Write.noConfusion (List.mem_singleton.1 hmem)
  refine ⟨hnotify, ?_⟩
  refine SafeDb.pure laid hlaid (hstay fun _ hlock => mem_locks_append_left
    (mem_locks_append_left (mem_locks_append_left hlock))) (fun shared hlaid => ?_) hinv
  have hholding := hlaid.holding hcounted hplan hbook hlast hentries hkeys
  refine ⟨rfl, rfl, ⟨_, hholding⟩, hlaid.reading, hwritten, fun draft hdraft => ?_⟩
  change _ ∈ (view shared.db (batchWrites book last entries drafts time)).transactions
  rw [view_batchWrites]
  exact List.mem_append_right _ (List.mem_map_of_mem hdraft)

theorem run_claimSeqs {db : Database} {clock count : Int} {book : String} {result : Int × Int}
    {new : List Write} (hrun : (Statement.claimSeqs book count).run db clock = .ok (result, new)) :
    result = (claimed db book count, clock) ∧ new = [.counter book result.1] := by
  unfold Statement.run at hrun
  dsimp only at hrun
  split at hrun
  · cases hrun
    exact ⟨rfl, rfl⟩
  · cases hrun

/-- Behind the upsert: the transaction rows, and what follows them. -/
theorem safe_summed (hbuilt : Built accounts txs set folds) (hset : set.writes ≠ [])
    (hbook : ∀ tx ∈ txs, tx.book = book) (hlast : last = first + set.writes.length - 1)
    (hkeys : ∀ key, key ∈ entries.map Prod.fst ↔ stepsOf folds key ≠ [])
    (hnumbered : Numbered accounts byKey book first time shared)
    (hsummed : exact → Summed accounts folds entries shared.db) (hinv : Consistent exact shared)
    (hown : CountersFirst ([.counter book.name last] ++ balanceWrites entries)) :
    SafeDb exact inserts (Written exact accounts byKey book set) (fun _ _ _ => True)
      (do
        let drafts := numbered first set.writes
        Statement.send (.insertTransactions (transactionRows drafts time))
        Statement.send (.insertPostings (draftPostings drafts time))
        Statement.send (.insertEvents (draftEvents book drafts time))
        notify book
        return (drafts, time))
      shared ⟨[.counter book.name last] ++ balanceWrites entries, [], false⟩ := by
  let drafts := numbered first set.writes
  let counted := [.counter book.name last] ++ balanceWrites entries
  have hcounter : .counter book.name ∈ locks counted :=
    mem_locks (List.mem_append_left _ (List.mem_singleton.2 rfl)) (List.mem_singleton.2 rfl)
  have hbalance : ∀ key ∈ entries.map Prod.fst, .balance key ∈ locks counted := by
    intro key hkey
    obtain ⟨entry, hentry, rfl⟩ := List.mem_map.1 hkey
    exact mem_locks (List.mem_append_right _ (List.mem_map_of_mem hentry))
      (List.mem_singleton.2 rfl)
  refine SafeDb.query (fun shared => Numbered accounts byKey book first time shared ∧
      (exact → Summed accounts folds entries shared.db)) ⟨hnumbered, hsummed⟩
    (fun shared later hholds hgrown => ⟨hholds.1.grown hgrown hcounter, fun hexact =>
      (hholds.2 hexact).respects hgrown.respects
        (fun key hsteps => hbalance key ((hkeys key).2 hsteps))
        (fun entry hentry => hbalance _ (List.mem_map_of_mem hentry))⟩) trivial
    (fun shared _ new hinv hholds _ hrun => ?_) (fun _ _ _ _ _ _ _ _ => trivial) hinv hown
  obtain ⟨hnumbered, hsummed⟩ := hholds
  obtain ⟨inserted, hinsert, heq⟩ := Except.map_eq_ok.1 hrun
  cases heq
  rw [insertRows_ok hinsert]
  have hdrafts : drafts ≠ [] := by
    obtain ⟨write, writes, hwrites⟩ := List.exists_cons_of_ne_nil hset
    rw [show drafts = numbered first set.writes from rfl, hwrites, numbered_cons]
    exact List.cons_ne_nil _ _
  have hfolded := forall₂_numbered hbuilt.folded first
  obtain ⟨plan, hplan, hall, hsub, hbalanced⟩ := exists_plan time hdrafts hfolded
    hnumbered.reading.accounts hkeys fun hexact => ⟨(hsummed hexact).fits, (hsummed hexact).balance⟩
  have hdraft : ∀ step ∈ plan, step.1 ∈ drafts := fun step hstep =>
    hplan ▸ List.mem_map_of_mem hstep
  have hwritten : ∀ draft ∈ drafts, (draft.input, draft.tx) ∈ set.writes := fun draft hmem =>
    mem_numbered hmem
  have hname : ∀ step ∈ plan, step.1.tx.book = book := fun step hstep =>
    hbook _ (List.fst_mem_of_mem_zipIdx (hbuilt.written _ (hwritten _ (hdraft step hstep))))
  have hknown : ∀ step ∈ plan, ∀ posting ∈ step.1.tx.postings,
      (shared.db.accounts.lookup posting.account.toKey).isSome := by
    intro step hstep
    obtain ⟨pending, hpending⟩ := folded_of_mem hfolded (hdraft step hstep)
    exact Loaded.known ⟨accounts, hpending, hnumbered.reading.accounts⟩
  have hcounted : Counted first (plan.map Prod.fst) := hplan ▸ counted_numbered first set.writes
  have htransactions : (view shared.db counted).transactions = shared.db.transactions := by
    rw [view_append, balanceWrites, view_balances]
    rfl
  have hlength : (plan.length : Int) = set.writes.length := by
    rw [← List.length_map Prod.fst, hplan]
    simp [drafts, numbered]
  have hnonempty : plan ≠ [] := by
    rintro rfl
    exact hdrafts hplan.symm
  have hlast' : last = first + plan.length - 1 := by rw [hlength, hlast]
  have hrow : CountersFirst (rowsLaid book last entries drafts time) :=
    hown.append fun row hmem => by
      obtain ⟨made, -, hmade⟩ := List.mem_map.1 hmem
      cases hmade
  refine ⟨hrow, ?_⟩
  change insertRows .transaction transactionConflict (view shared.db counted)
    (transactionRows drafts time) = _ at hinsert
  rw [← hplan, transactionRows, List.map_map] at hinsert
  have hlaid : Laid exact accounts byKey book plan time shared :=
    ⟨chain_plan hcounted (fun step hstep => congrArg Book.name (hname step hstep))
      hnumbered.claims htransactions hinsert hknown hbalanced, hnumbered.reading, hnumbered.past⟩
  have hrest := safe_rowsLaid inserts hlaid hcounted hnonempty hname hlast' hall hsub
    (hplan ▸ hwritten) hinv (hplan ▸ hrow)
  rw [hplan] at hrest
  exact hrest

/-- The whole write set, in a transaction that has written nothing. -/
theorem safe_writeSet (hbuilt : Built accounts txs set folds) (hset : set.writes ≠ [])
    (hbook : ∀ tx ∈ txs, tx.book = book) (hreading : Reading accounts byKey book shared.db)
    (hinv : Consistent exact shared) :
    SafeDb exact inserts (Written exact accounts byKey book set) (fun _ _ _ => True)
      (writeSet book set accounts) shared .idle := by
  refine SafeDb.query (fun shared => Reading accounts byKey book shared.db) hreading
    (fun _ _ hreading hgrown => hreading.grown hgrown) trivial
    (fun shared claim new hinv hreading _ hrun => ?_) (fun _ _ _ _ _ _ _ _ => trivial) hinv
    CountersFirst.nil
  obtain ⟨last, time⟩ := claim
  obtain ⟨hclaim, rfl⟩ := run_claimSeqs hrun
  obtain ⟨hlast, rfl⟩ := Prod.mk.inj hclaim
  dsimp only
  generalize hfirst : last - (set.writes.length : Int) + 1 = first
  have hclaims : Claims shared.db book.name first shared.clock := by
    refine ⟨?_, fun row hrow _ => hinv.past row hrow⟩
    rw [← hfirst, hlast]
    unfold claimed
    dsimp only [view_nil]
    ring
  have hlast : last = first + set.writes.length - 1 := by
    rw [← hfirst]
    ring
  have hcounter : CountersFirst [.counter book.name last] :=
    CountersFirst.nil.append fun row hmem => Write.noConfusion (List.mem_singleton.1 hmem)
  refine ⟨hcounter, ?_⟩
  -- the balances, one row an account
  refine SafeDb.query (Numbered accounts byKey book first shared.clock)
    ⟨hreading, hclaims, le_rfl⟩
    (fun shared later hnumbered hgrown => hnumbered.grown hgrown
      (mem_locks (List.mem_singleton.2 rfl) (List.mem_singleton.2 rfl))) trivial
    (fun shared raws new hinv hnumbered hcond hrun => ?_) (fun _ _ _ _ _ _ _ _ => trivial) hinv
    hcounter
  obtain ⟨hrange, rfl, hnew⟩ := run_upsertBalances hrun
  let upserts := balanceUpserts accounts first set.agg
  let entries := upsertedRows shared.db upserts
  have hnew : new = balanceWrites entries := by
    rw [hnew, balanceWrites, show entries = upserts.map _ from rfl, List.map_map]
    rfl
  subst hnew
  have hbalances : CountersFirst ([.counter book.name last] ++ balanceWrites entries) :=
    hcounter.append fun row hmem => by
      obtain ⟨entry, -, hentry⟩ := List.mem_map.1 hmem
      cases hentry
  refine ⟨hbalances, ?_⟩
  split
  case isFalse =>
    exact SafeDb.throw (fun _ => True) trivial (fun _ _ _ _ => trivial) (fun _ _ => trivial) hinv
  case isTrue hholds =>
    have hkeys : ∀ key, key ∈ entries.map Prod.fst ↔ stepsOf folds key ≠ [] := fun key => by
      rw [show entries = upserts.map _ from rfl, List.map_map]
      exact hbuilt.aggregated.upsert_keys key
    have hsummed : exact → Summed accounts folds entries shared.db := by
      intro hexact
      obtain ⟨hfits, hbalance⟩ := fits_of_upsert hbuilt.aggregated (hinv.ledger.range hexact) hrange
        (hcond.1 hexact) fun row hrow => by
          have hrow := List.all_eq_true.1 hholds _ (mem_zip_map hrow)
          exact hrow
      exact ⟨hfits, hbalance⟩
    exact safe_summed hbuilt hset hbook hlast hkeys hnumbered hsummed hinv hbalances

/-- How a fast batch ends. -/
def FastAnswers (txs : List Transaction) (result : Except Fault (List Answer))
    (shared : Shared) : Prop :=
  ∀ answers, result = .ok answers → Answers shared.db txs answers

/-- The slots are answered from rows that are there. -/
theorem safe_answersOf {done : List (ℕ × Committed)} (hbuilt : Built accounts txs set folds)
    (hbook : ∀ tx ∈ txs, tx.book = book) (htaken : Taken byKey book shared.db)
    (hdone : ∀ entry ∈ done, ∃ tx, (tx, entry.1) ∈ txs.zipIdx ∧ Stored shared.db tx entry.2)
    (hinv : Consistent exact shared) {own : Tx} :
    SafeDb exact inserts (fun answers shared _ => FastAnswers txs (.ok answers) shared)
      (fun fault shared _ => FastAnswers txs (.error fault) shared)
      (liftExcept (answersOf byKey set done txs.length)) shared own := by
  have hkeeps : ∀ result shared later, FastAnswers txs result shared →
      Grown (locks own.writes) shared later → FastAnswers txs result later :=
    fun result shared later hanswers hgrown answers hok =>
      (hanswers answers hok).mono hgrown.respects.rows
  cases hanswers : answersOf byKey set done txs.length with
  | error fault =>
      exact SafeDb.throw (FastAnswers txs (.error fault)) nofun (hkeeps _) (fun _ => id) hinv
  | ok answers =>
      refine SafeDb.pure (FastAnswers txs (.ok answers)) ?_ (hkeeps _) (fun _ => id) hinv
      rintro _ ⟨⟩
      exact answers_of hbuilt hbook htaken hdone hanswers

theorem stored_draft {db : Database} {draft : NumberedDraft} {time : Int}
    (hrow : transactionRow draft.tx draft.seq time ∈ db.transactions) :
    Stored db draft.tx (draft.committed time) :=
  ⟨_, hrow, rfl, rfl, rfl⟩

/-- The keys of a batch's own rows are taken as well. -/
theorem Taken.collect {db : Database} {drafts : List NumberedDraft} {time : Int}
    (htaken : Taken byKey book db) (hbook : ∀ draft ∈ drafts, draft.tx.book = book)
    (hrows : ∀ draft ∈ drafts, transactionRow draft.tx draft.seq time ∈ db.transactions) :
    Taken (collectByKey byKey (drafts.map fun draft =>
      (draft.tx.idempotencyKey.key, draft.committed time))) book db := by
  intro key committed hfound
  rcases lookup_collectByKey hfound with hmem | hprior
  · obtain ⟨draft, hdraft, heq⟩ := List.mem_map.1 hmem
    cases heq
    exact ⟨_, hrows draft hdraft, congrArg Book.name (hbook draft hdraft), rfl, rfl⟩
  · exact htaken key committed hprior

/-- The transaction of the set-based path. -/
theorem safe_fastTransaction (hbook : ∀ tx ∈ txs, tx.book = book)
    (hinv : Consistent exact shared) :
    SafeDb exact inserts (fun answers shared _ => FastAnswers txs (.ok answers) shared)
      (fun fault shared _ => FastAnswers txs (.error fault) shared)
      (do
        let priors ← Statement.send (.selectTransactions book.name
          (txs.map fun tx => tx.idempotencyKey.key))
        let byKey := collectByKey ∅ priors
        let accounts ← loadAccounts (accountKeys (txs.flatMap Transaction.postings))
        match buildWriteSet byKey accounts txs with
        | .error _ => throw aborted
        | .ok set =>
            if set.writes = [] then liftExcept (answersOf byKey set [] txs.length)
            else
              let (drafts, time) ← writeSet book set accounts
              let _ ← Statement.send .commit
              let byKey := collectByKey byKey (drafts.map fun draft =>
                (draft.tx.idempotencyKey.key, draft.committed time))
              let done := drafts.map fun draft => (draft.input, draft.committed time)
              liftExcept (answersOf byKey set done txs.length))
      shared .idle := by
  -- the transactions that own keys of the batch
  refine SafeDb.query (fun _ => True) trivial (fun _ _ _ _ => trivial) trivial
    (fun shared priors new hinv _ _ hrun => ?_) (fun _ _ _ _ _ hrun => nomatch hrun) hinv
    CountersFirst.nil
  obtain ⟨hpriors, rfl⟩ := Prod.mk.inj (Except.ok.inj hrun)
  refine ⟨CountersFirst.nil, ?_⟩
  have hfound : Taken (collectByKey ∅ priors) book shared.db := by
    intro key committed hlookup
    rcases lookup_collectByKey hlookup with hmem | hnone
    · rw [← hpriors] at hmem
      obtain ⟨row, hrow, heq⟩ := List.mem_map.1 hmem
      cases heq
      obtain ⟨hrow, hmatches⟩ := List.mem_filter.1 hrow
      exact ⟨row, hrow, (of_decide_eq_true hmatches).1, rfl, rfl⟩
    · rw [Finmap.lookup_empty] at hnone
      cases hnone
  -- the accounts of the batch
  refine SafeDb.query (fun shared => Taken (collectByKey ∅ priors) book shared.db) hfound
    (fun _ _ htaken hgrown => htaken.mono hgrown.respects.rows) trivial
    (fun shared accounts new hinv hfound _ hrun => ?_) (fun _ _ _ _ _ hrun => nomatch hrun) hinv
    CountersFirst.nil
  obtain ⟨haccounts, rfl⟩ := Prod.mk.inj (Except.ok.inj hrun)
  refine ⟨CountersFirst.nil, ?_⟩
  have hreading : Reading accounts (collectByKey ∅ priors) book shared.db :=
    ⟨fun key row hrow => lookup_accountRows (haccounts ▸ hrow), hfound⟩
  cases hbuild : buildWriteSet (collectByKey ∅ priors) accounts txs with
  | error error =>
      exact SafeDb.throw (fun _ => True) trivial (fun _ _ _ _ => trivial) (fun _ _ => nofun) hinv
  | ok set =>
      obtain ⟨folds, hbuilt⟩ := buildWriteSet_ok hbuild
      dsimp only
      split
      · exact safe_answersOf hbuilt hbook hreading.taken (List.forall_mem_nil _) hinv
      · next hset =>
          refine SafeDb.bind ((safe_writeSet hbuilt hset hbook hreading hinv).mono
            (fun _ _ _ => id) fun _ _ _ _ => nofun) ?_ hinv CountersFirst.nil
          rintro ⟨drafts, time⟩ shared ⟨writes, marks, failed⟩ hinv hown hwritten
          obtain ⟨rfl, rfl, ⟨ops, hholding⟩, hreading, hset, hrows⟩ := hwritten
          have hplaces : ∀ draft ∈ drafts, (draft.tx, draft.input) ∈ txs.zipIdx :=
            fun draft hdraft => hbuilt.written _ (hset draft hdraft)
          have hdrafts : ∀ draft ∈ drafts, draft.tx.book = book := fun draft hdraft =>
            hbook _ (List.fst_mem_of_mem_zipIdx (hplaces draft hdraft))
          refine SafeDb.commit ops (fun shared => Holding exact ops shared writes ∧
              Reading accounts (collectByKey ∅ priors) book shared.db ∧ ∀ draft ∈ drafts,
                transactionRow draft.tx draft.seq time ∈ (view shared.db writes).transactions)
            ⟨hholding, hreading, hrows⟩
            (fun shared later hholds hgrown => ⟨hholds.1.grown hgrown fun _ => id,
              hholds.2.1.grown hgrown, fun draft hdraft =>
                (hgrown.respects.view writes).rows _ (hholds.2.2 draft hdraft)⟩)
            (fun _ hholds => hholds.1) (fun shared committed hholds hcommitted hinv => ?_) hinv
          obtain ⟨-, hreading, hrows⟩ := hholds
          have htaken : Taken (collectByKey ∅ priors) book committed.db := by
            rw [hcommitted]
            exact hreading.taken.mono fun row hrow => transactions_view.subset hrow
          have hrows : ∀ draft ∈ drafts,
              transactionRow draft.tx draft.seq time ∈ committed.db.transactions := by
            rw [hcommitted]
            exact hrows
          refine safe_answersOf hbuilt hbook (htaken.collect hdrafts hrows)
            (fun entry hentry => ?_) hinv
          obtain ⟨draft, hdraft, rfl⟩ := List.mem_map.1 hentry
          exact ⟨draft.tx, hplaces draft hdraft, stored_draft (hrows draft hdraft)⟩

/-- How the set-based path ends. -/
theorem safe_tryCommitBatchFast (txs : List Transaction) {own : Tx}
    (hinv : Consistent exact shared) (hown : CountersFirst own.writes) :
    Safe server (contract exact inserts)
      (fun result shared _ => ∀ answers, result = some answers → Answers shared.db txs answers)
      (tryCommitBatchFast txs) shared own := by
  have hgiveUp : ∀ {shared : Shared} {own : Tx}, Consistent exact shared →
      Safe server (contract exact inserts)
        (fun result shared _ => ∀ answers, result = some answers → Answers shared.db txs answers)
        (pure none) shared own := fun hinv =>
    safe_return (fun _ => True) trivial (fun _ _ _ _ => trivial) (fun _ _ => nofun) hinv
  cases txs with
  | nil => exact hgiveUp hinv
  | cons head rest =>
      unfold tryCommitBatchFast
      dsimp only
      split
      · exact hgiveUp hinv
      · next heligible =>
          have hbook : ∀ tx ∈ head :: rest, tx.book = head.book := fun tx htx => by
            by_contra hne
            exact heligible (Or.inr ⟨tx, htx, hne⟩)
          refine Safe.bind (SafeDb.dropped (FastAnswers (head :: rest))
            (fun result shared later hanswers hgrown answers hok =>
              (hanswers answers hok).mono hgrown.respects.rows)
            (fun later hinv _ => safe_fastTransaction hbook hinv) hinv)
            (fun result shared own hinv _ hresult => ?_) hinv hown
          obtain ⟨hanswers, rfl⟩ := hresult shared .refl hinv
          refine safe_return (FastAnswers (head :: rest) result) hanswers
            (fun shared later hanswers hgrown answers hok =>
              (hanswers answers hok).mono hgrown.respects.rows) (fun shared hanswers answers hok => ?_)
            hinv
          cases result with
          | ok found =>
              cases hok
              exact hanswers _ rfl
          | error fault => cases hok

/-- How a batch ends. -/
theorem safe_commitBatchTraced (txs : List Transaction) {own : Tx}
    (hinv : Consistent exact shared) (hown : CountersFirst own.writes) :
    Safe server (contract exact inserts) (fun answers shared _ => Answers shared.db txs answers)
      (commitBatchTraced txs) shared own := by
  unfold commitBatchTraced
  split
  · next hnil =>
      subst hnil
      exact safe_return (fun _ => True) trivial (fun _ _ _ _ => trivial) (fun _ _ => .nil) hinv
  · refine Safe.bind (safe_tryCommitBatchFast txs hinv hown)
      (fun result shared own hinv hown hresult => ?_) hinv hown
    have hanswers := hresult shared .refl hinv
    cases result with
    | some answers =>
        exact safe_return (fun shared => Answers shared.db txs answers) (hanswers answers rfl)
          (fun shared later hanswers hgrown => hanswers.mono hgrown.respects.rows)
          (fun _ => id) hinv
    | none => exact safe_commitBatchPerDraft txs hinv

end Statements

end Talea.Postgres
