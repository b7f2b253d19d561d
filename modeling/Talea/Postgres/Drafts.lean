import Talea.Postgres.Registry
import Talea.Sql.Pending

/-!
# One draft in a transaction

A draft is looked up, its accounts are loaded, and then it is written under the
lock of its book's counter.  What it leaves in the transaction is one more
operation that may come next; what stops it leaves what was there before it, for
a rollback to go back to.
-/

namespace Talea.Postgres

open Sql

/-- The answer to a draft is the row of its key. -/
def Stored (db : Database) (tx : Transaction) (committed : Committed) : Prop :=
  ∃ row ∈ db.transactions, row.book = tx.book.name ∧
    row.idempotencyKey = tx.idempotencyKey.key ∧ committedOf row = committed

/-- The accounts of a draft, loaded and folded. -/
def Loaded (db : Database) (tx : Transaction) (pending : List Pending) : Prop :=
  ∃ accounts, Folded accounts tx.postings pending ∧
    ∀ key row, accounts.lookup key = some row → db.accounts.lookup key = some row

/-- What a draft that has stopped leaves. -/
structure Undoable (exact : Prop) (ops : List Op) (writes : List Write) (marks : List ℕ)
    (shared : Shared) (tx : Tx) : Prop where
  holding : Holding exact ops shared writes
  isPrefix : writes <+: tx.writes
  marks : tx.marks = marks

/-- What a draft that has been answered leaves. -/
structure Answered (exact : Prop) (writes : List Write) (marks : List ℕ) (draft : Transaction)
    (committed : Committed) (shared : Shared) (tx : Tx) : Prop where
  holding : ∃ ops, Holding exact ops shared tx.writes
  isPrefix : writes <+: tx.writes
  marks : tx.marks = marks
  failed : tx.failed = false
  stored : Stored (tx.view shared) draft committed

section Facts

variable {exact : Prop} {held : List Lock} {db later : Database} {tx : Transaction}
  {committed : Committed} {pending : List Pending}

theorem Stored.mono (hstored : Stored db tx committed)
    (hrows : ∀ row ∈ db.transactions, row ∈ later.transactions) : Stored later tx committed := by
  obtain ⟨row, hrow, hprops⟩ := hstored
  exact ⟨row, hrows row hrow, hprops⟩

theorem Loaded.mono (hloaded : Loaded db tx pending)
    (haccounts : ∀ key row, db.accounts.lookup key = some row →
      later.accounts.lookup key = some row) : Loaded later tx pending := by
  obtain ⟨accounts, hfolded, hrows⟩ := hloaded
  exact ⟨accounts, hfolded, fun key row hrow => haccounts key row (hrows key row hrow)⟩

theorem lookup_accountRows {keys : List String} {key : String} {row : AccountRow}
    (hrow : (accountRows db keys).lookup key = some row) : db.accounts.lookup key = some row := by
  refine List.foldlRecOn
    (motive := fun rows : HashMap String AccountRow => ∀ key row, rows.lookup key = some row →
      db.accounts.lookup key = some row) keys _ ?_ ?_ key row hrow
  · intro key row hnone
    rw [Finmap.lookup_empty] at hnone
    cases hnone
  · intro rows hrows first _ key row hrow
    cases hfirst : db.accounts.lookup first with
    | none =>
        rw [hfirst] at hrow
        exact hrows key row hrow
    | some found =>
        rw [hfirst] at hrow
        dsimp only at hrow
        rw [HashMap.lookup_insert_ite] at hrow
        split at hrow
        · next hkey =>
            subst hkey
            rwa [hfirst]
        · exact hrows key row hrow

end Facts

/-! ## Rows -/

section Rows

variable {α : Type} {write : α → Write} {conflict : Database → α → Option Fault} {db : Database}
  {new : List Write}

theorem insertRows_cons {row : α} {rows : List α} :
    insertRows write conflict db (row :: rows) = .ok new ↔
      conflict db row = none ∧ ∃ rest,
        insertRows write conflict ((write row).apply db) rows = .ok rest ∧
          new = write row :: rest := by
  rw [insertRows]
  cases hconflict : conflict db row with
  | some fault => simp
  | none =>
      rw [Except.map_eq_ok]
      simp only [true_and, eq_comm]

theorem insertRows_ok {rows : List α} (hinsert : insertRows write conflict db rows = .ok new) :
    new = rows.map write := by
  induction rows generalizing db new with
  | nil =>
      cases hinsert
      rfl
  | cons row rows ih =>
      obtain ⟨-, rest, hrest, rfl⟩ := insertRows_cons.1 hinsert
      rw [ih hrest, List.map_cons]

theorem run_upsertBalances {clock : Int} {rows : List BalanceUpsert} {raws : List Int}
    (hrun : (Statement.upsertBalances rows).run db clock = .ok (raws, new)) :
    (∀ row ∈ rows, I64.InRange (rawBalance db row.key + row.delta)) ∧
      raws = rows.map (fun row => rawBalance db row.key + row.delta) ∧
      new = rows.map fun row => .balance row.key (upserted db row) := by
  unfold Statement.run at hrun
  dsimp only at hrun
  split at hrun
  · next hrange =>
      cases hrun
      exact ⟨hrange, rfl, rfl⟩
  · cases hrun

theorem transactionConflict_eq_none {row : TransactionRow} :
    transactionConflict db row = none ↔
      (∀ other ∈ db.transactions, other.txId ≠ row.txId) ∧
        ∀ other ∈ db.transactions,
          ¬ (other.book = row.book ∧ other.idempotencyKey = row.idempotencyKey) := by
  unfold transactionConflict
  split
  · next hid =>
      obtain ⟨other, hother, hsame⟩ := hid
      exact ⟨nofun, fun h => absurd hsame (h.1 other hother)⟩
  · next hid =>
      split
      · next hkey =>
          obtain ⟨other, hother, hsame⟩ := hkey
          exact ⟨nofun, fun h => absurd hsame (h.2 other hother)⟩
      · next hkey =>
          exact ⟨fun _ => ⟨fun other hother hsame => hid ⟨other, hother, hsame⟩,
            fun other hother hsame => hkey ⟨other, hother, hsame⟩⟩, fun _ => rfl⟩

end Rows

/-! ## The write phase -/

section Write

variable {exact inserts : Prop} {ops : List Op} {writes more : List Write} {marks : List ℕ}
  {shared later : Shared} {tx : Transaction} {pending : List Pending} {seq time : Int}
  {balances : List (String × BalanceRow)}

theorem checkMinimums_ok {entries : List (Pending × Int)} (hcheck : checkMinimums entries = .ok ())
    {entry : Pending × Int} (hentry : entry ∈ entries) {min : Int}
    (hmin : entry.1.minBalance = some min) : min ≤ effective entry.2 entry.1.normalSide := by
  induction entries with
  | nil => cases hentry
  | cons first entries ih =>
      unfold checkMinimums at hcheck
      split at hcheck
      · next hnone =>
          rcases List.mem_cons.1 hentry with rfl | hrest
          · rw [hnone] at hmin
            cases hmin
          · exact ih hcheck hrest
      · next bound hbound =>
          dsimp only at hcheck
          split at hcheck
          · cases hcheck
          · next hholds =>
              rcases List.mem_cons.1 hentry with rfl | hrest
              · rw [hbound] at hmin
                cases hmin
                exact not_lt.1 hholds
              · exact ih hcheck hrest

theorem mem_zip_map {α β : Type} {f : α → β} {list : List α} {item : α} (hitem : item ∈ list) :
    (item, f item) ∈ list.zip (list.map f) := by
  obtain ⟨idx, hidx, rfl⟩ := List.mem_iff_getElem.1 hitem
  exact List.mem_iff_getElem.2 ⟨idx, by simpa using hidx, by simp⟩

theorem Loaded.known {db : Database} (hloaded : Loaded db tx pending) :
    ∀ posting ∈ tx.postings, (db.accounts.lookup posting.account.toKey).isSome := by
  obtain ⟨accounts, hfolded, hrows⟩ := hloaded
  intro posting hposting
  obtain ⟨entry, hentry, hkey⟩ := List.mem_map.1 ((hfolded.keys _).2 ⟨posting, hposting, rfl⟩)
  obtain ⟨row, hrow, -⟩ := (hfolded.shows entry hentry).row
  rw [← hkey, hrows _ _ hrow]
  rfl

/-- The balance rows that the upsert of a draft leaves. -/
def balanceRows (db : Database) (seq : Int) (pending : List Pending) :
    List (String × BalanceRow) :=
  pending.map fun entry => (entry.key, upserted db (Pending.upsert seq entry))

theorem balanced_of_upsert {db : Database} (hloaded : Loaded db tx pending)
    (hrange : ∀ row ∈ pending.map (Pending.upsert seq),
      I64.InRange (rawBalance db row.key + row.delta))
    (hcheck : checkMinimums (pending.zip ((pending.map (Pending.upsert seq)).map fun row =>
      rawBalance db row.key + row.delta)) = .ok ()) :
    Balanced db tx (balanceRows db seq pending) := by
  obtain ⟨accounts, hfolded, hrows⟩ := hloaded
  refine ⟨fun posting hposting => ?_, fun entry hentry => ?_, fun entry hentry _ row hrow min hmin =>
    ?_⟩
  · obtain ⟨entry, hentry, hkey⟩ := List.mem_map.1 ((hfolded.keys _).2 ⟨posting, hposting, rfl⟩)
    rw [balanceRows, List.map_map]
    exact List.mem_map.2 ⟨entry, hentry, hkey⟩
  · obtain ⟨source, hsource, rfl⟩ := List.mem_map.1 hentry
    refine ⟨?_, hrange _ (List.mem_map_of_mem hsource)⟩
    change rawBalance db source.key + source.delta = _
    rw [(hfolded.shows source hsource).delta]
  · obtain ⟨source, hsource, rfl⟩ := List.mem_map.1 hentry
    obtain ⟨acct, hacct, -, hside, hbound⟩ := (hfolded.shows source hsource).row
    have hsame := hrows _ _ hacct
    have hrow : db.accounts.lookup source.key = some row := hrow
    rw [hrow] at hsame
    cases hsame
    rw [← hside]
    rw [← hbound] at hmin
    have hmem : (source, rawBalance db source.key + source.delta) ∈
        pending.zip ((pending.map (Pending.upsert seq)).map fun row =>
          rawBalance db row.key + row.delta) := by
      rw [List.map_map]
      exact mem_zip_map hsource
    exact checkMinimums_ok hcheck hmem hmin

/-- What is held for a draft in its place: operations that may come next, and
the draft behind them. -/
structure Placed (exact : Prop) (ops : List Op) (writes : List Write) (op : Op) (shared : Shared) :
    Prop where
  holding : Holding exact ops shared writes
  enabled : Enabled exact (view shared.db writes) op
  past : op.event.at' ≤ shared.clock

/-- The writes of a draft up to its transaction row, behind those before it. -/
def rowWrites (writes : List Write) (tx : Transaction) (seq time : Int)
    (balances : List (String × BalanceRow)) : List Write :=
  writes ++ [.counter tx.book.name seq] ++ balances.map (fun entry => .balance entry.1 entry.2) ++
    [.transaction (transactionRow tx seq time)]

theorem mem_locks_append_left {lock : Lock} (hlock : lock ∈ locks writes) :
    lock ∈ locks (writes ++ more) := by
  rw [locks_append]
  exact List.mem_append_left _ hlock

theorem mem_locks_append_right {lock : Lock} (hlock : lock ∈ locks more) :
    lock ∈ locks (writes ++ more) := by
  rw [locks_append]
  exact List.mem_append_right _ hlock

theorem Placed.grown {held : List Lock}
    (hplaced : Placed exact ops writes (.posted tx seq time balances) shared)
    (hgrown : Grown held shared later)
    (hheld : ∀ lock ∈ locks (rowWrites writes tx seq time balances), lock ∈ held) :
    Placed exact ops writes (.posted tx seq time balances) later := by
  have hcounter : Lock.counter tx.book.name ∈ held :=
    hheld _ (mem_locks_append_left (mem_locks_append_left (mem_locks_append_right
      (mem_locks (List.mem_singleton.2 rfl) (List.mem_singleton.2 rfl)))))
  have hbalance : ∀ entry ∈ balances, Lock.balance entry.1 ∈ held := fun entry hentry =>
    hheld _ (mem_locks_append_left (mem_locks_append_right
      (mem_locks (List.mem_map_of_mem hentry) (List.mem_singleton.2 rfl))))
  have hrow : ∀ lock ∈ Write.locks (.transaction (transactionRow tx seq time)), lock ∈ held :=
    fun lock hlock => hheld _ (mem_locks_append_right (mem_locks (List.mem_singleton.2 rfl) hlock))
  refine ⟨hplaced.holding.grown hgrown fun lock hlock => hheld lock
      (mem_locks_append_left (mem_locks_append_left (mem_locks_append_left hlock))),
    hplaced.enabled.respects_posted (hgrown.respects.view writes) hcounter hbalance
      (hrow _ List.mem_cons_self) (hrow _ (List.mem_cons_of_mem _ (List.mem_singleton.2 rfl))),
    hplaced.past.trans hgrown.clock⟩

/-- Behind the transaction row: postings, event, notification. -/
theorem safe_rows (hplaced : Placed exact ops writes (.posted tx seq time balances) shared)
    (hinv : Consistent exact shared)
    (hown : CountersFirst (rowWrites writes tx seq time balances)) :
    SafeDb exact inserts (Answered exact writes marks tx)
      (fun _ => Undoable exact ops writes marks)
      (do
        Statement.send (.insertPostings (postingRows tx seq time))
        insertEvent tx.book.name seq time (.transactionPosted tx)
        notify tx.book
        return ⟨tx.id, seq, time⟩)
      shared ⟨rowWrites writes tx seq time balances, marks, false⟩ := by
  let placed := Placed exact ops writes (.posted tx seq time balances)
  have hstay : ∀ {all : List Write},
      (∀ lock ∈ locks (rowWrites writes tx seq time balances), lock ∈ locks all) →
        ∀ shared later, placed shared → Grown (locks all) shared later → placed later :=
    fun hsub shared later hplaced hgrown => hplaced.grown hgrown hsub
  have hprefix : ∀ more, writes <+: rowWrites writes tx seq time balances ++ more := by
    intro more
    rw [rowWrites, List.append_assoc, List.append_assoc, List.append_assoc]
    exact List.prefix_append _ _
  have hundo : ∀ more failed shared, placed shared →
      Undoable exact ops writes marks shared
        ⟨rowWrites writes tx seq time balances ++ more, marks, failed⟩ :=
    fun more failed shared hplaced => ⟨hplaced.holding, hprefix more, rfl⟩
  refine SafeDb.query placed hplaced (hstay fun _ => id) trivial
    (fun shared _ new hinv hplaced _ hrun => ?_)
    (fun _ _ _ _ _ _ shared hplaced => by simpa using hundo [] true shared hplaced) hinv hown
  obtain ⟨rows, hinsert, heq⟩ := Except.map_eq_ok.1 hrun
  cases heq
  rw [insertRows_ok hinsert]
  have hpostings : CountersFirst (rowWrites writes tx seq time balances ++
      (postingRows tx seq time).map .posting) :=
    hown.append fun row hmem => by
      obtain ⟨posting, -, hposting⟩ := List.mem_map.1 hmem
      cases hposting
  refine ⟨hpostings, ?_⟩
  refine SafeDb.query placed hplaced (hstay fun _ => mem_locks_append_left) trivial
    (fun shared _ new hinv hplaced _ hrun => ?_)
    (fun _ _ _ _ _ _ shared hplaced => hundo _ true shared hplaced) hinv hpostings
  obtain ⟨events, hinsert, heq⟩ := Except.map_eq_ok.1 hrun
  cases heq
  rw [insertRows_ok hinsert]
  have hevent : CountersFirst (rowWrites writes tx seq time balances ++
      (postingRows tx seq time).map .posting ++
        [⟨tx.book.name, seq, time, .transactionPosted tx⟩].map .event) :=
    hpostings.append fun row hmem => by
      cases List.mem_singleton.1 hmem
      exact mem_locks_append_left (mem_locks_append_left (mem_locks_append_left
        (mem_locks_append_right (mem_locks (List.mem_singleton.2 rfl) (List.mem_singleton.2 rfl)))))
  refine ⟨hevent, ?_⟩
  refine SafeDb.query placed hplaced
    (hstay fun _ hlock => mem_locks_append_left (mem_locks_append_left hlock)) trivial
    (fun shared _ new hinv hplaced _ hrun => ?_) (fun _ _ _ _ _ hrun => nomatch hrun) hinv hevent
  cases hrun
  have hnotify : CountersFirst (rowWrites writes tx seq time balances ++
      (postingRows tx seq time).map .posting ++
        [⟨tx.book.name, seq, time, .transactionPosted tx⟩].map .event ++ [.notify tx.book.name]) :=
    hevent.append fun row hmem => (nomatch List.mem_singleton.1 hmem)
  refine ⟨hnotify, ?_⟩
  refine SafeDb.pure placed hplaced (hstay fun _ hlock => mem_locks_append_left
    (mem_locks_append_left (mem_locks_append_left hlock))) (fun shared hplaced => ?_) hinv
  have hall : rowWrites writes tx seq time balances ++ (postingRows tx seq time).map .posting ++
      [⟨tx.book.name, seq, time, .transactionPosted tx⟩].map .event ++ [.notify tx.book.name] =
        writes ++ (Op.posted tx seq time balances).writes := by
    simp [rowWrites, Op.writes, Op.rows, Op.event]
  rw [hall]
  have hholding := hplaced.holding.concat hplaced.enabled hplaced.past
  refine ⟨⟨_, hholding⟩, List.prefix_append _ _, rfl, rfl, transactionRow tx seq time, ?_, rfl, rfl,
    rfl⟩
  change _ ∈ (view shared.db (writes ++ (Op.posted tx seq time balances).writes)).transactions
  rw [view_append, view_posted]
  exact List.mem_append_right _ (List.mem_singleton.2 rfl)

/-- A draft whose number is claimed. -/
structure Numbering (exact : Prop) (ops : List Op) (writes : List Write) (tx : Transaction)
    (pending : List Pending) (seq time : Int) (shared : Shared) : Prop where
  holding : Holding exact ops shared writes
  loaded : Loaded (view shared.db writes) tx pending
  claims : Claims (view shared.db writes) tx.book.name seq time
  past : time ≤ shared.clock

theorem Numbering.grown {held : List Lock}
    (hnumbering : Numbering exact ops writes tx pending seq time shared)
    (hgrown : Grown held shared later)
    (hheld : ∀ lock ∈ locks (writes ++ [.counter tx.book.name seq]), lock ∈ held) :
    Numbering exact ops writes tx pending seq time later where
  holding := hnumbering.holding.grown hgrown fun lock hlock => hheld lock
    (mem_locks_append_left hlock)
  loaded := hnumbering.loaded.mono (hgrown.respects.view writes).accounts
  claims := hnumbering.claims.respects (hgrown.respects.view writes)
    (hheld _ (mem_locks_append_right (mem_locks (List.mem_singleton.2 rfl)
      (List.mem_singleton.2 rfl))))
  past := hnumbering.past.trans hgrown.clock

theorem safe_writeTransaction (hholding : Holding exact ops shared writes)
    (hloaded : Loaded (view shared.db writes) tx pending) (hinv : Consistent exact shared)
    (hown : CountersFirst writes) :
    SafeDb exact inserts (Answered exact writes marks tx) (fun _ => Undoable exact ops writes marks)
      (writeTransaction tx pending) shared ⟨writes, marks, false⟩ := by
  refine SafeDb.query (fun shared => Holding exact ops shared writes ∧
      Loaded (view shared.db writes) tx pending) ⟨hholding, hloaded⟩
    (fun shared later hholds hgrown => ⟨hholds.1.grown hgrown fun _ => id,
      hholds.2.mono (hgrown.respects.view writes).accounts⟩) trivial
    (fun shared claim new hinv hholds _ hrun => ?_)
    (fun _ _ _ _ _ _ shared hholds => ⟨hholds.1, List.prefix_rfl, rfl⟩) hinv hown
  obtain ⟨seq, time⟩ := claim
  obtain ⟨htime, hnew, hclaims⟩ := claims_of_run (hholds.1.past_view hinv) hrun
  dsimp only at htime hnew hclaims
  subst hnew
  have hcounter : CountersFirst (writes ++ [.counter tx.book.name seq]) :=
    hown.append fun row hmem => (nomatch List.mem_singleton.1 hmem)
  refine ⟨hcounter, ?_⟩
  -- the upsert of the balances
  let numbering := Numbering exact ops writes tx pending seq time
  have hnumbering : numbering shared := ⟨hholds.1, hholds.2, hclaims, htime.le⟩
  refine SafeDb.query numbering hnumbering (fun shared later hnumbering hgrown =>
      hnumbering.grown hgrown fun _ => id) trivial
    (fun shared raws new hinv hnumbering _ hrun => ?_)
    (fun _ _ _ _ _ _ shared hnumbering => ⟨hnumbering.holding, List.prefix_append _ _, rfl⟩) hinv
    hcounter
  obtain ⟨hrange, rfl, hnew⟩ := run_upsertBalances hrun
  let counted := writes ++ [.counter tx.book.name seq]
  let balances := balanceRows (view shared.db counted) seq pending
  have hnew : new = balances.map fun entry => .balance entry.1 entry.2 := by
    rw [hnew, List.map_map, show balances = pending.map _ from rfl, List.map_map]
    rfl
  subst hnew
  have hbalances : CountersFirst (counted ++ balances.map fun entry => .balance entry.1 entry.2) :=
    hcounter.append fun row hmem => by
      obtain ⟨entry, -, hentry⟩ := List.mem_map.1 hmem
      cases hentry
  refine ⟨hbalances, ?_⟩
  have hundo : ∀ more failed shared, numbering shared → Undoable exact ops writes marks shared
      ⟨counted ++ more, marks, failed⟩ := fun more failed shared hnumbering =>
    ⟨hnumbering.holding, (List.append_assoc writes _ more).symm ▸ List.prefix_append _ _, rfl⟩
  have hstay : ∀ (more : List Write) (shared later : Shared), numbering shared →
      Grown (locks (counted ++ more)) shared later → numbering later :=
    fun more shared later hnumbering hgrown => hnumbering.grown hgrown fun _ => mem_locks_append_left
  cases hcheck : checkMinimums (pending.zip ((pending.map (Pending.upsert seq)).map fun row =>
      rawBalance (view shared.db counted) row.key + row.delta)) with
  | error error =>
      exact SafeDb.throw numbering hnumbering (hstay _) (fun shared => hundo _ false shared) hinv
  | ok _ =>
      have hbalanced : Balanced (view shared.db counted) tx balances :=
        balanced_of_upsert (hnumbering.loaded.mono fun key row hrow => by rwa [view_append])
          hrange hcheck
      rw [view_append] at hbalanced
      have hbalanced : Balanced (view shared.db writes) tx balances :=
        ⟨hbalanced.touched, hbalanced.balance, hbalanced.minimum⟩
      -- the transaction row
      refine SafeDb.query (fun shared => numbering shared ∧ Balanced (view shared.db writes) tx balances)
        ⟨hnumbering, hbalanced⟩ (fun shared later hholds hgrown => ?_) trivial
        (fun shared rows new hinv hholds _ hrun => ?_)
        (fun _ _ _ _ _ _ shared hholds => hundo _ true shared hholds.1) hinv hbalances
      · refine ⟨hstay _ shared later hholds.1 hgrown, hholds.2.respects
          (hgrown.respects.view writes) (fun entry hentry => ?_) hholds.1.loaded.known⟩
        exact mem_locks_append_right
          (mem_locks (List.mem_map_of_mem hentry) (List.mem_singleton.2 rfl))
      · obtain ⟨inserted, hinsert, heq⟩ := Except.map_eq_ok.1 hrun
        cases heq
        obtain ⟨hnone, -⟩ := insertRows_cons.1 hinsert
        obtain ⟨hids, hkeys⟩ := transactionConflict_eq_none.1 hnone
        rw [insertRows_ok hinsert]
        have htransactions : (view shared.db (counted ++ balances.map fun entry =>
            .balance entry.1 entry.2)).transactions = (view shared.db writes).transactions := by
          rw [view_append, view_balances, view_append]
          rfl
        rw [htransactions] at hids hkeys
        have hplaced : Placed exact ops writes (.posted tx seq time balances) shared :=
          ⟨hholds.1.holding, ⟨hholds.1.claims, hids, hkeys, hholds.1.loaded.known,
            fun _ => hholds.2⟩, hholds.1.past⟩
        have hrow : CountersFirst (rowWrites writes tx seq time balances) :=
          hbalances.append fun row hmem => (nomatch List.mem_singleton.1 hmem)
        exact ⟨hrow, safe_rows hplaced hinv hrow⟩

theorem stored_find {db : Database} {committed : Committed}
    (hfound : (db.transactions.find? fun row => row.book = tx.book.name ∧
      row.idempotencyKey = tx.idempotencyKey.key).map committedOf = some committed) :
    Stored db tx committed := by
  obtain ⟨row, hrow, hcommitted⟩ := Option.map_eq_some_iff.1 hfound
  have hprops := List.find?_some hrow
  obtain ⟨hbook, hkey⟩ := of_decide_eq_true hprops
  exact ⟨row, List.mem_of_find?_eq_some hrow, hbook, hkey, hcommitted⟩

/-- The accounts of a draft are loaded. -/
theorem safe_loadPending (hholding : Holding exact ops shared writes)
    (hinv : Consistent exact shared) (hown : CountersFirst writes) :
    SafeDb exact inserts
      (fun pending shared own => own = ⟨writes, marks, false⟩ ∧ Holding exact ops shared writes ∧
        Loaded (view shared.db writes) tx pending)
      (fun _ => Undoable exact ops writes marks) (loadPending tx) shared ⟨writes, marks, false⟩ := by
  have hstay : ∀ shared later, Holding exact ops shared writes →
      Grown (locks writes) shared later → Holding exact ops later writes :=
    fun shared later hholding hgrown => hholding.grown hgrown fun _ => id
  refine SafeDb.query (fun shared => Holding exact ops shared writes) hholding hstay trivial
    (fun shared accounts new hinv hholding _ hrun => ?_) (fun _ _ _ _ _ hrun => nomatch hrun) hinv
    hown
  obtain ⟨haccounts, hnew⟩ := Prod.mk.inj (Except.ok.inj hrun)
  subst hnew
  subst haccounts
  rw [List.append_nil]
  refine ⟨hown, ?_⟩
  cases hfold : foldPostings tx (accountRows (view shared.db writes) (accountKeys tx.postings)) with
  | error error =>
      exact SafeDb.throw (fun shared => Holding exact ops shared writes) hholding hstay
        (fun _ hholding => ⟨hholding, List.prefix_rfl, rfl⟩) hinv
  | ok pending =>
      refine SafeDb.pure (fun shared => Holding exact ops shared writes ∧
        Loaded (view shared.db writes) tx pending) ⟨hholding, _, Sql.loadPending_ok hfold,
          fun key row => lookup_accountRows⟩ (fun shared later hholds hgrown =>
        ⟨hstay shared later hholds.1 hgrown, hholds.2.mono (hgrown.respects.view writes).accounts⟩)
        (fun _ hholds => ⟨rfl, hholds⟩) hinv

/-- What a draft leaves in the open transaction. -/
theorem safe_commitDraft (inserts : Prop) (tx : Transaction) (marks : List ℕ)
    (hholding : Holding exact ops shared writes)
    (hinv : Consistent exact shared) (hown : CountersFirst writes) :
    SafeDb exact inserts (Answered exact writes marks tx) (fun _ => Undoable exact ops writes marks)
      (commitDraft tx) shared ⟨writes, marks, false⟩ := by
  have hstay : ∀ shared later, Holding exact ops shared writes →
      Grown (locks writes) shared later → Holding exact ops later writes :=
    fun shared later hholding hgrown => hholding.grown hgrown fun _ => id
  refine SafeDb.query (fun shared => Holding exact ops shared writes) hholding hstay trivial
    (fun shared found new hinv hholding _ hrun => ?_) (fun _ _ _ _ _ hrun => nomatch hrun) hinv
    hown
  obtain ⟨hfound, hnew⟩ := Prod.mk.inj (Except.ok.inj hrun)
  subst hnew
  rw [List.append_nil]
  refine ⟨hown, ?_⟩
  cases found with
  | some prior =>
      refine SafeDb.pure (fun shared => Holding exact ops shared writes ∧
          Stored (view shared.db writes) tx prior) ⟨hholding, stored_find hfound⟩
        (fun shared later hholds hgrown => ⟨hstay shared later hholds.1 hgrown,
          hholds.2.mono (hgrown.respects.view writes).rows⟩)
        (fun _ hholds => ⟨⟨ops, hholds.1⟩, List.prefix_rfl, rfl, rfl, hholds.2⟩) hinv
  | none =>
      refine SafeDb.bind (safe_loadPending hholding hinv hown) ?_ hinv hown
      rintro pending shared own hinv hown ⟨rfl, hholding, hloaded⟩
      exact safe_writeTransaction hholding hloaded hinv hown

end Write

end Talea.Postgres
