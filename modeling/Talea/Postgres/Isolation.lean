import Talea.Postgres.Ledger

/-!
# Next to a transaction

What a transaction has found out under its locks stays so until it ends,
whatever others commit: they leave alone what it has locked, and take nothing
back.  So operations that could come next when they were written can still come
next when they are committed.
-/

namespace Talea.Postgres

open Sql

/-- What the database may become next to a transaction that holds some locks. -/
structure Respects (held : List Lock) (db later : Database) : Prop where
  counter : ∀ book, .counter book ∈ held →
    later.books.lookup book = db.books.lookup book ∧
      (later.events.filter fun row => row.book = book) =
        db.events.filter fun row => row.book = book
  asset : ∀ id, .asset id ∈ held → later.assets.lookup id = db.assets.lookup id
  account : ∀ key, .account key ∈ held → later.accounts.lookup key = db.accounts.lookup key
  balance : ∀ key, .balance key ∈ held → later.balances.lookup key = db.balances.lookup key
  transaction : ∀ id, .transaction id ∈ held → ∀ row ∈ later.transactions, row.txId = id →
    row ∈ db.transactions
  idempotencyKey : ∀ book key, .idempotencyKey book key ∈ held → ∀ row ∈ later.transactions,
    row.book = book → row.idempotencyKey = key → row ∈ db.transactions
  accounts : ∀ key row, db.accounts.lookup key = some row → later.accounts.lookup key = some row
  assets : ∀ id row, db.assets.lookup id = some row → later.assets.lookup id = some row
  rows : ∀ row ∈ db.transactions, row ∈ later.transactions

namespace Respects

variable {held : List Lock} {db mid later : Database}

theorem refl : Respects held db db where
  counter _ _ := ⟨rfl, rfl⟩
  asset _ _ := rfl
  account _ _ := rfl
  balance _ _ := rfl
  transaction _ _ _ hrow _ := hrow
  idempotencyKey _ _ _ _ hrow _ _ := hrow
  accounts _ _ hrow := hrow
  assets _ _ hrow := hrow
  rows _ hrow := hrow

theorem trans (hfirst : Respects held db mid) (hsecond : Respects held mid later) :
    Respects held db later where
  counter book hheld :=
    ⟨(hsecond.counter book hheld).1.trans (hfirst.counter book hheld).1,
      (hsecond.counter book hheld).2.trans (hfirst.counter book hheld).2⟩
  asset id hheld := (hsecond.asset id hheld).trans (hfirst.asset id hheld)
  account key hheld := (hsecond.account key hheld).trans (hfirst.account key hheld)
  balance key hheld := (hsecond.balance key hheld).trans (hfirst.balance key hheld)
  transaction id hheld row hrow hid :=
    hfirst.transaction id hheld row (hsecond.transaction id hheld row hrow hid) hid
  idempotencyKey book key hheld row hrow hbook hkey :=
    hfirst.idempotencyKey book key hheld row
      (hsecond.idempotencyKey book key hheld row hrow hbook hkey) hbook hkey
  accounts key row hrow := hsecond.accounts key row (hfirst.accounts key row hrow)
  assets id row hrow := hsecond.assets id row (hfirst.assets id row hrow)
  rows row hrow := hsecond.rows row (hfirst.rows row hrow)

/-- A write on both sides changes nothing about it. -/
theorem apply (hrespects : Respects held db later) (write : Write) :
    Respects held (write.apply db) (write.apply later) := by
  have hinsert : ∀ {κ υ : Type} [DecidableEq κ] {left right : HashMap κ υ} {key other : κ}
      {value : υ}, left.lookup other = right.lookup other →
        (left.insert key value).lookup other = (right.insert key value).lookup other := by
    intro κ υ _ left right key other value hsame
    rw [HashMap.lookup_insert_ite, HashMap.lookup_insert_ite, hsame]
  have hkeep : ∀ {κ υ : Type} [DecidableEq κ] {left right : HashMap κ υ} {key : κ} {value : υ},
      (∀ other row, left.lookup other = some row → right.lookup other = some row) →
        ∀ other row, (left.insert key value).lookup other = some row →
          (right.insert key value).lookup other = some row := by
    intro κ υ _ left right key value hmono other row hrow
    rw [HashMap.lookup_insert_ite] at hrow ⊢
    split at hrow
    · next hother => rwa [if_pos hother]
    · next hother =>
        rw [if_neg hother]
        exact hmono other row hrow
  cases write with
  | asset added =>
      exact { hrespects with
        asset := fun id hheld => hinsert (hrespects.asset id hheld)
        assets := hkeep hrespects.assets }
  | account key row =>
      exact { hrespects with
        account := fun other hheld => hinsert (hrespects.account other hheld)
        accounts := hkeep hrespects.accounts }
  | counter book last =>
      exact { hrespects with
        counter := fun other hheld =>
          ⟨hinsert (hrespects.counter other hheld).1, (hrespects.counter other hheld).2⟩ }
  | balance key row =>
      exact { hrespects with
        balance := fun other hheld => hinsert (hrespects.balance other hheld) }
  | transaction added =>
      refine { hrespects with
        transaction := fun id hheld row hrow hid => ?_
        idempotencyKey := fun book key hheld row hrow hbook hkey => ?_
        rows := fun row hrow => ?_ }
      · rcases List.mem_append.1 hrow with hold | hnew
        · exact List.mem_append_left _ (hrespects.transaction id hheld row hold hid)
        · exact List.mem_append_right _ hnew
      · rcases List.mem_append.1 hrow with hold | hnew
        · exact List.mem_append_left _
            (hrespects.idempotencyKey book key hheld row hold hbook hkey)
        · exact List.mem_append_right _ hnew
      · rcases List.mem_append.1 hrow with hold | hnew
        · exact List.mem_append_left _ (hrespects.rows row hold)
        · exact List.mem_append_right _ hnew
  | posting row => exact { hrespects with }
  | event row =>
      refine { hrespects with
        counter := fun other hheld => ⟨(hrespects.counter other hheld).1, ?_⟩ }
      change (later.events ++ [row]).filter _ = (db.events ++ [row]).filter _
      rw [List.filter_append, List.filter_append, (hrespects.counter other hheld).2]
  | notify book => exact hrespects

theorem view (hrespects : Respects held db later) (writes : List Write) :
    Respects held (view db writes) (view later writes) := by
  induction writes generalizing db later with
  | nil => exact hrespects
  | cons write writes ih => exact ih (hrespects.apply write)

theorem mono {more : List Lock} (hrespects : Respects held db later)
    (hsub : ∀ lock ∈ more, lock ∈ held) : Respects more db later :=
  { hrespects with
    counter := fun book hheld => hrespects.counter book (hsub _ hheld)
    asset := fun id hheld => hrespects.asset id (hsub _ hheld)
    account := fun key hheld => hrespects.account key (hsub _ hheld)
    balance := fun key hheld => hrespects.balance key (hsub _ hheld)
    transaction := fun id hheld => hrespects.transaction id (hsub _ hheld)
    idempotencyKey := fun book key hheld => hrespects.idempotencyKey book key (hsub _ hheld) }

theorem claimed (hrespects : Respects held db later) {book : String}
    (hheld : .counter book ∈ held) (count : Int) :
    Postgres.claimed later book count = Postgres.claimed db book count := by
  unfold Postgres.claimed
  rw [(hrespects.counter book hheld).1]

theorem rawBalance (hrespects : Respects held db later) {key : String}
    (hheld : .balance key ∈ held) :
    Postgres.rawBalance later key = Postgres.rawBalance db key := by
  unfold Postgres.rawBalance
  rw [hrespects.balance key hheld]

end Respects

/-! ## What was found out stays so -/

section Found

variable {exact : Prop} {held : List Lock} {db later : Database}

theorem Claims.respects {book : String} {seq time : Int} (hclaims : Claims db book seq time)
    (hrespects : Respects held db later) (hheld : .counter book ∈ held) :
    Claims later book seq time where
  seq := hclaims.seq.trans (hrespects.claimed hheld 1).symm
  time row hrow hbook := by
    have hmem : row ∈ later.events.filter fun row => row.book = book :=
      List.mem_filter.2 ⟨hrow, decide_eq_true hbook⟩
    rw [(hrespects.counter book hheld).2] at hmem
    exact hclaims.time row (List.mem_of_mem_filter hmem) hbook

theorem Balanced.respects {tx : Transaction} {balances : List (String × BalanceRow)}
    (hbalanced : Balanced db tx balances) (hrespects : Respects held db later)
    (hheld : ∀ entry ∈ balances, .balance entry.1 ∈ held)
    (hknown : ∀ posting ∈ tx.postings, (db.accounts.lookup posting.account.toKey).isSome) :
    Balanced later tx balances where
  touched := hbalanced.touched
  balance entry hentry := by
    rw [hrespects.rawBalance (hheld entry hentry)]
    exact hbalanced.balance entry hentry
  minimum entry hentry htouched row hrow min hmin := by
    refine hbalanced.minimum entry hentry htouched row ?_ min hmin
    obtain ⟨posting, hposting, hkey⟩ := htouched
    obtain ⟨acct, hacct⟩ := Option.isSome_iff_exists.1 (hknown posting hposting)
    rw [hkey] at hacct
    have hsame := hrespects.accounts _ _ hacct
    rw [hrow] at hsame
    rw [hacct, hsame]

theorem mem_locks {lock : Lock} {writes : List Write} {write : Write} (hwrite : write ∈ writes)
    (hlock : lock ∈ write.locks) : lock ∈ locks writes :=
  List.mem_flatMap.2 ⟨write, hwrite, hlock⟩

theorem Op.counter_mem_locks (op : Op) : .counter op.event.book ∈ locks op.writes :=
  mem_locks List.mem_cons_self (List.mem_singleton.2 rfl)

theorem Op.rows_mem_writes {op : Op} {write : Write} (hwrite : write ∈ op.rows) :
    write ∈ op.writes :=
  List.mem_append_left _ (List.mem_cons_of_mem _ hwrite)

/-- A draft that could be posted still can, under the locks of its counter, its
balances and its transaction row. -/
theorem Enabled.respects_posted {tx : Transaction} {seq time : Int}
    {balances : List (String × BalanceRow)}
    (henabled : Enabled exact db (.posted tx seq time balances))
    (hrespects : Respects held db later) (hcounter : .counter tx.book.name ∈ held)
    (hheld : ∀ entry ∈ balances, .balance entry.1 ∈ held) (hid : .transaction tx.id ∈ held)
    (hkey : .idempotencyKey tx.book.name tx.idempotencyKey.key ∈ held) :
    Enabled exact later (.posted tx seq time balances) := by
  obtain ⟨hclaims, hids, hkeys, hknown, hbalanced⟩ := henabled
  refine ⟨hclaims.respects hrespects hcounter, fun row hmem hsame => ?_,
    fun row hmem hsame => ?_, fun posting hposting => ?_,
    fun hexact => (hbalanced hexact).respects hrespects hheld hknown⟩
  · exact hids row (hrespects.transaction _ hid row hmem hsame) hsame
  · exact hkeys row (hrespects.idempotencyKey _ _ hkey row hmem hsame.1 hsame.2) hsame
  · obtain ⟨acct, hacct⟩ := Option.isSome_iff_exists.1 (hknown posting hposting)
    rw [hrespects.accounts _ _ hacct]
    rfl

/-- An operation that could come next still can. -/
theorem Enabled.respects {op : Op} (henabled : Enabled exact db op)
    (hrespects : Respects held db later) (hheld : ∀ lock ∈ locks op.writes, lock ∈ held) :
    Enabled exact later op := by
  have hcounter := hheld _ op.counter_mem_locks
  have hrow : ∀ {lock : Lock} {write : Write}, write ∈ op.rows → lock ∈ write.locks →
      lock ∈ held := fun hwrite hlock => hheld _ (mem_locks (Op.rows_mem_writes hwrite) hlock)
  cases op with
  | registered asset seq time =>
      obtain ⟨hnew, hclaims⟩ := henabled
      have hlock := hrow List.mem_cons_self (List.mem_singleton.2 rfl)
      exact ⟨(hrespects.asset _ hlock).trans hnew, hclaims.respects hrespects hcounter⟩
  | opened account cfg seq time =>
      obtain ⟨hnew, hclaims⟩ := henabled
      have hlock := hrow List.mem_cons_self (List.mem_singleton.2 rfl)
      exact ⟨(hrespects.account _ hlock).trans hnew, hclaims.respects hrespects hcounter⟩
  | posted tx seq time balances =>
      have htx : Write.transaction (transactionRow tx seq time) ∈
          (Op.posted tx seq time balances).rows :=
        List.mem_append_right _ List.mem_cons_self
      refine henabled.respects_posted hrespects hcounter (fun entry hentry => ?_)
        (hrow htx List.mem_cons_self)
        (hrow htx (List.mem_cons_of_mem _ (List.mem_singleton.2 rfl)))
      exact hrow (List.mem_append_left _ (List.mem_map_of_mem hentry)) (List.mem_singleton.2 rfl)

end Found

/-! ## Operations in a row -/

/-- The operations may come one after the other. -/
def Chain (exact : Prop) : Database → List Op → Prop
  | _, [] => True
  | db, op :: ops => Enabled exact db op ∧ Chain exact (view db op.writes) ops

def opWrites (ops : List Op) : List Write :=
  ops.flatMap Op.writes

section Chain

variable {exact : Prop} {held : List Lock} {db later : Database} {ops more : List Op}

theorem opWrites_append : opWrites (ops ++ more) = opWrites ops ++ opWrites more :=
  List.flatMap_append

theorem chain_append : Chain exact db (ops ++ more) ↔
    Chain exact db ops ∧ Chain exact (view db (opWrites ops)) more := by
  induction ops generalizing db with
  | nil => exact ⟨fun h => ⟨trivial, h⟩, fun h => h.2⟩
  | cons op ops ih =>
      have hview : view db (opWrites (op :: ops)) = view (view db op.writes) (opWrites ops) := by
        rw [opWrites, List.flatMap_cons, view_append]
        rfl
      rw [List.cons_append, Chain, Chain, ih, hview, and_assoc]

/-- Operations that each could come next still can, one after the other. -/
theorem Chain.stable (hchain : Chain exact db ops) (hrespects : Respects held db later)
    (hstable : ∀ op ∈ ops, ∀ db later, Enabled exact db op → Respects held db later →
      Enabled exact later op) : Chain exact later ops := by
  induction ops generalizing db later with
  | nil => trivial
  | cons op ops ih =>
      exact ⟨hstable op List.mem_cons_self _ _ hchain.1 hrespects,
        ih hchain.2 (hrespects.view op.writes) fun other hother =>
          hstable other (List.mem_cons_of_mem _ hother)⟩

theorem Chain.respects (hchain : Chain exact db ops) (hrespects : Respects held db later)
    (hheld : ∀ lock ∈ locks (opWrites ops), lock ∈ held) : Chain exact later ops := by
  refine hchain.stable hrespects fun op hop db later henabled hrespects =>
    henabled.respects hrespects fun lock hlock => ?_
  obtain ⟨write, hwrite, hlock⟩ := List.mem_flatMap.1 hlock
  exact hheld lock (mem_locks (List.mem_flatMap.2 ⟨op, hop, hwrite⟩) hlock)

theorem Chain.ledger (hchain : Chain exact db ops) (hledger : Ledger exact db) :
    Ledger exact (view db (opWrites ops)) := by
  induction ops generalizing db with
  | nil => exact hledger
  | cons op ops ih =>
      rw [opWrites, List.flatMap_cons, view_append]
      exact ih hchain.2 (hledger.apply hchain.1)

end Chain

/-! ## What others commit -/

/-- Every event is written under its book's counter, also when the last writes
are undone. -/
def CountersFirst (writes : List Write) : Prop :=
  ∀ count row, Write.event row ∈ writes.take count → .counter row.book ∈ locks (writes.take count)

section Commit

variable {exact : Prop} {held : List Lock} {db : Database} {writes : List Write}

theorem CountersFirst.mem (hfirst : CountersFirst writes) {row : EventRow}
    (hrow : Write.event row ∈ writes) : .counter row.book ∈ locks writes := by
  have := hfirst writes.length row
  rw [List.take_length] at this
  exact this hrow

/-- What has been registered once stays registered. -/
theorem Ledger.keeps {later : Database} (hdb : Ledger exact db) (hlater : Ledger exact later)
    {more : List EventRow} (hevents : later.events = db.events ++ more) :
    (∀ id asset, db.assets.lookup id = some asset → later.assets.lookup id = some asset) ∧
      ∀ key row, db.accounts.lookup key = some row → later.accounts.lookup key = some row := by
  constructor
  · intro id asset hasset
    have hlist := hlater.registered id
    rw [hevents, List.filterMap_append, hdb.registered, hasset] at hlist
    cases hlookup : later.assets.lookup id with
    | none => simp [hlookup] at hlist
    | some other =>
        rw [hlookup] at hlist
        exact congrArg some (List.cons.inj hlist).1.symm
  · intro key row hrow
    have hlist := hlater.opened key
    rw [hevents, List.filterMap_append, hdb.opened, hrow] at hlist
    cases hlookup : later.accounts.lookup key with
    | none => simp [hlookup] at hlist
    | some other =>
        rw [hlookup] at hlist
        exact congrArg some (List.cons.inj hlist).1.symm

theorem view_keeps {α : Type} (part : Database → α)
    (hkeeps : ∀ db, ∀ write ∈ writes, part (write.apply db) = part db) :
    part (view db writes) = part db := by
  induction writes generalizing db with
  | nil => rfl
  | cons write writes ih =>
      rw [view_cons, ih fun db other hother => hkeeps db other (List.mem_cons_of_mem _ hother)]
      exact hkeeps db write List.mem_cons_self

theorem transactions_view : db.transactions <+: (view db writes).transactions := by
  induction writes generalizing db with
  | nil => exact List.prefix_rfl
  | cons write writes ih =>
      refine List.IsPrefix.trans ?_ ih
      cases write <;> first | exact List.prefix_append _ _ | exact List.prefix_rfl

/-- A commit that has no lock in common leaves alone what is locked. -/
theorem respects_view (hledger : Ledger exact db) (hlater : Ledger exact (view db writes))
    (hapart : ∀ lock ∈ held, lock ∉ locks writes) (hfirst : CountersFirst writes) :
    Respects held db (view db writes) := by
  have hfree : ∀ {lock : Lock} {write : Write}, lock ∈ held → write ∈ writes →
      lock ∉ write.locks := fun hheld hwrite hlock => hapart _ hheld (mem_locks hwrite hlock)
  have hinsert : ∀ {κ υ : Type} [DecidableEq κ] {map : HashMap κ υ} {key other : κ} {value : υ},
      other ≠ key → (map.insert key value).lookup other = map.lookup other := by
    intro κ υ _ map key other value hne
    rw [HashMap.lookup_insert_ite, if_neg hne]
  obtain ⟨hassets, haccounts⟩ := hledger.keeps hlater events_view
  refine ⟨fun book hheld => ⟨?_, ?_⟩, fun id hheld => ?_, fun key hheld => ?_,
    fun key hheld => ?_, fun id hheld row hrow hid => ?_,
    fun book key hheld row hrow hbook hkey => ?_, haccounts, hassets,
    fun row hrow => transactions_view.subset hrow⟩
  · refine view_keeps (fun db => db.books.lookup book) fun db write hwrite => ?_
    cases write with
    | counter other last =>
        refine hinsert ?_
        rintro rfl
        exact hfree hheld hwrite (List.mem_singleton.2 rfl)
    | _ => rfl
  · refine view_keeps (fun db => db.events.filter fun row => row.book = book)
      fun db write hwrite => ?_
    cases write with
    | event row =>
        have hne : row.book ≠ book := by
          rintro rfl
          exact hapart _ hheld (hfirst.mem hwrite)
        change (db.events ++ [row]).filter _ = _
        rw [List.filter_append, List.filter_cons_of_neg (by simpa using hne), List.filter_nil,
          List.append_nil]
    | _ => rfl
  · refine view_keeps (fun db => db.assets.lookup id) fun db write hwrite => ?_
    cases write with
    | asset added =>
        refine hinsert ?_
        rintro rfl
        exact hfree hheld hwrite (List.mem_singleton.2 rfl)
    | _ => rfl
  · refine view_keeps (fun db => db.accounts.lookup key) fun db write hwrite => ?_
    cases write with
    | account other row =>
        refine hinsert ?_
        rintro rfl
        exact hfree hheld hwrite (List.mem_singleton.2 rfl)
    | _ => rfl
  · refine view_keeps (fun db => db.balances.lookup key) fun db write hwrite => ?_
    cases write with
    | balance other row =>
        refine hinsert ?_
        rintro rfl
        exact hfree hheld hwrite (List.mem_singleton.2 rfl)
    | _ => rfl
  · have hsame : ((view db writes).transactions.filter fun row => row.txId = id) =
        db.transactions.filter fun row => row.txId = id := by
      refine view_keeps (fun db => db.transactions.filter fun row => row.txId = id)
        fun db write hwrite => ?_
      cases write with
      | transaction added =>
          have hne : added.txId ≠ id := by
            rintro rfl
            exact hfree hheld hwrite List.mem_cons_self
          change (db.transactions ++ [added]).filter _ = _
          rw [List.filter_append, List.filter_cons_of_neg (by simpa using hne), List.filter_nil,
            List.append_nil]
      | _ => rfl
    have hmem : row ∈ (view db writes).transactions.filter fun row => row.txId = id :=
      List.mem_filter.2 ⟨hrow, decide_eq_true hid⟩
    rw [hsame] at hmem
    exact List.mem_of_mem_filter hmem
  · have hsame : ((view db writes).transactions.filter fun row =>
        row.book = book ∧ row.idempotencyKey = key) =
          db.transactions.filter fun row => row.book = book ∧ row.idempotencyKey = key := by
      refine view_keeps (fun db => db.transactions.filter fun row =>
        row.book = book ∧ row.idempotencyKey = key) fun db write hwrite => ?_
      cases write with
      | transaction added =>
          have hne : ¬ (added.book = book ∧ added.idempotencyKey = key) := by
            rintro ⟨rfl, rfl⟩
            exact hfree hheld hwrite (List.mem_cons_of_mem _ (List.mem_singleton.2 rfl))
          change (db.transactions ++ [added]).filter _ = _
          rw [List.filter_append, List.filter_cons_of_neg (by simpa using hne), List.filter_nil,
            List.append_nil]
      | _ => rfl
    have hmem : row ∈ (view db writes).transactions.filter fun row =>
        row.book = book ∧ row.idempotencyKey = key :=
      List.mem_filter.2 ⟨hrow, decide_eq_true (And.intro hbook hkey)⟩
    rw [hsame] at hmem
    exact List.mem_of_mem_filter hmem

end Commit

end Talea.Postgres
