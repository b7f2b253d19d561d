import Talea.Postgres.Server
import Talea.Sql.Pending
import Talea.Sql.Stream

/-!
# What transactions commit

One after the other: an asset is registered, an account is opened, a draft is
posted.  Each takes the next number of its book, and writes its rows.  A
database that has come about this way is a ledger; its balances are those of
its postings when the writers have added them up right.
-/

namespace Talea.Postgres

open Sql

/-- An event with the rows that are written for it. -/
inductive Op
  | registered (asset : AssetDef) (seq time : Int)
  | opened (account : AccountDef) (cfg : AccountCfg) (seq time : Int)
  | posted (tx : Transaction) (seq time : Int) (balances : List (String × BalanceRow))

namespace Op

def event : Op → EventRow
  | registered asset seq time => ⟨systemBook.name, seq, time, .assetRegistered asset⟩
  | opened account cfg seq time => ⟨account.id.book.name, seq, time, .accountOpened account cfg⟩
  | posted tx seq time _ => ⟨tx.book.name, seq, time, .transactionPosted tx⟩

/-- The rows next to the counter and the event. -/
def rows : Op → List Write
  | registered asset _ _ => [.asset asset]
  | opened account cfg _ _ =>
      [.account account.id.toKey ⟨account.asset, account.kind, cfg.normalSide, cfg.minBalance⟩]
  | posted tx seq time balances =>
      balances.map (fun entry => .balance entry.1 entry.2) ++
        .transaction (transactionRow tx seq time) ::
          (postingRows tx seq time).map .posting

def writes (op : Op) : List Write :=
  .counter op.event.book op.event.seq :: op.rows ++ [.event op.event, .notify op.event.book]

end Op

/-! ## Writes in a row -/

section View

variable {db : Database} {writes more : List Write}

@[simp]
theorem view_nil : view db [] = db :=
  rfl

@[simp]
theorem view_cons {write : Write} : view db (write :: writes) = view (write.apply db) writes :=
  rfl

@[simp]
theorem view_append : view db (writes ++ more) = view (view db writes) more :=
  List.foldl_append

theorem view_map {α : Type} {write : α → Write} (set : Database → List α → Database)
    (hnil : ∀ db, set db [] = db)
    (hcons : ∀ db row rows, set ((write row).apply db) rows = set db (row :: rows))
    (rows : List α) : view db (rows.map write) = set db rows := by
  induction rows generalizing db with
  | nil => exact (hnil db).symm
  | cons row rows ih => rw [List.map_cons, view_cons, ih, hcons]

theorem view_balances (rows : List (String × BalanceRow)) :
    view db (rows.map fun entry => .balance entry.1 entry.2) =
      { db with
        balances := rows.foldl (fun map entry => map.insert entry.1 entry.2) db.balances } :=
  view_map (fun db rows =>
      { db with
        balances := rows.foldl (fun map entry => map.insert entry.1 entry.2) db.balances })
    (fun _ => rfl) (fun _ _ _ => rfl) rows

theorem view_transactions (rows : List TransactionRow) :
    view db (rows.map .transaction) =
      { db with transactions := db.transactions ++ rows } :=
  view_map (fun db rows => { db with transactions := db.transactions ++ rows })
    (fun _ => by simp) (fun _ _ _ => by simp [Write.apply]) rows

theorem view_postings (rows : List PostingRow) :
    view db (rows.map .posting) = { db with postings := db.postings ++ rows } :=
  view_map (fun db rows => { db with postings := db.postings ++ rows })
    (fun _ => by simp) (fun _ _ _ => by simp [Write.apply]) rows

theorem view_events (rows : List EventRow) :
    view db (rows.map .event) = { db with events := db.events ++ rows } :=
  view_map (fun db rows => { db with events := db.events ++ rows })
    (fun _ => by simp) (fun _ _ _ => by simp [Write.apply]) rows

theorem events_view : (view db writes).events = db.events ++ eventRows writes := by
  induction writes generalizing db with
  | nil => simp [eventRows]
  | cons write writes ih =>
      rw [view_cons, ih]
      cases write <;> simp [Write.apply, eventRows]

theorem view_registered (asset : AssetDef) (seq time : Int) :
    view db (Op.registered asset seq time).writes =
      { db with
        assets := db.assets.insert asset.id.id asset
        books := db.books.insert systemBook.name seq
        events := db.events ++ [⟨systemBook.name, seq, time, .assetRegistered asset⟩] } :=
  rfl

theorem view_opened (account : AccountDef) (cfg : AccountCfg) (seq time : Int) :
    view db (Op.opened account cfg seq time).writes =
      { db with
        accounts := db.accounts.insert account.id.toKey
          ⟨account.asset, account.kind, cfg.normalSide, cfg.minBalance⟩
        books := db.books.insert account.id.book.name seq
        events := db.events ++ [⟨account.id.book.name, seq, time, .accountOpened account cfg⟩] } :=
  rfl

theorem view_posted (tx : Transaction) (seq time : Int) (balances : List (String × BalanceRow)) :
    view db (Op.posted tx seq time balances).writes =
      { db with
        books := db.books.insert tx.book.name seq
        balances := balances.foldl (fun map entry => map.insert entry.1 entry.2) db.balances
        transactions := db.transactions ++ [transactionRow tx seq time]
        postings := db.postings ++ postingRows tx seq time
        events := db.events ++ [⟨tx.book.name, seq, time, .transactionPosted tx⟩] } := by
  rw [Op.writes, Op.rows, List.cons_append, view_cons, List.append_assoc, view_append,
    view_balances, List.cons_append, view_cons, view_append, view_postings]
  rfl

end View

/-! ## Ledgers -/

/-- A claim of the next number of a book, at a time no earlier than its events. -/
structure Claims (db : Database) (book : String) (seq time : Int) : Prop where
  seq : seq = claimed db book 1
  time : ∀ row ∈ db.events, row.book = book → row.at' ≤ time

/-- Each book's events are numbered from one on, at times that do not go back,
and its counter is at the last one. -/
structure Sequenced (db : Database) : Prop where
  seqs : ∀ book, (db.events.filter fun row => row.book = book).map EventRow.seq =
    (List.range (db.events.filter fun row => row.book = book).length).map fun i : ℕ => (i : Int) + 1
  counter : ∀ book, claimed db book 0 = (db.events.filter fun row => row.book = book).length
  times : db.events.Pairwise fun left right => left.book = right.book → left.at' ≤ right.at'
  ascend : Ascending db.events

section Sequenced

variable {db next : Database} {book : String} {seq time : Int} {event : LedgerEvent}

theorem Sequenced.empty : Sequenced .empty where
  seqs _ := rfl
  counter _ := rfl
  times := .nil
  ascend := .nil

theorem Sequenced.seq_le (hdb : Sequenced db) {row : EventRow} (hrow : row ∈ db.events) :
    row.seq ≤ claimed db row.book 0 := by
  have hmem : row.seq ∈ (db.events.filter fun other => other.book = row.book).map EventRow.seq :=
    List.mem_map_of_mem (List.mem_filter.2 ⟨hrow, decide_eq_true rfl⟩)
  rw [hdb.seqs, List.mem_map] at hmem
  obtain ⟨idx, hidx, hseq⟩ := hmem
  have := List.mem_range.1 hidx
  rw [hdb.counter]
  omega

theorem claimed_insert (hbooks : next.books = db.books.insert book seq) (other : String)
    (count : Int) :
    claimed next other count = if other = book then seq + count else claimed db other count := by
  unfold claimed
  rw [hbooks, HashMap.lookup_insert_ite]
  split <;> rfl

theorem Sequenced.append (hdb : Sequenced db) (hclaims : Claims db book seq time)
    (hbooks : next.books = db.books.insert book seq)
    (hevents : next.events = db.events ++ [⟨book, seq, time, event⟩]) : Sequenced next := by
  have hseq : seq = claimed db book 0 + 1 := by
    rw [hclaims.seq, claimed, claimed, add_zero]
  have hfilter : ∀ other, (next.events.filter fun row => row.book = other) =
      (db.events.filter fun row => row.book = other) ++
        if other = book then [⟨book, seq, time, event⟩] else [] := by
    intro other
    rw [hevents, List.filter_append]
    congr 1
    by_cases hother : other = book
    · simp [hother]
    · simp [hother, Ne.symm hother]
  refine ⟨fun other => ?_, fun other => ?_, ?_, ?_⟩
  · rw [hfilter]
    split
    · next hother =>
        subst hother
        rw [List.map_append, List.length_append, List.length_singleton, List.range_succ,
          List.map_append, hdb.seqs, List.map_singleton, List.map_singleton, hseq, hdb.counter]
    · rw [List.append_nil]
      exact hdb.seqs other
  · rw [claimed_insert hbooks, hfilter]
    split
    · next hother =>
        subst hother
        rw [List.length_append, List.length_singleton, hseq, hdb.counter]
        push_cast
        ring
    · rw [List.append_nil]
      exact hdb.counter other
  · rw [hevents, List.pairwise_append]
    refine ⟨hdb.times, List.pairwise_singleton _ _, fun row hrow new hnew hsame => ?_⟩
    cases List.mem_singleton.1 hnew
    exact hclaims.time row hrow hsame
  · rw [hevents]
    refine List.pairwise_append.2 ⟨hdb.ascend, List.pairwise_singleton _ _,
      fun row hrow new hnew hsame => ?_⟩
    cases List.mem_singleton.1 hnew
    have hle := hdb.seq_le hrow
    have hbook : row.book = book := hsame
    rw [hbook] at hle
    change row.seq < seq
    omega

end Sequenced

/-- What a posting adds to the raw balance of its account. -/
def rowDelta (row : PostingRow) : Int :=
  match row.direction with
  | .debit => row.minor
  | .credit => I64.wrappingNeg row.minor

/-- The balance that some postings come to. -/
def balanceOf (postings : List PostingRow) (key : String) : Int :=
  (postings.map fun row => if row.accountKey = key then rowDelta row else 0).sum

/-- The balance behind so many transactions. -/
def balanceAfter (db : Database) (count : ℕ) (key : String) : Int :=
  balanceOf (db.postings.filter fun row =>
    row.txId ∈ (db.transactions.take count).map TransactionRow.txId) key

/-- The asset that an event registers under an id. -/
def registeredAs (id : String) (row : EventRow) : Option AssetDef :=
  match row.event with
  | .assetRegistered asset => if asset.id.id = id then some asset else none
  | _ => none

/-- The account that an event opens under a key. -/
def openedAs (key : String) (row : EventRow) : Option AccountRow :=
  match row.event with
  | .accountOpened account cfg =>
      if account.id.toKey = key then
        some ⟨account.asset, account.kind, cfg.normalSide, cfg.minBalance⟩
      else none
  | _ => none

/-- The transaction row of an event. -/
def postedAs (row : EventRow) : Option TransactionRow :=
  match row.event with
  | .transactionPosted tx => some (transactionRow tx row.seq row.at')
  | _ => none

/-- The posting rows of an event. -/
def postingsOf (row : EventRow) : List PostingRow :=
  match row.event with
  | .transactionPosted tx => postingRows tx row.seq row.at'
  | _ => []

/-- A database that has come about by one transaction after the other; its
balances are added up right where the writers are `exact`. -/
structure Ledger (exact : Prop) (db : Database) : Prop where
  sequenced : Sequenced db
  ids : db.transactions.Pairwise fun left right => left.txId ≠ right.txId
  keys : db.transactions.Pairwise fun left right =>
    ¬ (left.book = right.book ∧ left.idempotencyKey = right.idempotencyKey)
  postingIds : ∀ row ∈ db.postings, row.txId ∈ db.transactions.map TransactionRow.txId
  postingAccounts : ∀ row ∈ db.postings, (db.accounts.lookup row.accountKey).isSome
  registered : ∀ id, db.events.filterMap (registeredAs id) = (db.assets.lookup id).toList
  opened : ∀ key, db.events.filterMap (openedAs key) = (db.accounts.lookup key).toList
  posted : db.transactions = db.events.filterMap postedAs
  entries : db.postings = db.events.flatMap postingsOf
  range : exact → ∀ key, I64.InRange (rawBalance db key)
  balances : exact → ∀ key, rawBalance db key = balanceOf db.postings key
  minimum : exact → ∀ count key row min, db.accounts.lookup key = some row →
    row.minBalance = some min →
    (∃ posting ∈ db.postings, posting.accountKey = key ∧
      posting.txId ∈ (db.transactions.take count).map TransactionRow.txId) →
    min ≤ adjusted (balanceAfter db count key) row.normalSide

/-- The balance rows of a draft are those of the database with the draft's
postings added, fit an `i64`, and are not below the minimum of an account that
the draft touches. -/
structure Balanced (db : Database) (tx : Transaction) (balances : List (String × BalanceRow)) :
    Prop where
  touched : ∀ posting ∈ tx.postings, posting.account.toKey ∈ balances.map Prod.fst
  balance : ∀ entry ∈ balances,
    entry.2.balance = rawBalance db entry.1 + deltaOf tx.postings entry.1 ∧
      I64.InRange entry.2.balance
  minimum : ∀ entry ∈ balances, (∃ posting ∈ tx.postings, posting.account.toKey = entry.1) →
    ∀ row, db.accounts.lookup entry.1 = some row → ∀ min, row.minBalance = some min →
      min ≤ effective entry.2.balance row.normalSide

/-- An operation may come next. -/
def Enabled (exact : Prop) (db : Database) : Op → Prop
  | .registered asset seq time =>
      db.assets.lookup asset.id.id = none ∧ Claims db systemBook.name seq time
  | .opened account _ seq time =>
      db.accounts.lookup account.id.toKey = none ∧ Claims db account.id.book.name seq time
  | .posted tx seq time balances =>
      Claims db tx.book.name seq time ∧
        (∀ row ∈ db.transactions, row.txId ≠ tx.id) ∧
        (∀ row ∈ db.transactions,
          ¬ (row.book = tx.book.name ∧ row.idempotencyKey = tx.idempotencyKey.key)) ∧
        (∀ posting ∈ tx.postings, (db.accounts.lookup posting.account.toKey).isSome) ∧
        (exact → Balanced db tx balances)

section Balances

variable {rows more : List PostingRow} {key : String}

theorem balanceOf_append : balanceOf (rows ++ more) key = balanceOf rows key + balanceOf more key := by
  simp [balanceOf]

theorem balanceOf_postingRows (tx : Transaction) (seq time : Int) (key : String) :
    balanceOf (postingRows tx seq time) key = deltaOf tx.postings key := by
  unfold balanceOf deltaOf postingRows
  rw [List.mapIdx_eq_zipIdx_map, List.map_map]
  have hmap : tx.postings = tx.postings.zipIdx.map Prod.fst := by simp
  conv_rhs => rw [hmap, List.map_map]
  rfl

theorem mem_postingRows {tx : Transaction} {seq time : Int} {row : PostingRow}
    (hrow : row ∈ postingRows tx seq time) :
    row.txId = tx.id ∧ ∃ posting ∈ tx.postings, posting.account.toKey = row.accountKey := by
  obtain ⟨idx, hidx, rfl⟩ := List.mem_mapIdx.1 hrow
  exact ⟨rfl, tx.postings[idx], List.getElem_mem hidx, rfl⟩

end Balances

section Apply

variable {exact : Prop} {db : Database}

theorem Ledger.empty : Ledger exact .empty where
  sequenced := .empty
  ids := .nil
  keys := .nil
  postingIds := nofun
  postingAccounts := nofun
  registered _ := rfl
  opened _ := rfl
  posted := rfl
  entries := rfl
  range _ _ := I64.inRange_zero
  balances _ _ := rfl
  minimum := nofun

/-- With all transactions counted, all postings are. -/
theorem Ledger.balanceAfter_length (hledger : Ledger exact db) (key : String) :
    balanceAfter db db.transactions.length key = balanceOf db.postings key := by
  unfold balanceAfter
  rw [List.take_length, List.filter_eq_self.2]
  exact fun row hrow => decide_eq_true (hledger.postingIds row hrow)

theorem Ledger.applyRegistered (hledger : Ledger exact db) {asset : AssetDef} {seq time : Int}
    (henabled : Enabled exact db (.registered asset seq time)) :
    Ledger exact (view db (Op.registered asset seq time).writes) := by
  obtain ⟨hnew, hclaims⟩ := henabled
  rw [view_registered]
  refine ⟨hledger.sequenced.append hclaims rfl rfl, hledger.ids, hledger.keys, hledger.postingIds,
    hledger.postingAccounts, fun id => ?_, fun key => ?_, ?_, ?_, hledger.range, hledger.balances,
    hledger.minimum⟩
  · change (db.events ++ [_]).filterMap _ = _
    rw [List.filterMap_append, hledger.registered, HashMap.lookup_insert_ite]
    by_cases hid : id = asset.id.id
    · subst hid
      simp [hnew, registeredAs]
    · simp [registeredAs, hid, Ne.symm hid]
  · change (db.events ++ [_]).filterMap _ = _
    rw [List.filterMap_append, hledger.opened]
    exact List.append_nil _
  · change db.transactions = (db.events ++ [_]).filterMap _
    rw [List.filterMap_append, ← hledger.posted]
    exact (List.append_nil _).symm
  · change db.postings = (db.events ++ [_]).flatMap _
    rw [List.flatMap_append, ← hledger.entries]
    exact (List.append_nil _).symm

theorem Ledger.applyOpened (hledger : Ledger exact db) {account : AccountDef} {cfg : AccountCfg}
    {seq time : Int} (henabled : Enabled exact db (.opened account cfg seq time)) :
    Ledger exact (view db (Op.opened account cfg seq time).writes) := by
  obtain ⟨hnew, hclaims⟩ := henabled
  rw [view_opened]
  have hold : ∀ posting ∈ db.postings, posting.accountKey ≠ account.id.toKey := by
    intro posting hposting hkey
    have := hledger.postingAccounts posting hposting
    rw [hkey, hnew] at this
    cases this
  refine ⟨hledger.sequenced.append hclaims rfl rfl, hledger.ids, hledger.keys, hledger.postingIds,
    fun row hrow => ?_, fun id => ?_, fun key => ?_, ?_, ?_, hledger.range, hledger.balances,
    fun hexact count key row min hrow hmin hposting => ?_⟩
  · change (Finmap.lookup _ (db.accounts.insert _ _)).isSome
    rw [HashMap.lookup_insert_ite, if_neg (hold row hrow)]
    exact hledger.postingAccounts row hrow
  · change (db.events ++ [_]).filterMap _ = _
    rw [List.filterMap_append, hledger.registered]
    exact List.append_nil _
  · change (db.events ++ [_]).filterMap _ = _
    rw [List.filterMap_append, hledger.opened, HashMap.lookup_insert_ite]
    by_cases hkey : key = account.id.toKey
    · subst hkey
      simp [hnew, openedAs]
    · simp [openedAs, hkey, Ne.symm hkey]
  · change db.transactions = (db.events ++ [_]).filterMap _
    rw [List.filterMap_append, ← hledger.posted]
    exact (List.append_nil _).symm
  · change db.postings = (db.events ++ [_]).flatMap _
    rw [List.flatMap_append, ← hledger.entries]
    exact (List.append_nil _).symm
  · obtain ⟨posting, hmem, hkey, hid⟩ := hposting
    have hne : key ≠ account.id.toKey := hkey ▸ hold posting hmem
    rw [HashMap.lookup_insert_ite, if_neg hne] at hrow
    exact hledger.minimum hexact count key row min hrow hmin ⟨posting, hmem, hkey, hid⟩

section Posted

variable {tx : Transaction} {seq time : Int} {balances : List (String × BalanceRow)}

/-- The balance rows of a draft show what its postings come to. -/
theorem Balanced.rawBalance_eq (hbalanced : Balanced db tx balances) (key : String) :
    rawBalance (view db (Op.posted tx seq time balances).writes) key =
      rawBalance db key + deltaOf tx.postings key := by
  rw [view_posted]
  unfold rawBalance
  dsimp only
  rcases HashMap.lookup_foldl_insert balances db.balances key with
    ⟨entry, hentry, rfl, hlookup⟩ | ⟨hnot, hlookup⟩
  · rw [hlookup]
    exact (hbalanced.balance entry hentry).1
  · rw [hlookup, deltaOf_eq_zero, add_zero]
    rintro ⟨posting, hposting, rfl⟩
    exact hnot (hbalanced.touched posting hposting)

theorem Balanced.inRange (hbalanced : Balanced db tx balances)
    (hrange : ∀ key, I64.InRange (rawBalance db key)) (key : String) :
    I64.InRange (rawBalance (view db (Op.posted tx seq time balances).writes) key) := by
  rw [view_posted]
  unfold rawBalance
  dsimp only
  rcases HashMap.lookup_foldl_insert balances db.balances key with
    ⟨entry, hentry, rfl, hlookup⟩ | ⟨-, hlookup⟩
  · rw [hlookup]
    exact (hbalanced.balance entry hentry).2
  · rw [hlookup]
    exact hrange key

theorem Ledger.minimum_posted (hledger : Ledger exact db) (hexact : exact)
    (henabled : Enabled exact db (.posted tx seq time balances)) {count : ℕ} {key : String}
    {row : AccountRow} {min : Int} (hrow : db.accounts.lookup key = some row)
    (hmin : row.minBalance = some min)
    (hposting : ∃ posting ∈ db.postings ++ postingRows tx seq time, posting.accountKey = key ∧
      posting.txId ∈ ((db.transactions ++ [transactionRow tx seq time]).take count).map
        TransactionRow.txId) :
    min ≤ adjusted (balanceAfter (view db (Op.posted tx seq time balances).writes) count key)
      row.normalSide := by
  obtain ⟨-, hids, -, -, hbalanced⟩ := henabled
  have hfresh : tx.id ∉ db.transactions.map TransactionRow.txId := by
    intro hmem
    obtain ⟨other, hother, hid⟩ := List.mem_map.1 hmem
    exact hids other hother hid
  rw [view_posted]
  unfold balanceAfter
  dsimp only
  by_cases hcount : count ≤ db.transactions.length
  · -- the new draft is not counted yet
    have htake : (db.transactions ++ [transactionRow tx seq time]).take count =
        db.transactions.take count := List.take_append_of_le_length hcount
    rw [htake] at hposting ⊢
    have hsub : ∀ id ∈ (db.transactions.take count).map TransactionRow.txId,
        id ∈ db.transactions.map TransactionRow.txId := fun id hid =>
      ((List.take_sublist _ _).map _).subset hid
    have hnone : (postingRows tx seq time).filter (fun row =>
        row.txId ∈ (db.transactions.take count).map TransactionRow.txId) = [] := by
      refine List.filter_eq_nil_iff.2 fun new hnew hmem => hfresh ?_
      rw [← (mem_postingRows hnew).1]
      exact hsub _ (of_decide_eq_true hmem)
    rw [List.filter_append, hnone, List.append_nil]
    obtain ⟨posting, hmem, hkey, hid⟩ := hposting
    rcases List.mem_append.1 hmem with hold | hnew
    · exact hledger.minimum hexact count key row min hrow hmin ⟨posting, hold, hkey, hid⟩
    · rw [(mem_postingRows hnew).1] at hid
      exact absurd (hsub _ hid) hfresh
  · have htake : (db.transactions ++ [transactionRow tx seq time]).take count =
        db.transactions ++ [transactionRow tx seq time] := by
      refine List.take_of_length_le ?_
      rw [List.length_append, List.length_singleton]
      omega
    rw [htake] at hposting ⊢
    have hall : (db.postings ++ postingRows tx seq time).filter (fun row =>
        row.txId ∈ (db.transactions ++ [transactionRow tx seq time]).map TransactionRow.txId) =
        db.postings ++ postingRows tx seq time := by
      refine List.filter_eq_self.2 fun posting hmem => decide_eq_true ?_
      rw [List.map_append, List.mem_append]
      rcases List.mem_append.1 hmem with hold | hnew
      · exact Or.inl (hledger.postingIds posting hold)
      · exact Or.inr (List.mem_singleton.2 (mem_postingRows hnew).1)
    rw [hall, balanceOf_append, balanceOf_postingRows, ← hledger.balances hexact]
    by_cases htouched : ∃ posting ∈ tx.postings, posting.account.toKey = key
    · obtain ⟨posting, hmem, hkey⟩ := htouched
      obtain ⟨entry, hentry, hfst⟩ := List.mem_map.1 ((hbalanced hexact).touched posting hmem)
      have hname : entry.1 = key := hfst.trans hkey
      obtain ⟨hbalance, hrange⟩ := (hbalanced hexact).balance entry hentry
      rw [hname] at hbalance
      rw [← hbalance]
      exact ((hbalanced hexact).minimum entry hentry ⟨posting, hmem, hfst.symm⟩ row
        (hname ▸ hrow) min hmin).trans (effective_le_adjusted hrange _)
    · rw [deltaOf_eq_zero htouched, add_zero, hledger.balances hexact,
        ← hledger.balanceAfter_length]
      refine hledger.minimum hexact _ key row min hrow hmin ?_
      obtain ⟨posting, hmem, hkey, -⟩ := hposting
      rcases List.mem_append.1 hmem with hold | hnew
      · exact ⟨posting, hold, hkey, by
          rw [List.take_length]
          exact hledger.postingIds posting hold⟩
      · obtain ⟨-, touching, htouching, hsame⟩ := mem_postingRows hnew
        exact absurd ⟨touching, htouching, hsame.trans hkey⟩ htouched

theorem Ledger.applyPosted (hledger : Ledger exact db)
    (henabled : Enabled exact db (.posted tx seq time balances)) :
    Ledger exact (view db (Op.posted tx seq time balances).writes) := by
  obtain ⟨hclaims, hids, hkeys, hknown, hbalanced⟩ := id henabled
  refine ⟨?_, ?_, ?_, fun row hrow => ?_, fun row hrow => ?_, fun id => ?_, fun key => ?_, ?_, ?_,
    fun hexact key => ?_, fun hexact key => ?_, fun hexact count key row min hrow hmin hposting => ?_⟩
  · rw [view_posted]
    exact hledger.sequenced.append hclaims rfl rfl
  · rw [view_posted]
    refine List.pairwise_append.2 ⟨hledger.ids, List.pairwise_singleton _ _,
      fun row hrow new hnew => ?_⟩
    cases List.mem_singleton.1 hnew
    exact hids row hrow
  · rw [view_posted]
    refine List.pairwise_append.2 ⟨hledger.keys, List.pairwise_singleton _ _,
      fun row hrow new hnew => ?_⟩
    cases List.mem_singleton.1 hnew
    exact hkeys row hrow
  · rw [view_posted] at hrow ⊢
    change row.txId ∈ (db.transactions ++ [_]).map _
    rw [List.map_append, List.mem_append]
    rcases List.mem_append.1 hrow with hold | hnew
    · exact Or.inl (hledger.postingIds row hold)
    · exact Or.inr (List.mem_singleton.2 (mem_postingRows hnew).1)
  · rw [view_posted] at hrow ⊢
    rcases List.mem_append.1 hrow with hold | hnew
    · exact hledger.postingAccounts row hold
    · obtain ⟨-, posting, hposting, hkey⟩ := mem_postingRows hnew
      exact hkey ▸ hknown posting hposting
  · rw [view_posted]
    change (db.events ++ [_]).filterMap _ = _
    rw [List.filterMap_append, hledger.registered]
    exact List.append_nil _
  · rw [view_posted]
    change (db.events ++ [_]).filterMap _ = _
    rw [List.filterMap_append, hledger.opened]
    exact List.append_nil _
  · rw [view_posted]
    change _ = (db.events ++ [_]).filterMap _
    rw [List.filterMap_append, ← hledger.posted]
    rfl
  · rw [view_posted]
    change _ = (db.events ++ [_]).flatMap _
    rw [List.flatMap_append, ← hledger.entries, List.flatMap_singleton]
    rfl
  · exact (hbalanced hexact).inRange (hledger.range hexact) key
  · rw [(hbalanced hexact).rawBalance_eq, view_posted]
    change _ = balanceOf (db.postings ++ postingRows tx seq time) key
    rw [balanceOf_append, balanceOf_postingRows, ← hledger.balances hexact]
  · rw [view_posted] at hrow hposting
    exact hledger.minimum_posted hexact henabled hrow hmin hposting

end Posted

/-- What comes next leaves a ledger. -/
theorem Ledger.apply (hledger : Ledger exact db) {op : Op} (henabled : Enabled exact db op) :
    Ledger exact (view db op.writes) := by
  cases op with
  | registered asset seq time => exact hledger.applyRegistered henabled
  | opened account cfg seq time => exact hledger.applyOpened henabled
  | posted tx seq time balances => exact hledger.applyPosted henabled

end Apply

end Talea.Postgres
