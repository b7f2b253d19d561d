import Talea.Sqlite.Store

/-!
# Balances at a point in time

`balance` and `trial_balance` sum the postings that were committed by a moment.
Once a book has an event behind that moment, nothing it commits may date back:
the commit times of a book have to ascend with its sequence numbers.  They are
readings of the process's clock, taken under the write lock and compared with
nothing.
-/

namespace Talea.Sqlite

open Sql

/-! ## Queries -/

structure BalanceSnapshot where
  asset : AssetId
  minor : Int
  updatedSeq : Int
  deriving DecidableEq

structure TrialBalanceRow where
  asset : AssetId
  debits : Int
  credits : Int
  deriving DecidableEq

/-- `SUM` over integers: an error where it overflows on the way; the negation of
the least `i64` is a `REAL`, and so is a sum with it. -/
def sumIntegers (values : List Int) : Except Fault Int :=
  if ∃ value ∈ values, ¬ I64.InRange value then .error .panic
  else
    match values.foldlM I64.checkedAdd 0 with
    | none => .error (failure "integer overflow")
    | some sum => .ok sum

def signedMinor (row : PostingRow) : Int :=
  row.direction.signed row.minor

def balance (db : Database) (account : AccountId) (asOf : Option Int) :
    Except Fault BalanceSnapshot :=
  match db.accounts.lookup account.toKey with
  | none => .error (.error (.unknownAccount account) false)
  | some acct => do
      let (raw, updatedSeq) ←
        match asOf with
        | none =>
            match db.balances.lookup account.toKey with
            | none => .ok (0, 0)
            | some row => .ok (row.balance, row.updatedSeq)
        | some t => do
            let rows := db.postings.filter fun row =>
              row.accountKey = account.toKey ∧ row.committedAt ≤ t
            let raw ← sumIntegers (rows.map signedMinor)
            .ok (raw, (rows.map PostingRow.seq).foldl max 0)
      .ok ⟨acct.asset, effective raw acct.normalSide, updatedSeq⟩

def trialBalance (db : Database) (book : Book) (asOf : Option Int) :
    Except Fault (List TrialBalanceRow) :=
  let rows := db.postings.filter fun row =>
    row.book = book.name ∧ ∀ t ∈ asOf, row.committedAt ≤ t
  let assets := (rows.map fun row => row.asset.id).dedup.insertionSort (· ≤ ·)
  assets.mapM fun asset => do
    let side (direction : Direction) : List Int :=
      rows.filterMap fun row =>
        if row.asset.id = asset then some (if row.direction = direction then row.minor else 0)
        else none
    let debits ← sumIntegers (side .debit)
    let credits ← sumIntegers (side .credit)
    .ok ⟨⟨asset⟩, debits, credits⟩

/-! ## The clock -/

/-- A clock reading is not behind what the books have committed. -/
def Forward (db : Database) (books : List String) (time : Int) : Prop :=
  ∀ row ∈ db.events, row.book ∈ books → row.at' ≤ time

instance (db : Database) (books : List String) (time : Int) : Decidable (Forward db books time) :=
  inferInstanceAs (Decidable (∀ _ ∈ _, _))

/-- The clock does not step back between two writes to one book. -/
abbrev ClockForward (db : Database) (op : Op) : Prop :=
  OpMeets Forward db op

/-- The book holds an event committed behind the moment. -/
def Past (db : Database) (book : Book) (t : Int) : Prop :=
  ∃ row ∈ db.events, row.book = book.name ∧ t < row.at'

/-- Within a book, commit times ascend with the sequence numbers. -/
def TimesAscend (db : Database) : Prop :=
  ∀ left ∈ db.events, ∀ right ∈ db.events, left.book = right.book → left.seq < right.seq →
    left.at' ≤ right.at'

/-! ## What a write keeps -/

/-- The events of a book in the order of the table, in seq and in time. -/
structure Ordered (db : Database) : Prop extends Numbered db where
  times : db.events.Pairwise fun left right => left.book = right.book → left.at' ≤ right.at'

theorem Ordered.empty : Ordered .empty :=
  ⟨.empty, .nil⟩

section Writes

variable {db next : Database} {name : String} {books : List String} {time t : Int} {book : Book}

theorem Ordered.writes (hordered : Ordered db) (hforward : Forward db books time)
    (hwrites : Writes db name books time next) : Ordered next := by
  refine ⟨hordered.toNumbered.writes hwrites, ?_⟩
  cases hwrites with
  | same => exact hordered.times
  | appends event rows hbook hevents hbooks hpostings hrows haccounts =>
      rw [hevents, List.pairwise_append]
      refine ⟨hordered.times, List.pairwise_singleton _ _, fun row hrow new hnew hsame => ?_⟩
      cases List.mem_singleton.1 hnew
      have hname : row.book = name := hsame
      exact hforward row hrow (hname ▸ hbook)

theorem Past.writes (hpast : Past db book t) (hwrites : Writes db name books time next) :
    Past next book t := by
  cases hwrites with
  | same => exact hpast
  | appends event rows hbook hevents hbooks hpostings hrows haccounts =>
      obtain ⟨row, hrow, hrest⟩ := hpast
      exact ⟨row, hevents ▸ List.mem_append_left _ hrow, hrest⟩

/-- No posting of the book that a write appends was committed by a moment the
book has passed. -/
theorem filter_postings_writes (hpast : Past db book t) (hforward : Forward db books time)
    (hwrites : Writes db name books time next) {select : PostingRow → Bool}
    (hselect : ∀ row, select row = true → row.committedAt ≤ t ∧ (row.book = book.name ∨
      ∃ account : AccountId, account.book = book ∧ row.accountKey = account.toKey)) :
    next.postings.filter select = db.postings.filter select := by
  cases hwrites with
  | same => rfl
  | appends event rows hbook hevents hbooks hpostings hrows haccounts =>
      obtain ⟨past, hmem, hname, hlater⟩ := hpast
      have hnone : rows.filter select = [] := by
        rw [List.filter_eq_nil_iff]
        intro row hrow hselected
        obtain ⟨htime, hown, haccount⟩ := hrows row hrow
        obtain ⟨hby, hof⟩ := hselect row hselected
        have htouched : book.name ∈ books := by
          rcases hof with hof | ⟨account, hof, hkey⟩
          · rw [← hof, hown]
            exact hbook
          · rw [← hof]
            exact haccount account hkey
        have hpassed := hforward past hmem (hname ▸ htouched)
        omega
      rw [hpostings, List.filter_append, hnone, List.append_nil]

/-- What a query about a moment can see of a book: the postings by then, and
the accounts that are open. -/
structure SameView (first db : Database) (book : Book) (t : Int) : Prop where
  postings : ∀ select : PostingRow → Bool, (∀ row, select row = true → row.committedAt ≤ t ∧
      (row.book = book.name ∨
        ∃ account : AccountId, account.book = book ∧ row.accountKey = account.toKey)) →
    db.postings.filter select = first.postings.filter select
  accounts : ∀ key row, first.accounts.lookup key = some row → db.accounts.lookup key = some row

theorem SameView.refl (db : Database) : SameView db db book t :=
  ⟨fun _ _ => rfl, fun _ _ h => h⟩

theorem SameView.writes {first : Database} (hview : SameView first db book t)
    (hpast : Past db book t) (hforward : Forward db books time)
    (hwrites : Writes db name books time next) : SameView first next book t := by
  refine ⟨fun select hselect => ?_, fun key row hrow => ?_⟩
  · rw [filter_postings_writes hpast hforward hwrites hselect]
    exact hview.postings select hselect
  · have hold := hview.accounts key row hrow
    cases hwrites with
    | same => exact hold
    | appends event rows hbook hevents hbooks hpostings hrows haccounts =>
        exact haccounts key row hold

end Writes

/-! ## What a run keeps -/

section Runs

theorem Ordered.run {db final : Database} (hordered : Ordered db) {ops : List Op}
    (hforward : StepsMeet step ClockForward db ops) (hexec : execSteps step db ops = some final) :
    Ordered final := by
  refine (statesMeet_of_invariant (fun db op next hinv hcond hstep => ?_) (fun _ h => h) hordered
    hforward).last hexec
  exact step_invariant (fun _ _ _ _ _ hinv hforward hwrites => hinv.writes hforward hwrites) hinv
    hcond hstep

theorem SameView.run {first final : Database} {book : Book} {t : Int} (hpast : Past first book t)
    {ops : List Op} (hforward : StepsMeet step ClockForward first ops)
    (hexec : execSteps step first ops = some final) : SameView first final book t := by
  have hstep : ∀ db op next, Past db book t ∧ SameView first db book t → ClockForward db op →
      step db op = some next → Past next book t ∧ SameView first next book t := by
    have hwrites : ∀ db name books time next, Past db book t ∧ SameView first db book t →
        Forward db books time → Writes db name books time next →
        Past next book t ∧ SameView first next book t :=
      fun db name books time next hinv hforward hwrites =>
        ⟨hinv.1.writes hwrites, hinv.2.writes hinv.1 hforward hwrites⟩
    exact fun db op next hinv hcond hstep => step_invariant hwrites hinv hcond hstep
  have hmeets := statesMeet_of_invariant hstep (fun _ h => h) ⟨hpast, SameView.refl first⟩ hforward
  exact (hmeets.last hexec).2

theorem Ordered.timesAscend {db : Database} (hordered : Ordered db) : TimesAscend db := by
  have htimes := List.pairwise_iff_getElem.1 hordered.times
  have hseqs := List.pairwise_iff_getElem.1 hordered.ascend
  intro left hleft right hright hsame hseq
  obtain ⟨i, hi, rfl⟩ := List.getElem_of_mem hleft
  obtain ⟨j, hj, rfl⟩ := List.getElem_of_mem hright
  rcases lt_trichotomy i j with hij | hij | hij
  · exact htimes i j hi hj hij hsame
  · subst hij
    exact le_rfl
  · exact absurd hseq (not_lt.2 (hseqs j i hj hi hij hsame.symm).le)

end Runs

/-- While the clock does not step back within a book, the answers about a
moment that the book has passed stay what they are, for every account that is
open, and commit times ascend with the sequence numbers. -/
theorem pointInTime_stable (before after : List Op) (first final : Database)
    (hbefore : StepsMeet step ClockForward .empty before)
    (hfirst : execSteps step .empty before = some first)
    (hafter : StepsMeet step ClockForward first after)
    (hfinal : execSteps step first after = some final) :
    TimesAscend final ∧ ∀ (book : Book) (t : Int), Past first book t →
      trialBalance final book (some t) = trialBalance first book (some t) ∧
        ∀ account : AccountId, account.book = book →
          (first.accounts.lookup account.toKey).isSome →
          balance final account (some t) = balance first account (some t) := by
  have hordered := (Ordered.empty.run hbefore hfirst).run hafter hfinal
  refine ⟨hordered.timesAscend, fun book t hpast => ?_⟩
  have hview := SameView.run hpast hafter hfinal
  refine ⟨?_, fun account haccount hopen => ?_⟩
  · have hrows := hview.postings
      (fun row => row.book = book.name ∧ ∀ u ∈ some t, row.committedAt ≤ u) fun row hrow => by
        obtain ⟨hname, hby⟩ := of_decide_eq_true hrow
        exact ⟨hby t rfl, Or.inl hname⟩
    unfold trialBalance
    rw [hrows]
  · obtain ⟨acct, hacct⟩ := Option.isSome_iff_exists.1 hopen
    have hrows := hview.postings
      (fun row => row.accountKey = account.toKey ∧ row.committedAt ≤ t) fun row hrow => by
        obtain ⟨hkey, hby⟩ := of_decide_eq_true hrow
        exact ⟨hby, Or.inr ⟨account, haccount, hkey⟩⟩
    unfold balance
    rw [hacct, hview.accounts _ _ hacct]
    dsimp only
    rw [hrows]

/-- The shop's accounts, and a sale at 200. -/
def saleAt200 : List Op :=
  [.registerAsset ⟨usd, .fiat, 2, "US dollar"⟩ 100,
    .openAccount ⟨cash, usd, .asset⟩ ⟨some .debit, none⟩ 100,
    .openAccount ⟨sales, usd, .income⟩ ⟨some .credit, none⟩ 100,
    .commit (transfer 1 "k1" 700 (by decide)) 200]

theorem pointInTime_stable_sales :
    ∃ first final, execSteps step .empty saleAt200 = some first ∧
      execSteps step first [.commit (transfer 2 "k2" 5 (by decide)) 200] = some final ∧
      balance final cash (some 150) = balance first cash (some 150) := by
  have hbefore : StepsMeet step ClockForward .empty saleAt200 := by
    decide +kernel
  have hrest : ∃ first ∈ execSteps step .empty saleAt200,
      StepsMeet step ClockForward first [.commit (transfer 2 "k2" 5 (by decide)) 200] ∧
      (first.accounts.lookup cash.toKey).isSome ∧
      (∃ row ∈ first.events, row.book = "shop" ∧ 150 < row.at') ∧
      (execSteps step first [.commit (transfer 2 "k2" 5 (by decide)) 200]).isSome := by
    decide +kernel
  obtain ⟨first, hfirst, hafter, hopen, hpast, hsome⟩ := hrest
  obtain ⟨final, hfinal⟩ := Option.isSome_iff_exists.1 hsome
  exact ⟨first, final, hfirst, hfinal, ((pointInTime_stable saleAt200 _ first final hbefore hfirst
    hafter hfinal).2 ⟨"shop"⟩ 150 hpast).2 cash rfl hopen⟩

/-- The clock steps back to 120, and the balance at 150 changes behind an event
at 200. -/
theorem pointInTime_unstable :
    ∃ first final, execSteps step .empty saleAt200 = some first ∧
      execSteps step first [.commit (transfer 2 "k2" 5 (by decide)) 120] = some final ∧
      Past first ⟨"shop"⟩ 150 ∧ ¬ TimesAscend final ∧
      balance first cash (some 150) = .ok ⟨usd, 0, 0⟩ ∧
      balance final cash (some 150) = .ok ⟨usd, 5, 4⟩ := by
  have hrun : ∃ first ∈ execSteps step .empty saleAt200,
      ∃ final ∈ execSteps step first [.commit (transfer 2 "k2" 5 (by decide)) 120],
        (∃ row ∈ first.events, row.book = "shop" ∧ 150 < row.at') ∧
        (∃ left ∈ final.events, ∃ right ∈ final.events, left.book = right.book ∧
          left.seq < right.seq ∧ right.at' < left.at') ∧
        balance first cash (some 150) = .ok ⟨usd, 0, 0⟩ ∧
        balance final cash (some 150) = .ok ⟨usd, 5, 4⟩ := by
    decide +kernel
  obtain ⟨first, hfirst, final, hfinal, hpast, hback, hold, hnew⟩ := hrun
  obtain ⟨left, hleft, right, hright, hsame, hseq, htime⟩ := hback
  exact ⟨first, final, hfirst, hfinal, hpast,
    fun hascend => absurd (hascend left hleft right hright hsame hseq) (not_le.2 htime), hold, hnew⟩

end Talea.Sqlite
