import Talea.Lib.Rfc3339
import Talea.Sqlite.PointInTime

/-!
# Times as text

The timestamp columns hold text, and the queries about a moment compare it with
the text of the moment.  A commit time is a number of microseconds, the moment
a caller asks for one of nanoseconds, so that the two texts may have fractions
of different length.  How an instant becomes text is the driver's business: it
is a parameter here, taken to be the RFC 3339 text in the years that have four
digits.
-/

namespace Talea.Sqlite

open Sql Rfc3339

/-- The driver encodes the instants of the years 0 to 9999 as RFC 3339 texts. -/
def EncodesRfc3339 (encode : ℤ → String) : Prop :=
  ∀ instant, InYears instant → encode instant = Rfc3339.text instant

/-- The instant of a ledger timestamp, which counts microseconds. -/
def instantOf (time : Int) : ℤ :=
  1000 * time

/-- A timestamp is not behind a moment exactly when it is not behind the
moment's microsecond. -/
theorem instantOf_le_iff {time : Int} {t : ℤ} : instantOf time ≤ t ↔ time ≤ t / 1000 := by
  unfold instantOf
  omega

section Queries

variable (encode : ℤ → String) (db : Database)

/-- `WHERE account_key = ?1 AND committed_at <= ?2`, on the texts. -/
def accountPostingsBy (account : AccountId) (t : ℤ) : List PostingRow :=
  db.postings.filter fun row =>
    row.accountKey = account.toKey ∧ encode (instantOf row.committedAt) ≤ encode t

/-- `WHERE book = ?1 AND (?2 IS NULL OR committed_at <= ?2)`, on the texts. -/
def bookPostingsBy (book : Book) (asOf : Option ℤ) : List PostingRow :=
  db.postings.filter fun row =>
    row.book = book.name ∧ ∀ t ∈ asOf, encode (instantOf row.committedAt) ≤ encode t

/-- `balance`, its point-in-time query run on the texts. -/
def balanceOnText (account : AccountId) (asOf : Option ℤ) : Except Fault BalanceSnapshot :=
  match db.accounts.lookup account.toKey with
  | none => .error (.error (.unknownAccount account) false)
  | some acct => do
      let (raw, updatedSeq) ←
        match asOf with
        | none =>
            match db.balances.lookup account.toKey with
            | none => .ok (0, 0)
            | some row => .ok (row.balance, row.updatedSeq)
        | some t => do
            let rows := accountPostingsBy encode db account t
            let raw ← sumIntegers (rows.map signedMinor)
            .ok (raw, (rows.map PostingRow.seq).foldl max 0)
      .ok ⟨acct.asset, effective raw acct.normalSide, updatedSeq⟩

/-- `trial_balance`, its query run on the texts. -/
def trialBalanceOnText (book : Book) (asOf : Option ℤ) :
    Except Fault (List TrialBalanceRow) :=
  let rows := bookPostingsBy encode db book asOf
  let assets := (rows.map fun row => row.asset.id).dedup.insertionSort (· ≤ ·)
  assets.mapM fun asset => do
    let side (direction : Direction) : List Int :=
      rows.filterMap fun row =>
        if row.asset.id = asset then some (if row.direction = direction then row.minor else 0)
        else none
    let debits ← sumIntegers (side .debit)
    let credits ← sumIntegers (side .credit)
    .ok ⟨⟨asset⟩, debits, credits⟩

end Queries

/-! ## Commit times -/

/-- A clock reading in the years 0 to 9999. -/
abbrev ClockInYears (db : Database) (op : Op) : Prop :=
  OpMeets (fun _ _ time => InYears (instantOf time)) db op

/-- Every posting was committed in the years 0 to 9999. -/
def CommittedInYears (db : Database) : Prop :=
  ∀ row ∈ db.postings, InYears (instantOf row.committedAt)

theorem CommittedInYears.writes {db next : Database} {name : String} {books : List String}
    {time : Int} (hrows : CommittedInYears db) (hclock : InYears (instantOf time))
    (hwrites : Writes db name books time next) : CommittedInYears next := by
  cases hwrites with
  | same => exact hrows
  | appends event rows hbook hevents hbooks hpostings hnew haccounts =>
      intro row hrow
      rw [hpostings, List.mem_append] at hrow
      rcases hrow with hold | hadded
      · exact hrows row hold
      · rw [(hnew row hadded).1]
        exact hclock

theorem CommittedInYears.run {ops : List Op} {db : Database}
    (hclock : StepsMeet step ClockInYears .empty ops)
    (hexec : execSteps step .empty ops = some db) : CommittedInYears db := by
  have hempty : CommittedInYears Database.empty := fun row hrow => absurd hrow List.not_mem_nil
  refine (statesMeet_of_invariant (fun db op next hinv hcond hstep => ?_) (fun _ h => h) hempty
    hclock).last hexec
  exact step_invariant (fun _ _ _ _ _ hrows hclock hwrites => hrows.writes hclock hwrites) hinv
    hcond hstep

/-! ## The queries -/

section Selects

variable {encode : ℤ → String} (hencode : EncodesRfc3339 encode)
include hencode

theorem encode_le_encode {instant instant' : ℤ} (hin : InYears instant) (hin' : InYears instant') :
    encode instant ≤ encode instant' ↔ instant ≤ instant' := by
  rw [hencode _ hin, hencode _ hin', text_le_text hin hin']

variable {db : Database} (hrows : CommittedInYears db) {t : ℤ} (hin : InYears t)
include hrows hin

theorem accountPostingsBy_eq (account : AccountId) :
    accountPostingsBy encode db account t = db.postings.filter fun row =>
      row.accountKey = account.toKey ∧ instantOf row.committedAt ≤ t :=
  List.filter_congr fun row hrow => by
    simp only [encode_le_encode hencode (hrows row hrow) hin]

theorem bookPostingsBy_eq (book : Book) :
    bookPostingsBy encode db book (some t) = db.postings.filter fun row =>
      row.book = book.name ∧ instantOf row.committedAt ≤ t :=
  List.filter_congr fun row hrow => by
    simp only [Option.mem_some_iff, forall_eq', encode_le_encode hencode (hrows row hrow) hin]

/-- The answers are those of the queries on numbers, asked for the moment's
microsecond. -/
theorem balanceOnText_eq (account : AccountId) :
    balanceOnText encode db account (some t) = balance db account (some (t / 1000)) := by
  have hselect := accountPostingsBy_eq hencode hrows hin account
  simp only [instantOf_le_iff] at hselect
  unfold balanceOnText balance
  cases db.accounts.lookup account.toKey with
  | none => rfl
  | some acct =>
      dsimp only
      rw [hselect]

theorem trialBalanceOnText_eq (book : Book) :
    trialBalanceOnText encode db book (some t) = trialBalance db book (some (t / 1000)) := by
  have hselect := bookPostingsBy_eq hencode hrows hin book
  simp only [instantOf_le_iff] at hselect
  have hmoment : ∀ row : PostingRow,
      (∀ u ∈ some (t / 1000), row.committedAt ≤ u) ↔ row.committedAt ≤ t / 1000 := fun row => by
    simp only [Option.mem_some_iff, forall_eq']
  unfold trialBalanceOnText trialBalance
  simp only [hselect, hmoment]

end Selects

/-- The texts of instants in the years 0 to 9999 are ordered as the instants
are, and so the queries about a moment take exactly the postings committed by
then. -/
theorem asOf_compares_times (encode : ℤ → String) (hencode : EncodesRfc3339 encode) :
    (∀ (time : Int) (t : ℤ), InYears (instantOf time) → InYears t →
      (encode (instantOf time) ≤ encode t ↔ instantOf time ≤ t)) ∧
    ∀ (ops : List Op) (db : Database), StepsMeet step ClockInYears .empty ops →
      execSteps step .empty ops = some db → ∀ t : ℤ, InYears t →
      (∀ account : AccountId,
        (∀ row, row ∈ accountPostingsBy encode db account t ↔
          row ∈ db.postings ∧ row.accountKey = account.toKey ∧ instantOf row.committedAt ≤ t) ∧
        balanceOnText encode db account (some t) = balance db account (some (t / 1000))) ∧
      ∀ book : Book,
        (∀ row, row ∈ bookPostingsBy encode db book (some t) ↔
          row ∈ db.postings ∧ row.book = book.name ∧ instantOf row.committedAt ≤ t) ∧
        trialBalanceOnText encode db book (some t) = trialBalance db book (some (t / 1000)) := by
  refine ⟨fun time t htime hin => encode_le_encode hencode htime hin, ?_⟩
  intro ops db hclock hexec t hin
  have hrows := CommittedInYears.run hclock hexec
  refine ⟨fun account => ⟨fun row => ?_, balanceOnText_eq hencode hrows hin account⟩,
    fun book => ⟨fun row => ?_, trialBalanceOnText_eq hencode hrows hin book⟩⟩
  · simp [accountPostingsBy_eq hencode hrows hin]
  · simp [bookPostingsBy_eq hencode hrows hin]

theorem inRange_noonSale : I64.InRange 700 := by
  decide

theorem inRange_nextSale : I64.InRange 5 := by
  decide

/-- A sale at noon, and another one a microsecond later. -/
def salesAtNoon : List Op :=
  [.registerAsset ⟨usd, .fiat, 2, "US dollar"⟩ 0,
    .openAccount ⟨cash, usd, .asset⟩ ⟨some .debit, none⟩ 0,
    .openAccount ⟨sales, usd, .income⟩ ⟨some .credit, none⟩ 0,
    .commit (transfer 1 "k1" 700 inRange_noonSale) 43200000000,
    .commit (transfer 2 "k2" 5 inRange_nextSale) 43200000001]

theorem asOf_compares_times_noon :
    ∃ db, execSteps step .empty salesAtNoon = some db ∧
      balanceOnText Rfc3339.text db cash (some 43200000000999) =
        balance db cash (some 43200000000) := by
  have hrun : ∃ db ∈ execSteps step .empty salesAtNoon,
      StepsMeet step ClockInYears .empty salesAtNoon := by
    decide +kernel
  obtain ⟨db, hexec, hclock⟩ := hrun
  exact ⟨db, hexec, (((asOf_compares_times Rfc3339.text (fun _ _ => rfl)).2 salesAtNoon db hclock
    hexec 43200000000999 (by decide)).1 cash).2⟩

end Talea.Sqlite
