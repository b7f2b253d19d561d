import Talea.Log.AccountReads
import Talea.Log.FailStop

/-!
# Effective balances

A balance that is reported, now or as of an instant, and one that validation
compares with an account's minimum, is the sum of the account's signed postings,
negated for a credit-normal account.  The sums are checked and the negation is
not: it goes wrong for the one `i64` that has no counterpart.
-/

namespace Talea.Log

variable {rt : Runtime}

/-- Negating a raw balance to the normal side stays in the range of an
`i64`. -/
def Negatable (raw : Int) (normalSide : Option Direction) : Prop :=
  ¬(normalSide = some .credit ∧ raw = -9223372036854775808)

theorem effective_eq_adjusted_iff {raw : Int} (hrange : I64.InRange raw)
    (normalSide : Option Direction) :
    effective raw normalSide = adjusted raw normalSide ↔ Negatable raw normalSide := by
  unfold I64.InRange at hrange
  unfold effective adjusted Negatable
  cases normalSide with
  | none => simp
  | some side =>
      cases side with
      | debit => simp
      | credit =>
          simp only [true_and, I64.wrappingNeg, I64.wrapping]
          omega

/-! ## Reported balances -/

/-- The events that are committed up to an instant. -/
def committedBy (asOf : Option Int) (events : List WireEvent) : List WireEvent :=
  match asOf with
  | none => events
  | some time => events.filter fun wire => wire.at' ≤ time

theorem committedBy_isPrefix {events : List WireEvent}
    (htimes : events.Pairwise fun left right => left.at' ≤ right.at') (asOf : Option Int) :
    committedBy asOf events <+: events := by
  cases asOf with
  | none => exact List.prefix_rfl
  | some time =>
      have hpart : Partitioned (fun wire : WireEvent => wire.at' ≤ time) events := by
        refine htimes.imp fun {left right} hle hright => ?_
        simp only [decide_eq_true_eq] at hright ⊢
        omega
      rw [committedBy, ← hpart.takeWhile_eq_filter]
      exact List.takeWhile_prefix _

/-- A search by time finds the last entry of the events up to the instant. -/
theorem AccountState.Tells.entryAt {acct : AccountState} {key : String}
    {events : List WireEvent} (htells : acct.Tells key events)
    (htimes : events.Pairwise fun left right => left.at' ≤ right.at') (time : Int) :
    (if acct.postings.partitionPointAt time = 0 then none
      else acct.postings.get (acct.postings.partitionPointAt time - 1)) =
        (historyFrom key 0 (committedBy (some time) events)).getLast? := by
  have hpart : Partitioned (fun entry : PostingEntry => entry.at' ≤ time)
      acct.postings.flat := by
    rw [htells.flat_eq]
    refine (pairwise_historyFrom (fun left right => left.2 ≤ right.2) (fun _ => le_rfl)
      htimes).imp fun {left right} hle hright => ?_
    simp only [decide_eq_true_eq] at hright ⊢
    omega
  have hupto : (acct.postings.flat.takeWhile fun entry => entry.at' ≤ time) =
      historyFrom key 0 (committedBy (some time) events) := by
    rw [htells.flat_eq, takeWhile_historyFrom time htimes]
    rfl
  have hidx : acct.postings.partitionPointAt time =
      (historyFrom key 0 (committedBy (some time) events)).length := by
    rw [PostingIndex.partitionPointAt, PostingIndex.partitionPointBy_eq _ hpart, hupto]
  by_cases hnone : historyFrom key 0 (committedBy (some time) events) = []
  · rw [hidx, hnone]
    rfl
  · have hlen := List.length_pos_iff.2 hnone
    have hsplit := List.takeWhile_append_dropWhile (l := acct.postings.flat)
      (p := fun entry : PostingEntry => decide (entry.at' ≤ time))
    rw [hupto] at hsplit
    rw [hidx, if_neg hlen.ne', PostingIndex.get_eq, ← hsplit,
      List.getElem?_append_left (by omega), List.getLast?_eq_getElem?]

/-- The balance is the one behind the events up to the instant. -/
theorem AccountState.Tells.balance_eq {acct : AccountState} {key : String}
    {events : List WireEvent} (htells : acct.Tells key events)
    (htimes : events.Pairwise fun left right => left.at' ≤ right.at') (asOf : Option Int) :
    (acct.balance asOf).minor =
      effective (signedSum (accountPostings key (committedBy asOf events)))
        acct.cfg.normalSide := by
  cases asOf with
  | none =>
      rw [AccountState.balance, htells.rawBalance]
      rfl
  | some time =>
      rw [AccountState.balance, htells.entryAt htimes]
      cases hlast : (historyFrom key 0 (committedBy (some time) events)).getLast? with
      | none =>
          rw [historyFrom_eq_nil.1 (List.getLast?_eq_none_iff.1 hlast)]
          unfold effective
          cases acct.cfg.normalSide with
          | none => rfl
          | some side => cases side <;> rfl
      | some last =>
          dsimp only
          rw [rawAfter_getLast_historyFrom hlast, Int.zero_add]

/-! ## Compared balances -/

namespace BookState

/-- The projected balance that validation compares with the minimum of an
account, if it gets there and the account has one. -/
def wouldBe (state : BookState) (tx : Transaction) (scratch : Scratch) (key : String) :
    Option Int :=
  match tx.postings.forM state.checkPosting with
  | .error _ => none
  | .ok () =>
      match tx.postings.foldlM (projectPosting (tx.postings.foldl state.seedPosting scratch)) ∅ with
      | .error _ => none
      | .ok projected =>
          match state.accounts.lookup key, projected.lookup key with
          | some acct, some raw => acct.cfg.minBalance.map fun _ => effective raw acct.cfg.normalSide
          | _, _ => none

/-- Compare a balance with the minimum of the account under `key`. -/
def compareMin (state : BookState) (key : String) (value : Option Int) :
    Except StoreError Unit :=
  match state.accounts.lookup key, value with
  | some acct, some wouldBe =>
      match acct.cfg.minBalance with
      | none => .ok ()
      | some minBalance =>
          if wouldBe < minBalance then
            .error (.constraintViolation acct.account.id minBalance wouldBe)
          else .ok ()
  | _, _ => .ok ()

/-- These are the balances a verdict depends on. -/
theorem validate_eq_compareMin {state : BookState} {tx : Transaction} {scratch : Scratch}
    (hopen : tx.book.isReserved = false) (hchecks : tx.postings.forM state.checkPosting = .ok ())
    {projected : HashMap String Int}
    (hproject : tx.postings.foldlM
      (projectPosting (tx.postings.foldl state.seedPosting scratch)) ∅ = .ok projected) :
    (state.validate tx scratch).1 = tx.postings.forM fun posting =>
      state.compareMin posting.account.toKey
        (state.wouldBe tx scratch posting.account.toKey) := by
  have hcompare : (fun posting : Posting =>
      state.checkMinBalance projected posting.account.toKey) = fun posting =>
        state.compareMin posting.account.toKey
          (state.wouldBe tx scratch posting.account.toKey) := by
    funext posting
    rw [wouldBe, hchecks]
    dsimp only
    rw [hproject]
    dsimp only
    unfold checkMinBalance compareMin
    cases hacct : state.accounts.lookup posting.account.toKey with
    | none => rfl
    | some acct =>
        cases projected.lookup posting.account.toKey with
        | none => rfl
        | some raw =>
            dsimp only
            cases hmin : acct.cfg.minBalance with
            | none => rfl
            | some minBalance =>
                dsimp only [Option.map_some]
                rw [hmin]
  rw [validate, hopen, if_neg Bool.false_ne_true, hchecks]
  dsimp only
  rw [hproject]
  dsimp only
  rw [hcompare]

end BookState

/-- What is compared is the sum of the committed postings, of those the batch
has accepted before, and of the transaction's own. -/
theorem BookState.Tells.wouldBe_eq {state : BookState} {events : List WireEvent}
    (htells : state.Tells events) {resolved : HashMap String CommittedRec} {startNow : Int}
    {jobs : List (Job × Int)} {batch : Classified}
    (hbatch : classify state resolved startNow jobs = .ok batch) {tx : Transaction}
    {posting : Posting} (hposting : posting ∈ tx.postings) {value : Int}
    (hvalue : state.wouldBe tx batch.scratch posting.account.toKey = some value) :
    ∃ acct, state.accounts.lookup posting.account.toKey = some acct ∧
      let raw := signedSum (accountPostings posting.account.toKey (events ++ batch.wires) ++
        postingsOn posting.account.toKey tx.postings)
      I64.InRange raw ∧ value = effective raw acct.cfg.normalSide := by
  have hcovers : (Admission.accepted fun _ => True).Covers state jobs :=
    Admission.covers_accepted (fun _ _ _ => trivial) state
  obtain ⟨applied, hadm⟩ := Classified.admitted_classify hcovers hbatch
  have happlied := htells.replay hadm.admits hadm.replays
  rw [Classified.map_fst_items] at happlied
  unfold BookState.wouldBe at hvalue
  cases hchecks : tx.postings.forM state.checkPosting with
  | error err => simp [hchecks] at hvalue
  | ok _ =>
      have hknown := fun other hother =>
        BookState.known_of_checkPosting (Except.forM_eq_ok.1 hchecks other hother)
      have hover := hadm.overlay.seedPostings hknown
      have hproj : BookState.Projects tx.postings
          (tx.postings.foldl state.seedPosting batch.scratch).raw ∅ applied := by
        intro other hother
        have hmember : other.account.toKey ∈
            (tx.postings.foldl state.seedPosting batch.scratch).raw :=
          BookState.mem_foldl_seedPosting (Or.inr ⟨other, hother, rfl⟩)
        obtain ⟨seeded, hseeded⟩ := Finmap.mem_iff.1 hmember
        obtain ⟨acct, hacct, hraw⟩ := hover.tracked _ _ hseeded
        refine ⟨acct, hacct, ?_⟩
        rw [hseeded, hraw]
        rfl
      have hfold := hproj.foldlM (fun _ h => h) tx 0 0
      rw [hchecks] at hvalue
      dsimp only at hvalue
      cases hproject : tx.postings.foldlM
          (BookState.projectPosting (tx.postings.foldl state.seedPosting batch.scratch)) ∅ with
      | error err => simp [hproject] at hvalue
      | ok projected =>
          rw [hproject] at hvalue hfold
          obtain ⟨next, hnext, hproj', hmem⟩ := hfold
          obtain ⟨raw, hraw⟩ := Finmap.mem_iff.1 (hmem posting (Or.inl hposting))
          obtain ⟨acct, hacct⟩ := Finmap.mem_iff.1 (hknown posting hposting)
          dsimp only at hvalue
          rw [hacct, hraw] at hvalue
          obtain ⟨minBalance, -, rfl⟩ := Option.map_eq_some_iff.1 hvalue
          -- the projection is the balance of the account once the transaction is applied
          obtain ⟨before, hbefore, -⟩ := hadm.overlay.kept _ acct hacct
          obtain ⟨after, hafter, hmoved, hrange⟩ :=
            BookState.applyPostings_moved hnext hbefore
          obtain ⟨after', hafter', hsame⟩ := hproj' posting hposting
          rw [hafter, Option.some.injEq] at hafter'
          rw [hraw, Option.getD_some, ← hafter'] at hsame
          have hbalance := happlied.known _ before hbefore
          have hsum : raw = signedSum (accountPostings posting.account.toKey
              (events ++ batch.wires) ++ postingsOn posting.account.toKey tx.postings) := by
            rw [hsame, hmoved.rawBalance, hbalance.rawBalance, signedSum_append]
            rfl
          refine ⟨acct, hacct, ?_⟩
          dsimp only
          rw [← hsum]
          exact ⟨hsame ▸ hrange hbalance.inRange, rfl⟩

/-- At every moment of a book, what `balance` reports of an account, now or as
of an instant, and what validation compares with its minimum, in any batch, is
the adjusted sum of the account's postings exactly when that sum is not the
least `i64` of a credit-normal account. -/
theorem balances_exact_iff (rt : Runtime) (look : BookLook)
    {seen : BookHandle × List WireEvent} (hview : look.view rt = some seen) :
    (∀ key acct, seen.1.state.accounts.lookup key = some acct → ∀ asOf,
      let raw := signedSum (accountPostings key (committedBy asOf seen.2))
      (acct.balance asOf).minor = adjusted raw acct.cfg.normalSide ↔
        Negatable raw acct.cfg.normalSide) ∧
      ∀ resolved startNow jobs batch,
        classify seen.1.state resolved startNow jobs = .ok batch →
        ∀ tx, ∀ posting ∈ tx.postings, ∀ value,
          seen.1.state.wouldBe tx batch.scratch posting.account.toKey = some value →
          ∃ acct, seen.1.state.accounts.lookup posting.account.toKey = some acct ∧
            let raw := signedSum (accountPostings posting.account.toKey (seen.2 ++ batch.wires) ++
              postingsOn posting.account.toKey tx.postings)
            (value = adjusted raw acct.cfg.normalSide ↔ Negatable raw acct.cfg.normalSide) := by
  have htold := BookLook.told_view hview
  constructor
  · intro key acct hacct asOf
    dsimp only
    rw [(htold.tells.known key acct hacct).balance_eq htold.times asOf]
    obtain ⟨state, hstate⟩ := htold.earlier _ (committedBy_isPrefix htold.times asOf)
    exact effective_eq_adjusted_iff (hstate.inRange key) _
  · intro resolved startNow jobs batch hbatch tx posting hposting value hvalue
    obtain ⟨acct, hacct, hrange, rfl⟩ := htold.tells.wouldBe_eq hbatch hposting hvalue
    exact ⟨acct, hacct, effective_eq_adjusted_iff hrange _⟩

namespace LeastBalance

theorem inRange_max : I64.InRange 9223372036854775807 := by
  decide

theorem inRange_one : I64.InRange 1 := by
  decide

/-- A sale that credits the revenue of the book. -/
def sale (idempotencyKey cash : String) (amount : Service.WireAmount) :
    Service.TransactionDraft where
  book := "main"
  idempotencyKey := idempotencyKey
  postings := [⟨cash, amount, .debit⟩, ⟨"revenue", amount, .credit⟩]
  externalRefs := []
  metadata := "null"
  occurredAt := none

def revenue : AccountId :=
  ⟨⟨"main"⟩, "revenue"⟩

def openAccounts : List (Job × Int) :=
  [(.openAccount ⟨⟨⟨"main"⟩, "till"⟩, ⟨"EUR"⟩, .asset⟩ ⟨some .debit, none⟩, 1),
    (.openAccount ⟨⟨⟨"main"⟩, "bank"⟩, ⟨"EUR"⟩, .asset⟩ ⟨some .debit, none⟩, 1),
    (.openAccount ⟨revenue, ⟨"EUR"⟩, .income⟩ ⟨some .credit, none⟩, 1)]

/-- Two sales, one of the largest amount and one of a single unit. -/
def sales : List (Job × Int) :=
  [(.commit ((sale "first" "till" ⟨9223372036854775807, "EUR", inRange_max⟩).transaction
      ⟨1⟩ 2), 2),
    (.commit ((sale "second" "bank" ⟨1, "EUR", inRange_one⟩).transaction ⟨2⟩ 2), 2)]

def look : BookLook :=
  ⟨Payment.opts, .ok, .interrupted [.batch ⟨1, openAccounts, .ok, .ok⟩, .batch ⟨2, sales, .ok, .ok⟩],
    [], 0, 0, le_rfl⟩

def seen : BookHandle × List WireEvent :=
  (look.view largeRuntime).get (by decide +kernel)

theorem view_eq : look.view largeRuntime = some seen :=
  (Option.some_get _).symm

def account : AccountState :=
  (seen.1.state.accounts.lookup revenue.toKey).get (by decide +kernel)

end LeastBalance

theorem balances_exact_iff_sales :
    let raw := signedSum (accountPostings LeastBalance.revenue.toKey
      (committedBy (some 1) LeastBalance.seen.2))
    (LeastBalance.account.balance (some 1)).minor =
        adjusted raw LeastBalance.account.cfg.normalSide ↔
      Negatable raw LeastBalance.account.cfg.normalSide :=
  (balances_exact_iff largeRuntime LeastBalance.look LeastBalance.view_eq).1 _
    LeastBalance.account (Option.some_get _).symm (some 1)

/-- Two sales that pass every check lead to a balance with the wrong sign. -/
theorem balance_wraps :
    LeastBalance.look.view largeRuntime = some LeastBalance.seen ∧
      LeastBalance.seen.1.state.accounts.lookup LeastBalance.revenue.toKey =
        some LeastBalance.account ∧
      (LeastBalance.account.balance none).minor = -9223372036854775808 ∧
      adjusted (signedSum (accountPostings LeastBalance.revenue.toKey LeastBalance.seen.2))
        LeastBalance.account.cfg.normalSide = 9223372036854775808 := by
  refine ⟨LeastBalance.view_eq, (Option.some_get _).symm, ?_, ?_⟩
  · decide +kernel
  · decide +kernel

end Talea.Log
