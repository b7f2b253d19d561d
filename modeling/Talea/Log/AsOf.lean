import Talea.Log.Balances

/-!
# Reads as of an instant

A balance as of an instant comes from a search in the account's own entries, a
trial balance as of an instant from a scan of the files.  Both return what a
replay of the committed events up to the instant gives; from the time of the
last event on they return what the reads without an instant do, which take the
running balance and the running sums.
-/

namespace Talea.Log

variable {rt : Runtime}

/-! ## The events of an account -/

/-- The postings of events on an account. -/
def ownPostings (account : AccountId) (events : List WireEvent) : List Posting :=
  (postingsOf events).filter fun posting => posting.account = account

/-- The seq of the last event with a posting on an account, 0 without one. -/
def lastSeqOn (account : AccountId) (events : List WireEvent) : Int :=
  ((events.filter fun wire => ownPostings account [wire] ≠ []).getLast?.map WireEvent.seq).getD 0

theorem ownPostings_eq (account : AccountId) (events : List WireEvent) :
    ownPostings account events = accountPostings account.toKey events := by
  unfold ownPostings accountPostings postingsOn
  refine List.filter_congr fun posting _ => ?_
  simp only [AccountId.toKey_injective.eq_iff]

/-- The last entry of a history is one of the last event with a posting. -/
theorem getLast?_historyFrom (account : AccountId) (events : List WireEvent) :
    (historyFrom account.toKey 0 events).getLast?.map PostingEntry.seq =
      (events.filter fun wire => ownPostings account [wire] ≠ []).getLast?.map WireEvent.seq := by
  induction events using List.reverseRecOn with
  | nil => rfl
  | append_singleton events wire ih =>
      obtain ⟨txid, heq⟩ := historyFrom_cons account.toKey wire
      have hnil : ∀ raw, historyFrom account.toKey raw [] = [] := fun _ => rfl
      have hown : ownPostings account [wire] =
          postingsOn account.toKey (LedgerEvent.postings wire.event) := by
        rw [ownPostings_eq, accountPostings_cons, accountPostings_nil, List.append_nil]
      rw [historyFrom_append, heq, hnil, List.append_nil, List.filter_append]
      by_cases hquiet : ownPostings account [wire] = []
      · rw [List.filter_cons_of_neg (by simpa using hquiet), List.filter_nil, List.append_nil,
          ← ih, ← hown, hquiet]
        simp [entriesFrom]
      · rw [List.filter_cons_of_pos (by simpa using hquiet), List.filter_nil,
          List.getLast?_concat]
        have hentries : entriesFrom wire.seq wire.at' txid
            (0 + signedSum (accountPostings account.toKey events))
            (postingsOn account.toKey (LedgerEvent.postings wire.event)) ≠ [] :=
          fun hempty => hquiet (hown.trans (entriesFrom_eq_nil.1 hempty))
        rw [List.getLast?_append_of_ne_nil _ hentries, List.getLast?_eq_some_getLast hentries,
          Option.map_some, Option.map_some,
          (seq_of_mem_entriesFrom (List.getLast_mem hentries)).1]

/-- The balance of an account is the one that its postings up to the instant
leave. -/
theorem AccountState.Tells.balance_asOf {acct : AccountState} {events : List WireEvent}
    (htells : acct.Tells acct.account.id.toKey events)
    (htimes : events.Pairwise fun left right => left.at' ≤ right.at') (asOf : Option Int) :
    acct.balance asOf =
      ⟨effective (signedSum (ownPostings acct.account.id (committedBy asOf events)))
          acct.cfg.normalSide, acct.account.asset,
        lastSeqOn acct.account.id (committedBy asOf events)⟩ := by
  have hminor := htells.balance_eq htimes asOf
  rw [← ownPostings_eq] at hminor
  have hparts : (acct.balance asOf).asset = acct.account.asset ∧
      (acct.balance asOf).updatedSeq = lastSeqOn acct.account.id (committedBy asOf events) := by
    rw [lastSeqOn, ← getLast?_historyFrom]
    cases asOf with
    | none => exact ⟨rfl, htells.flat_eq ▸ htells.updatedSeq⟩
    | some time =>
        rw [AccountState.balance, htells.entryAt htimes]
        cases (historyFrom acct.account.id.toKey 0 (committedBy (some time) events)).getLast? with
        | none => exact ⟨rfl, rfl⟩
        | some last => exact ⟨rfl, rfl⟩
  rw [← hminor, ← hparts.1, ← hparts.2]

/-! ## The trial balance -/

theorem committedBy_of_le {events : List WireEvent} {time : Int}
    (hall : ∀ wire ∈ events, wire.at' ≤ time) : committedBy (some time) events = events :=
  List.filter_eq_self.2 fun wire hwire => by simpa using hall wire hwire

section Timeline

variable {start : ℕ} {shared : ℕ → Shared}

theorem Timeline.times (htimeline : Timeline rt start shared) (time : ℕ) :
    ((shared time).applied rt).Pairwise fun left right => left.at' ≤ right.at' :=
  (htimeline.sound time).valid.times.sublist List.filter_sublist

/-- No applied event is later than the last time of the state. -/
theorem Timeline.at_le_lastAt (htimeline : Timeline rt start shared) (time : ℕ) {last : Int}
    (hlast : (shared time).state.lastAt.getD last ≤ last) :
    ∀ wire ∈ (shared time).applied rt, wire.at' ≤ last := by
  obtain ⟨items, ledger, hitems, hreplay, hsame⟩ := htimeline.state_applied time
  have htimes := htimeline.times time
  rw [← hitems] at htimes ⊢
  intro wire hwire
  have hle := BookState.at_le_lastAt htimes hreplay hwire last
  rw [← (BookState.same_of_forgetIdem hsame).2.1] at hle
  exact hle.trans hlast

/-- The applied events are no more than the watermark counts. -/
theorem Timeline.length_applied (htimeline : Timeline rt start shared) (time : ℕ) :
    (((shared time).applied rt).length : Int) = (shared time).ceiling := by
  obtain ⟨items, ledger, hitems, hreplay, hsame⟩ := htimeline.state_applied time
  have hnumbered : Numbered 1 ((shared time).applied rt) := by
    have hnow : Numbered 1 ((shared time).events rt) := (htimeline.sound time).valid.numbered
    refine hnow.of_isPrefix ?_
    rw [htimeline.applied_eq time hnow List.prefix_rfl, ← hnow.takeWhile_eq_filter]
    exact List.takeWhile_prefix _
  rw [← hitems] at hnumbered ⊢
  rw [Shared.ceiling, (BookState.same_of_forgetIdem hsame).1,
    BookState.nextSeq_of_replay_initial hnumbered hreplay, List.length_map]
  omega

/-- A trial balance is the fold of the applied events up to the instant,
whatever the writer does during the scan. -/
theorem Timeline.trialBalance_eq (htimeline : Timeline rt start shared) (schedule : Schedule)
    (hfits : (shared schedule.ceilingAt).ceiling ≤ usizeMax) (asOf : Option Int) :
    trialBalance rt shared schedule asOf =
      .ok (trialRows ((committedBy asOf ((shared schedule.ceilingAt).applied rt)).foldl
        foldSums ∅)) := by
  cases asOf with
  | none =>
      obtain ⟨items, ledger, hitems, hreplay, hsame⟩ :=
        htimeline.state_applied schedule.ceilingAt
      have hsums := BookState.sums_of_replay hreplay
      rw [trialBalance, (BookState.same_of_forgetIdem hsame).2.2.2.2, hsums, hitems]
      rfl
  | some time =>
      obtain ⟨events, -, hscan, hnumbered, hold, -⟩ := htimeline.scanFrom schedule 1 usizeMax
      have happlied := htimeline.applied_eq schedule.ceilingAt hnumbered
        ((htimeline.grows _ _ schedule.catalog_le).events_isPrefix.trans hold)
      have hcount := htimeline.length_applied schedule.ceilingAt
      have htimes := htimeline.times schedule.ceilingAt
      rw [← hnumbered.takeWhile_eq_filter] at happlied
      have hall : (events.filter fun wire => 1 ≤ wire.seq) = events :=
        List.filter_eq_self.2 fun wire hwire => by simpa using (hnumbered.mem_bounds hwire).1
      have hpart : Partitioned (fun wire : WireEvent => wire.at' ≤ time)
          ((shared schedule.ceilingAt).applied rt) := by
        refine htimes.imp fun {left right} hle hright => ?_
        simp only [decide_eq_true_eq] at hright ⊢
        omega
      have hwanted : (events.takeWhile fun wire =>
          wire.seq ≤ (shared schedule.ceilingAt).ceiling ∧ wire.at' ≤ time) =
            committedBy (some time) ((shared schedule.ceilingAt).applied rt) := by
        rw [committedBy, ← hpart.takeWhile_eq_filter, happlied, List.takeWhile_takeWhile]
        congr 1
        funext wire
        simp [and_comm]
      have hshort : (committedBy (some time) ((shared schedule.ceilingAt).applied rt)).length ≤
          usizeMax := by
        have := (committedBy_isPrefix htimes (some time)).length_le
        omega
      rw [trialBalance, hscan, hall]
      change Except.ok (trialRows (List.foldl foldSums ∅ _)) = _
      rw [← List.take_takeWhile, hwanted, List.take_of_length_le hshort]

end Timeline

/-! ## Reads at every moment of a book -/

/-- What the handles of a book see, from the start of its present writer on. -/
def BookLook.moments (rt : Runtime) (look : BookLook) : Option (ℕ → Shared) :=
  match (look.run rt).status with
  | .stopped _ => none
  | .live writer => some (((look.run rt).serve writer).atTime rt look.turns)

section Moments

variable {look : BookLook} {shared : ℕ → Shared}

theorem BookLook.timeline (hmoments : look.moments rt = some shared) :
    ∃ start, Timeline rt start shared := by
  unfold moments at hmoments
  cases hstatus : (look.run rt).status with
  | stopped disk =>
      rw [hstatus] at hmoments
      cases hmoments
  | live writer =>
      rw [hstatus] at hmoments
      cases hmoments
      exact ⟨_, ((look.runInv rt).serve hstatus).timeline look.turns⟩

/-- A look at any of the moments. -/
theorem BookLook.told_moment (hmoments : look.moments rt = some shared) (time : ℕ) :
    BookHandle.Told ((shared time).applied rt) ⟨(shared time).state, (shared time).read⟩ := by
  have hview : BookLook.view rt { look with stateAt := time, fileAt := time, state_le := le_rfl } =
      some (⟨(shared time).state, (shared time).read⟩, (shared time).applied rt) := by
    unfold moments at hmoments
    unfold view
    change (match (look.run rt).status with
      | .stopped _ => none
      | .live writer => _) = _
    cases hstatus : (look.run rt).status with
    | stopped disk =>
        rw [hstatus] at hmoments
        cases hmoments
    | live writer =>
        rw [hstatus] at hmoments
        cases hmoments
        rfl
  exact BookLook.told_view hview

end Moments

/-- At every moment of every book the balance of an account as of an instant is
the adjusted sum of exactly its postings committed up to then, with the seq of
the last of them, and the trial balance is the fold of exactly the events
committed up to then, whatever is written while the files are read.  From the
time of the last event on both are what the reads without an instant return. -/
theorem asOf_reads_replay (rt : Runtime) (look : BookLook) {shared : ℕ → Shared}
    (hmoments : look.moments rt = some shared) :
    (∀ time account acct, (shared time).state.accounts.lookup (AccountId.toKey account) = some acct →
      ∀ store : StoreView, store.existingBook account.book.name = .ok (some (shared time).state) →
        ∀ instant,
          let events := committedBy (some instant) ((shared time).applied rt)
          balance store account (some instant) =
              .ok ⟨effective (signedSum (ownPostings account events)) acct.cfg.normalSide,
                acct.account.asset, lastSeqOn account events⟩ ∧
            ((shared time).state.lastAt.getD instant ≤ instant →
              balance store account (some instant) = balance store account none)) ∧
      ∀ schedule : Schedule, I64.InRange (shared schedule.ceilingAt).state.nextSeq → ∀ instant,
        let events := committedBy (some instant) ((shared schedule.ceilingAt).applied rt)
        trialBalance rt shared schedule (some instant) =
            .ok (trialRows (events.foldl foldSums ∅)) ∧
          ((shared schedule.ceilingAt).state.lastAt.getD instant ≤ instant →
            trialBalance rt shared schedule (some instant) =
              trialBalance rt shared schedule none) := by
  obtain ⟨start, htimeline⟩ := BookLook.timeline hmoments
  constructor
  · intro time account acct hacct store hstore instant
    have htold := BookLook.told_moment hmoments time
    have htells := htold.tells.known _ acct hacct
    have hid : acct.account.id = account := AccountId.toKey_injective htells.key_eq
    rw [← hid] at htells
    have hread : ∀ asOf, balance store account asOf = .ok (acct.balance asOf) := by
      intro asOf
      rw [balance, StoreView.findAccount, hstore]
      dsimp only
      rw [hacct]
      rfl
    dsimp only
    rw [hread, hread, htells.balance_asOf htold.times, htells.balance_asOf htold.times, hid]
    refine ⟨rfl, fun hlast => ?_⟩
    rw [committedBy_of_le (htimeline.at_le_lastAt time hlast)]
    rfl
  · intro schedule hrange instant
    have hfits : (shared schedule.ceilingAt).ceiling ≤ usizeMax := by
      have hmax := hrange.2
      unfold Shared.ceiling usizeMax
      omega
    refine ⟨htimeline.trialBalance_eq schedule hfits _, fun hlast => ?_⟩
    rw [htimeline.trialBalance_eq schedule hfits, htimeline.trialBalance_eq schedule hfits,
      committedBy_of_le (htimeline.at_le_lastAt _ hlast)]
    rfl

namespace SaleReads

/-- What is seen of a book with two sales. -/
def shared : ℕ → Shared :=
  (LeastBalance.look.moments largeRuntime).get (by decide +kernel)

theorem moments_eq : LeastBalance.look.moments largeRuntime = some shared :=
  (Option.some_get _).symm

def store : StoreView :=
  ⟨false, (∅ : HashMap String BookState).insert "main" (shared 0).state⟩

def account : AccountState :=
  ((shared 0).state.accounts.lookup LeastBalance.revenue.toKey).get (by decide +kernel)

theorem looks_le : (0 : ℕ) ≤ 0 := le_rfl

def schedule : Schedule :=
  ⟨0, 0, fun _ => 0, looks_le, fun _ => looks_le⟩

theorem store_existing :
    store.existingBook LeastBalance.revenue.book.name = .ok (some (shared 0).state) := by
  have hname : validateBookName "main" = true := by decide +kernel
  have hbook : store.books.lookup "main" = some (shared 0).state := Finmap.lookup_insert _
  change (if false then _ else if validateBookName "main" then _ else _) = _
  rw [if_neg Bool.false_ne_true, if_pos hname]
  exact congrArg Except.ok hbook

end SaleReads

theorem asOf_reads_replay_sales :
    balance SaleReads.store LeastBalance.revenue (some 2) =
        balance SaleReads.store LeastBalance.revenue none ∧
      trialBalance largeRuntime SaleReads.shared SaleReads.schedule (some 2) =
        trialBalance largeRuntime SaleReads.shared SaleReads.schedule none := by
  have hreads := asOf_reads_replay largeRuntime LeastBalance.look SaleReads.moments_eq
  have hbalance := hreads.1 0 LeastBalance.revenue SaleReads.account (Option.some_get _).symm
    SaleReads.store SaleReads.store_existing 2
  exact ⟨hbalance.2 (by decide +kernel),
    (hreads.2 SaleReads.schedule (by decide +kernel) 2).2 (by decide +kernel)⟩

end Talea.Log
