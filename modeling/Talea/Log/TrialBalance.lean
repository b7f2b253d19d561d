import Talea.Log.BinaryRuntime
import Talea.Log.History
import Talea.Log.Readers
import Talea.Service.Post

/-!
# The trial balance

Debits and credits by asset, from the sums in memory or, as of an instant, from
a scan of the log.  When the drafts come from the service both sides agree in
every row, at every moment and for every instant, and the balances of the
accounts of an asset add up to zero.
-/

namespace Talea.Log

variable {rt : Runtime}

structure TrialBalanceRow where
  asset : AssetId
  debits : Int
  credits : Int
  deriving DecidableEq

/-- One row for each asset, ordered by the ids of the assets. -/
def trialRows (sums : HashMap AssetId (Int × Int)) : List TrialBalanceRow :=
  sums.sorted.map fun (asset, debits, credits) => ⟨asset, debits, credits⟩

/-- Add the postings of an event to the sums. -/
def foldSums (sums : HashMap AssetId (Int × Int)) (wire : WireEvent) :
    HashMap AssetId (Int × Int) :=
  match wire.event with
  | .transactionPosted tx => tx.postings.foldl BookState.addSums sums
  | _ => sums

def usizeMax : ℕ := 18446744073709551615

/-- Trial balance: the lifetime sums, or those of the events committed up to an
instant, read from the files below the watermark. -/
def trialBalance (rt : Runtime) (shared : ℕ → Shared) (schedule : Schedule)
    (asOf : Option Int) : Except ScanError (List TrialBalanceRow) :=
  match asOf with
  | none => .ok (trialRows (shared schedule.ceilingAt).state.sums)
  | some time =>
      let ceiling := (shared schedule.ceilingAt).ceiling
      (scanFrom rt shared schedule 1 usizeMax).map fun events =>
        trialRows ((events.takeWhile fun wire => wire.seq ≤ ceiling ∧ wire.at' ≤ time).foldl
          foldSums ∅)

/-! ## Saturating sums -/

/-- The postings of an event. -/
def LedgerEvent.postings : LedgerEvent → List Posting
  | .transactionPosted tx => tx.postings
  | _ => []

/-- The postings of a list of events. -/
def postingsOf (events : List WireEvent) : List Posting :=
  events.flatMap fun wire => LedgerEvent.postings wire.event

theorem postingsOf_cons (wire : WireEvent) (events : List WireEvent) :
    postingsOf (wire :: events) = LedgerEvent.postings wire.event ++ postingsOf events :=
  List.flatMap_cons

/-- The sums are those of the postings, saturated. -/
def SumsOf (sums : HashMap AssetId (Int × Int)) (postings : List Posting) : Prop :=
  ∀ asset, (sums.lookup asset).getD (0, 0) =
    (I64.saturated (sideTotal .debit asset postings),
      I64.saturated (sideTotal .credit asset postings))

theorem SumsOf.addSums {sums : HashMap AssetId (Int × Int)} {postings : List Posting}
    (hsums : SumsOf sums postings) (hpostings : ∀ posting ∈ postings, 0 < posting.amount.minor)
    {posting : Posting} (hposting : 0 < posting.amount.minor) :
    SumsOf (BookState.addSums sums posting) (postings ++ [posting]) := by
  intro asset
  have htotal : ∀ direction, 0 ≤ sideTotal direction asset postings := fun direction =>
    sideTotal_nonneg direction asset fun other hother => (hpostings other hother).le
  unfold BookState.addSums
  rw [hsums posting.amount.asset]
  dsimp only
  rw [HashMap.lookup_insert_ite, sideTotal_append, sideTotal_append]
  simp only [sideTotal_cons, sideTotal_nil, add_zero]
  by_cases hasset : asset = posting.amount.asset
  · subst hasset
    rw [if_pos rfl, Option.getD_some]
    cases hdirection : posting.direction <;>
      simp [Posting.onSide, hdirection, I64.saturatingAdd_saturated (htotal _) hposting.le]
  · rw [if_neg hasset, hsums asset]
    simp [Posting.onSide_of_ne (Ne.symm hasset)]

theorem SumsOf.foldl {sums : HashMap AssetId (Int × Int)} {postings more : List Posting}
    (hsums : SumsOf sums postings) (hpostings : ∀ posting ∈ postings, 0 < posting.amount.minor)
    (hmore : ∀ posting ∈ more, 0 < posting.amount.minor) :
    SumsOf (more.foldl BookState.addSums sums) (postings ++ more) := by
  induction more generalizing sums postings with
  | nil => simpa using hsums
  | cons posting more ih =>
      obtain ⟨hhead, htail⟩ := List.forall_mem_cons.1 hmore
      have hstep := ih (hsums.addSums hpostings hhead)
        (List.forall_mem_append.2 ⟨hpostings, by simpa using hhead⟩) htail
      simpa using hstep

theorem sumsOf_foldl {postings : List Posting}
    (hpostings : ∀ posting ∈ postings, 0 < posting.amount.minor) :
    SumsOf (postings.foldl BookState.addSums ∅) postings := by
  have hempty : SumsOf ∅ [] := fun _ => rfl
  exact hempty.foldl (List.forall_mem_nil _) hpostings

theorem foldl_foldSums (events : List WireEvent) (sums : HashMap AssetId (Int × Int)) :
    events.foldl foldSums sums = (postingsOf events).foldl BookState.addSums sums := by
  induction events generalizing sums with
  | nil => rfl
  | cons wire events ih =>
      rw [List.foldl_cons, ih, postingsOf_cons, List.foldl_append]
      congr 1
      unfold foldSums LedgerEvent.postings
      cases wire.event <;> rfl

/-! ## Events in double entry -/

/-- Every transaction of the events is double entry. -/
def DoubleEntries (events : List WireEvent) : Prop :=
  ∀ wire ∈ events, ∀ tx, wire.event = .transactionPosted tx → tx.DoubleEntry

namespace DoubleEntries

variable {events : List WireEvent}

theorem of_subset {more : List WireEvent} (hmore : DoubleEntries more)
    (hsubset : events ⊆ more) : DoubleEntries events :=
  fun wire hwire => hmore wire (hsubset hwire)

theorem positive (hevents : DoubleEntries events) :
    ∀ posting ∈ postingsOf events, 0 < posting.amount.minor := by
  intro posting hposting
  obtain ⟨wire, hwire, hin⟩ := List.mem_flatMap.1 hposting
  unfold LedgerEvent.postings at hin
  cases hevent : wire.event with
  | transactionPosted tx =>
      rw [hevent] at hin
      exact (hevents wire hwire tx hevent).positive posting hin
  | assetRegistered asset => simp [hevent] at hin
  | accountOpened account cfg => simp [hevent] at hin

theorem balanced (hevents : DoubleEntries events) (asset : AssetId) :
    sideTotal .debit asset (postingsOf events) = sideTotal .credit asset (postingsOf events) := by
  induction events with
  | nil => rfl
  | cons wire events ih =>
      have hrest := ih fun other hother => hevents other (List.mem_cons_of_mem _ hother)
      rw [postingsOf_cons, sideTotal_append, sideTotal_append, hrest]
      congr 1
      cases hevent : wire.event with
      | transactionPosted tx =>
          exact (hevents wire List.mem_cons_self tx hevent).balanced asset
      | assetRegistered asset => rfl
      | accountOpened account cfg => rfl

/-- The rows have equal sides, whatever of them is saturated. -/
theorem rows (hevents : DoubleEntries events) {row : TrialBalanceRow}
    (hrow : row ∈ trialRows ((postingsOf events).foldl BookState.addSums ∅)) :
    row.debits = row.credits := by
  obtain ⟨⟨asset, debits, credits⟩, hmem, rfl⟩ := List.mem_map.1 hrow
  have hsums := sumsOf_foldl hevents.positive asset
  rw [HashMap.mem_sorted.1 hmem, Option.getD_some, hevents.balanced asset] at hsums
  exact (congrArg Prod.fst hsums).trans (congrArg Prod.snd hsums).symm

end DoubleEntries

/-! ## Balances of an asset -/

/-- The balances of the accounts that hold an asset, added up. -/
def BookState.rawTotal (state : BookState) (asset : AssetId) : Int :=
  HashMap.total (fun acct : AccountState => if acct.account.asset = asset then acct.rawBalance else 0)
    state.accounts

namespace BookState

variable {state next : BookState} {asset : AssetId}

/-- A posting in the asset of its account moves the total by its signed
amount. -/
theorem rawTotal_applyPosting {tx : Transaction} {seq time : Int} {posting : Posting}
    {acct : AccountState} (hacct : state.accounts.lookup posting.account.toKey = some acct)
    (hasset : posting.amount.asset = acct.account.asset)
    (happly : applyPosting tx seq time state posting = .ok next) :
    next.rawTotal asset = state.rawTotal asset +
      (posting.onSide .debit asset - posting.onSide .credit asset) := by
  rw [applyPosting_of_lookup hacct] at happly
  cases hmove : Direction.move posting.direction acct.rawBalance posting.amount.minor with
  | none => simp [hmove] at happly
  | some raw =>
      rw [hmove] at happly
      cases happly
      obtain ⟨-, rfl⟩ := Direction.move_eq_some.1 hmove
      unfold rawTotal
      rw [HashMap.total_insert_of_lookup _ hacct, Posting.onSide_debit_sub_credit, hasset]
      split
      · rw [Posting.signed]
        ring
      · ring

theorem rawTotal_applyPostings {tx : Transaction} {seq time : Int} (asset : AssetId)
    {postings : List Posting}
    (hknown : ∀ posting ∈ postings, ∃ acct,
      state.accounts.lookup posting.account.toKey = some acct ∧
        posting.amount.asset = acct.account.asset)
    (happly : postings.foldlM (applyPosting tx seq time) state = .ok next) :
    next.rawTotal asset = state.rawTotal asset +
      (sideTotal .debit asset postings - sideTotal .credit asset postings) := by
  induction postings generalizing state with
  | nil =>
      cases happly
      simp
  | cons posting postings ih =>
      rw [List.foldlM_cons, Except.bind_eq_ok] at happly
      obtain ⟨mid, hmid, hrest⟩ := happly
      obtain ⟨⟨acct, hacct, hasset⟩, hlater⟩ := List.forall_mem_cons.1 hknown
      have hsame := sameAccounts_applyPosting hmid
      have hknown' : ∀ other ∈ postings, ∃ acct,
          mid.accounts.lookup other.account.toKey = some acct ∧
            other.amount.asset = acct.account.asset := by
        intro other hother
        obtain ⟨old, hold, hasset⟩ := hlater other hother
        have hkey : other.account.toKey ∈ mid.accounts :=
          (hsame.mem_iff _).2 (Finmap.mem_of_lookup_eq_some hold)
        obtain ⟨after, hafter⟩ := Finmap.mem_iff.1 hkey
        obtain ⟨old', hold', haccount, -⟩ := hsame.lookup_eq_some hafter
        rw [hold] at hold'
        cases hold'
        exact ⟨after, hafter, haccount ▸ hasset⟩
      rw [ih hknown' hrest, rawTotal_applyPosting hacct hasset hmid, sideTotal_cons,
        sideTotal_cons]
      ring

theorem sums_applyPosting {tx : Transaction} {seq time : Int} {posting : Posting}
    (happly : applyPosting tx seq time state posting = .ok next) :
    next.sums = addSums state.sums posting := by
  cases hacct : state.accounts.lookup posting.account.toKey with
  | none =>
      rw [applyPosting, hacct] at happly
      cases happly
      rfl
  | some acct =>
      rw [applyPosting_of_lookup hacct] at happly
      cases hmove : Direction.move posting.direction acct.rawBalance posting.amount.minor with
      | none => simp [hmove] at happly
      | some raw =>
          rw [hmove] at happly
          cases happly
          rfl

theorem sums_applyPostings {tx : Transaction} {seq time : Int} {postings : List Posting}
    (happly : postings.foldlM (applyPosting tx seq time) state = .ok next) :
    next.sums = postings.foldl addSums state.sums := by
  induction postings generalizing state with
  | nil =>
      cases happly
      rfl
  | cons posting postings ih =>
      rw [List.foldlM_cons, Except.bind_eq_ok] at happly
      obtain ⟨mid, hmid, hrest⟩ := happly
      rw [ih hrest, sums_applyPosting hmid, List.foldl_cons]

/-- An event adds its postings to the sums. -/
theorem sums_applyEvent {item : WireEvent × FramePos} (happly : state.applyEvent item = .ok next) :
    next.sums = foldSums state.sums item.1 := by
  obtain ⟨⟨seq, time, event⟩, pos⟩ := item
  cases event with
  | transactionPosted tx =>
      obtain ⟨mid, hmid, rfl⟩ := tryApplyTransaction_eq_ok.1 happly
      have hsums := sums_applyPostings hmid
      exact hsums
  | accountOpened account cfg =>
      cases happly
      rfl
  | assetRegistered asset =>
      cases happly
      rfl

/-- The sums in memory are those that a scan of the log finds. -/
theorem sums_of_replay {items : List (WireEvent × FramePos)}
    (hreplay : state.replay items = .ok next) :
    next.sums = (items.map Prod.fst).foldl foldSums state.sums := by
  induction items generalizing state with
  | nil =>
      cases hreplay
      rfl
  | cons item items ih =>
      rw [replay_cons, Except.bind_eq_ok] at hreplay
      obtain ⟨mid, hmid, hrest⟩ := hreplay
      rw [ih hrest, sums_applyEvent hmid, List.map_cons, List.foldl_cons]

theorem rawTotal_applyAccountOpened (account : AccountDef) (cfg : AccountCfg)
    (seq time : Int) :
    (state.applyAccountOpened account cfg seq time).rawTotal asset = state.rawTotal asset := by
  unfold rawTotal applyAccountOpened
  dsimp only
  split
  · rfl
  · next hnew =>
      rw [HashMap.total_insert_of_notMem _ hnew, add_eq_left]
      split <;> rfl

/-- An event that was accepted leaves the total of an asset alone. -/
theorem rawTotal_applyEvent {item : WireEvent × FramePos}
    (hadmits : (Admission.accepted Transaction.DoubleEntry).admits state item.1.event)
    (happly : state.applyEvent item = .ok next) : next.rawTotal asset = state.rawTotal asset := by
  obtain ⟨⟨seq, time, event⟩, pos⟩ := item
  cases event with
  | transactionPosted tx =>
      obtain ⟨hok, hentry⟩ := hadmits tx rfl
      obtain ⟨-, hknown, -⟩ := (verdict_eq_ok_iff seq time).1 hok
      obtain ⟨mid, hmid, rfl⟩ := tryApplyTransaction_eq_ok.1 happly
      have hmoved := rawTotal_applyPostings asset hknown hmid
      rw [hentry.balanced asset, sub_self, add_zero] at hmoved
      exact hmoved
  | accountOpened account cfg =>
      cases happly
      exact rawTotal_applyAccountOpened account cfg seq time
  | assetRegistered asset =>
      cases happly
      rfl

/-- The accounts of an asset add up to zero behind every log of accepted
double-entry transactions. -/
theorem rawTotal_of_admits {items : List (WireEvent × FramePos)}
    (hadmits : state.Admits (.accepted Transaction.DoubleEntry) items)
    (hreplay : state.replay items = .ok next) : next.rawTotal asset = state.rawTotal asset := by
  induction items generalizing state with
  | nil =>
      cases hreplay
      rfl
  | cons item items ih =>
      obtain ⟨hrule, mid, hmid, hrest⟩ := hadmits
      rw [replay_cons, hmid] at hreplay
      rw [ih hrest hreplay, rawTotal_applyEvent hrule hmid]

theorem Admits.doubleEntries {items : List (WireEvent × FramePos)}
    (hadmits : state.Admits (.accepted Transaction.DoubleEntry) items) :
    DoubleEntries (items.map Prod.fst) := by
  induction items generalizing state with
  | nil => simp [DoubleEntries]
  | cons item items ih =>
      obtain ⟨hrule, mid, -, hrest⟩ := hadmits
      exact List.forall_mem_cons.2 ⟨fun tx htx => (hrule tx htx).2, ih hrest⟩

end BookState

/-! ## What the handles of a writer see is in the log of the run -/

/-- A turn after which the run has the events that its handles have seen. -/
theorem Served.Inv.turn_events {start : ℕ} {served : Served} (hinv : served.Inv rt start)
    (hevents : served.shared.events rt <+: served.run.events rt) (turn : Turn) :
    (served.turn rt turn).shared.events rt <+: (served.turn rt turn).run.events rt := by
  by_cases hnone : served.moments rt turn = []
  · obtain ⟨extra, hextra⟩ := (hinv.run.step turn.action).2
    have hgrown : (served.turn rt turn).run.events rt =
        served.run.events rt ++ extra.map Prod.fst := by
      rw [Served.turn, Run.events, ← hextra, List.map_append]
      rfl
    rw [hgrown, Served.turn, hnone]
    exact hevents.trans (List.prefix_append _ _)
  cases hafter : (served.turn rt turn).run.status with
  | live after =>
      have hshared := (hinv.turn turn).1.shared_eq hafter
      rw [hshared, Run.events, Run.log, hafter]
      exact List.prefix_rfl
  | stopped disk =>
      cases hstatus : served.run.status with
      | stopped disk => exact absurd (by simp [Served.moments, hstatus]) hnone
      | live writer =>
          cases turn with
          | land task io => exact absurd (by simp [Served.moments, hstatus]) hnone
          | fail input point =>
              by_cases hpoint : point < (writer.batchTrace rt allReadable input).length
              · simp [Served.turn, Served.moments, Turn.action, Run.step, Run.failStop, Run.stop,
                  Run.events, Run.log, Shared.events, hstatus, hpoint, Status.disk,
                  List.getLast?_take]
              · exact absurd (by simp [Served.moments, hstatus, hpoint]) hnone
          | batch input =>
              cases hbatch : writer.batch rt allReadable input with
              | done result =>
                  simp [Served.turn, Turn.action, Run.step, Run.batch, hstatus, hbatch] at hafter
              | killed left =>
                  -- the files behind the last moment are the ones the writer leaves
                  have hpath : Path SegmentSet.Extends writer.segments
                      (writer.batchTrace rt allReadable input) left := by
                    have hbatched : Path SegmentSet.Extends writer.segments
                        (writer.batchTrace rt allReadable input)
                        (writer.batch rt allReadable input).segments :=
                      writer.path_batchTrace allReadable input
                    rwa [hbatch] at hbatched
                  have hseen : (served.turn rt (.batch input)).shared.segments =
                      (writer.batchTrace rt allReadable input).getLast?.getD
                        writer.segments := by
                    simp only [Served.turn, Served.moments, hstatus, Writer.moments, hbatch,
                      List.append_nil, List.getLast?_map]
                    cases (writer.batchTrace rt allReadable input).getLast? with
                    | none => exact (hinv.live writer hstatus).1
                    | some segments => rfl
                  have hext : Shared.Extends (served.turn rt (.batch input)).shared
                      ⟨left, (served.turn rt (.batch input)).shared.state,
                        (served.turn rt (.batch input)).shared.sent⟩ :=
                    ⟨hseen ▸ hpath.getLast_rel, le_rfl, List.prefix_rfl⟩
                  have hrun : (served.turn rt (.batch input)).run.events rt =
                      (logEvents rt left.files).map Prod.fst := by
                    simp [Served.turn, Turn.action, Run.step, Run.batch, hstatus, hbatch, Run.stop,
                      Run.events, Run.log, Status.disk]
                  rw [hrun]
                  exact hext.events_isPrefix

theorem Served.run_foldl (served : Served) (turns : List Turn) :
    (turns.foldl (Served.turn rt) served).run =
      (turns.map Turn.action).foldl (Run.step rt) served.run := by
  induction turns generalizing served with
  | nil => rfl
  | cons turn turns ih =>
      rw [List.foldl_cons, ih]
      rfl

/-- At every time the handles see events that the run has in the end. -/
theorem Served.Inv.atTime_events {start : ℕ} {served : Served} (hinv : served.Inv rt start)
    (hevents : served.shared.events rt <+: served.run.events rt) (turns : List Turn) (time : ℕ) :
    (served.atTime rt turns time).events rt <+:
      ((turns.map Turn.action).foldl (Run.step rt) served.run).events rt := by
  have hfinal : ∀ {other : Served}, other.Inv rt start →
      other.shared.events rt <+: other.run.events rt →
      (turns.foldl (Served.turn rt) other).shared.events rt <+:
        (turns.foldl (Served.turn rt) other).run.events rt := by
    induction turns with
    | nil => exact fun _ h => h
    | cons turn turns ih =>
        intro other hother hseen
        exact ih (hother.turn turn).1 (hother.turn_events hseen turn)
  have hlater := (hinv.life turns).1.atTime_rel time
  rw [← Served.run_foldl]
  exact hlater.events_isPrefix.trans (hfinal hinv hevents)

/-- What the moments of a life have in common with the log it leads to. -/
theorem Run.serve_events {run : Run} (hinv : RunInv rt run) {writer : Writer}
    (hlive : run.status = .live writer) (turns : List Turn) (time : ℕ) :
    ((run.serve writer).atTime rt turns time).events rt <+:
      ((turns.map Turn.action).foldl (Run.step rt) run).events rt := by
  refine (hinv.serve hlive).atTime_events ?_ turns time
  rw [Run.events, Run.log, Run.serve, hlive]
  exact List.prefix_rfl

/-! ## Conservation -/

/-- Where the frames of admitted events lie does not matter. -/
theorem BookState.Admits.of_events {rule : Admission} {state : BookState}
    {items whole : List (WireEvent × FramePos)} (hadmits : state.Admits rule whole)
    (hevents : items.map Prod.fst <+: whole.map Prod.fst) : state.Admits rule items := by
  refine (hadmits.of_isPrefix (List.take_prefix items.length whole)).of_accounts rfl ?_
  rw [List.map_take, List.prefix_iff_eq_take.1 hevents, List.length_map]

section Timeline

variable {start : ℕ} {shared : ℕ → Shared} {whole : List (WireEvent × FramePos)}

/-- The state of a moment is behind admitted events. -/
theorem Timeline.admitted (htimeline : Timeline rt start shared) {rule : Admission}
    (hadmits : BookState.initial.Admits rule whole)
    (hseen : ∀ time, (shared time).events rt <+: whole.map Prod.fst) (time : ℕ) :
    ∃ items ledger, BookState.initial.Admits rule items ∧
      BookState.initial.replay items = .ok ledger ∧
      (shared time).state.accounts = ledger.accounts ∧ (shared time).state.sums = ledger.sums := by
  obtain ⟨items, ledger, hitems, hreplay, hsame⟩ := htimeline.state_applied time
  have hnow : Numbered 1 ((shared time).events rt) := (htimeline.sound time).valid.numbered
  have happlied : (shared time).applied rt <+: (shared time).events rt := by
    rw [htimeline.applied_eq time hnow List.prefix_rfl, ← hnow.takeWhile_eq_filter]
    exact List.takeWhile_prefix _
  obtain ⟨-, -, haccounts, -, hsums⟩ := BookState.same_of_forgetIdem hsame
  exact ⟨items, ledger, hadmits.of_events (hitems ▸ happlied.trans (hseen time)), hreplay,
    haccounts, hsums⟩

theorem Timeline.rawTotal_eq_zero (htimeline : Timeline rt start shared)
    (hadmits : BookState.initial.Admits (.accepted Transaction.DoubleEntry) whole)
    (hseen : ∀ time, (shared time).events rt <+: whole.map Prod.fst) (time : ℕ)
    (asset : AssetId) : (shared time).state.rawTotal asset = 0 := by
  obtain ⟨items, ledger, hitems, hreplay, haccounts, -⟩ :=
    htimeline.admitted hadmits hseen time
  have hzero : ledger.rawTotal asset = BookState.initial.rawTotal asset :=
    BookState.rawTotal_of_admits hitems hreplay
  rw [BookState.rawTotal, haccounts]
  exact hzero

/-- Whatever the looks of a reader are, both sides of each row agree. -/
theorem Timeline.trialBalance_balanced (htimeline : Timeline rt start shared)
    (hadmits : BookState.initial.Admits (.accepted Transaction.DoubleEntry) whole)
    (hseen : ∀ time, (shared time).events rt <+: whole.map Prod.fst) (schedule : Schedule)
    (asOf : Option Int) :
    ∃ rows, trialBalance rt shared schedule asOf = .ok rows ∧
      ∀ row ∈ rows, row.debits = row.credits := by
  cases asOf with
  | none =>
      obtain ⟨items, ledger, hitems, hreplay, -, hsums⟩ :=
        htimeline.admitted hadmits hseen schedule.ceilingAt
      refine ⟨_, rfl, fun row hrow => hitems.doubleEntries.rows ?_⟩
      rw [hsums, BookState.sums_of_replay hreplay, foldl_foldSums] at hrow
      exact hrow
  | some time =>
      obtain ⟨events, base, hscan, -, -, hread⟩ := htimeline.scanFrom schedule 1 usizeMax
      unfold trialBalance
      rw [hscan]
      refine ⟨_, rfl, fun row hrow => ?_⟩
      dsimp only at hrow
      rw [foldl_foldSums] at hrow
      refine DoubleEntries.rows (hadmits.doubleEntries.of_subset fun wire hwire => ?_) hrow
      -- an event of the scan is one of the files
      have hscanned := List.mem_of_mem_take ((List.takeWhile_prefix _).subset hwire)
      exact (hread.trans (hseen _)).subset (List.mem_of_mem_filter hscanned)

end Timeline

/-- At every moment of the turns of a run's writer the balances of the accounts
of each asset add up to zero, and a trial balance, of now or as of any instant,
has equal debits and credits in every row. -/
def Run.Conserves (rt : Runtime) (run : Run) (turns : List Turn) : Prop :=
  match run.status with
  | .stopped _ => True
  | .live writer =>
      let shared := (run.serve writer).atTime rt turns
      (∀ time asset, (shared time).state.rawTotal asset = 0) ∧
        ∀ schedule asOf, ∃ rows, trialBalance rt shared schedule asOf = .ok rows ∧
          ∀ row ∈ rows, row.debits = row.credits

/-- Double entry is conserved on the handles of every writer that a run has
started, whatever turns it takes, when every draft has passed the checks of the
service. -/
theorem double_entry_conserved (rt : Runtime) (opts : LogStoreOptions) (io : SpillIo)
    (actions : List Action) (turns : List Turn)
    (hposted : ∀ action ∈ actions ++ turns.map Turn.action, ∀ tx, action.Commits tx →
      ∃ draft id now, Service.transactionOf draft id now = .ok tx) :
    (Run.exec rt opts io actions).Conserves rt turns := by
  unfold Run.Conserves
  cases hstatus : (Run.exec rt opts io actions).status with
  | stopped disk => trivial
  | live writer =>
      have hinv := RunInv.exec rt opts io actions
      have hadmits : BookState.initial.Admits (.accepted Transaction.DoubleEntry)
          ((Run.exec rt opts io (actions ++ turns.map Turn.action)).log rt) := by
        refine Run.accepted_exec rt opts io _ fun action haction tx htx => ?_
        obtain ⟨draft, id, now, hpost⟩ := hposted action haction tx htx
        exact Service.doubleEntry_of_transactionOf hpost
      have hseen := Run.serve_events hinv hstatus turns
      rw [Run.exec, ← List.foldl_append, ← Run.exec] at hseen
      have htimeline := (hinv.serve hstatus).timeline turns
      exact ⟨htimeline.rawTotal_eq_zero hadmits hseen,
        htimeline.trialBalance_balanced hadmits hseen⟩

namespace Payment

def opts : LogStoreOptions :=
  ⟨4, 0, defaultSegmentMax⟩

theorem inRange_five : I64.InRange 5 := by
  decide

/-- Five units of one asset from one account to another. -/
def draft : Service.TransactionDraft where
  book := "main"
  idempotencyKey := "payment"
  postings :=
    [⟨"cash", ⟨5, "EUR", inRange_five⟩, .debit⟩, ⟨"sales", ⟨5, "EUR", inRange_five⟩, .credit⟩]
  externalRefs := []
  metadata := "null"
  occurredAt := none

def account (path : String) : Job × Int :=
  (.openAccount ⟨⟨⟨"main"⟩, path⟩, ⟨"EUR"⟩, .asset⟩ ⟨none, none⟩, 1)

def accounts : List Action :=
  [.batch ⟨1, [account "cash", account "sales"], .ok, .ok⟩]

def payment : List Turn :=
  [.batch ⟨2, [(.commit (draft.transaction ⟨1⟩ 2), 2)], .ok, .ok⟩]

end Payment

theorem double_entry_conserved_payment :
    (Run.exec binaryRuntime Payment.opts .ok Payment.accounts).Conserves binaryRuntime
      Payment.payment := by
  refine double_entry_conserved _ _ _ _ _ fun action haction tx hcommits => ?_
  have hpost : Service.transactionOf Payment.draft ⟨1⟩ 2 =
      .ok (Payment.draft.transaction ⟨1⟩ 2) := by
    decide
  obtain ⟨input, now, hinput, hjob⟩ := hcommits
  rcases List.mem_cons.1 haction with rfl | hturn
  · cases hinput
    simp [Payment.account] at hjob
  · obtain rfl := List.mem_singleton.1 hturn
    cases hinput
    simp only [List.mem_singleton, Prod.mk.injEq, Job.commit.injEq] at hjob
    exact ⟨Payment.draft, ⟨1⟩, 2, hjob.1 ▸ hpost⟩

end Talea.Log
