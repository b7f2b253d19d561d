import Talea.Log.Answers
import Talea.Log.BinaryRuntime

/-!
# Opening accounts

An open is checked against the committed accounts.  What other jobs of the same
batch have staged is not among them yet, so two opens of one new account in one
batch are both written.  In runs whose batches keep such opens apart, an account
is opened once, and every open is answered by what the account is.
-/

namespace Talea.Log

variable {rt : Runtime}

/-! ## The accounts of a log -/

/-- The account that an event opens, with its configuration. -/
def LedgerEvent.opening : LedgerEvent → Option (AccountDef × AccountCfg)
  | .accountOpened account cfg => some (account, cfg)
  | _ => none

def openings (events : List WireEvent) : List (AccountDef × AccountCfg) :=
  events.filterMap fun ev => LedgerEvent.opening ev.event

@[simp]
theorem openings_append (left right : List WireEvent) :
    openings (left ++ right) = openings left ++ openings right :=
  List.filterMap_append

theorem mem_openings {events : List WireEvent} {account : AccountDef} {cfg : AccountCfg} :
    (account, cfg) ∈ openings events ↔ ∃ ev ∈ events, ev.event = .accountOpened account cfg := by
  simp only [openings, List.mem_filterMap]
  refine exists_congr fun ev => and_congr_right fun _ => ?_
  cases hevent : ev.event <;> simp [LedgerEvent.opening]

/-- The account under a key of the state has this definition and
configuration. -/
def BookState.HasAccount (state : BookState) (key : String) (account : AccountDef)
    (cfg : AccountCfg) : Prop :=
  ∃ acct, state.accounts.lookup key = some acct ∧ acct.account = account ∧ acct.cfg = cfg

theorem BookState.hasAccount_iff {state : BookState} {key : String} {account : AccountDef}
    {cfg : AccountCfg} : state.HasAccount key account cfg ↔
      (state.accounts.lookup key).map (fun acct => (acct.account, acct.cfg)) =
        some (account, cfg) := by
  simp [HasAccount, Option.map_eq_some_iff]

theorem BookState.HasAccount.unique {state : BookState} {key : String}
    {account account' : AccountDef} {cfg cfg' : AccountCfg}
    (hleft : state.HasAccount key account cfg) (hright : state.HasAccount key account' cfg') :
    account = account' ∧ cfg = cfg' := by
  rw [hasAccount_iff] at hleft hright
  simpa using hleft.symm.trans hright

/-- The accounts of the state are the ones the events open. -/
def BookState.AccountsFrom (state : BookState) (events : List WireEvent) : Prop :=
  ∀ key account cfg, state.HasAccount key account cfg ↔
    (account, cfg) ∈ openings events ∧ account.id.toKey = key

/-! ## Logs that open only new accounts -/

/-- An account is opened when the state does not have it. -/
def Admission.opensNew : Admission where
  admits state event := ∀ account cfg, event = .accountOpened account cfg →
    account.id.toKey ∉ state.accounts
  of_accounts haccounts hadmits account cfg hevent := by
    rw [← haccounts]
    exact hadmits account cfg hevent

namespace BookState

variable {state next : BookState} {events : List WireEvent}

/-- An event that opens nothing keeps the accounts. -/
theorem AccountsFrom.sameAccounts (hfrom : state.AccountsFrom events)
    (hsame : state.SameAccounts next) {ev : WireEvent}
    (hnone : LedgerEvent.opening ev.event = none) : next.AccountsFrom (events ++ [ev]) := by
  intro key account cfg
  rw [hasAccount_iff, hsame key, ← hasAccount_iff, hfrom key account cfg, openings_append]
  simp [openings, hnone]

/-- An event that opens a new account adds it. -/
theorem AccountsFrom.opened (hfrom : state.AccountsFrom events) {account : AccountDef}
    {cfg : AccountCfg} (hnew : account.id.toKey ∉ state.accounts) (seq time : Int) :
    (state.applyAccountOpened account cfg seq time).AccountsFrom
      (events ++ [⟨seq, time, .accountOpened account cfg⟩]) := by
  intro key other otherCfg
  have hlast : openings [⟨seq, time, .accountOpened account cfg⟩] = [(account, cfg)] := rfl
  have hold := hfrom key other otherCfg
  rw [hasAccount_iff] at hold ⊢
  rw [openings_append, hlast, List.mem_append, List.mem_singleton, or_and_right, ← hold]
  simp only [applyAccountOpened, if_neg hnew, HashMap.lookup_insert_ite]
  by_cases hkey : key = account.id.toKey
  · have hnone : state.accounts.lookup key = none := by
      rw [hkey]
      exact Finmap.lookup_eq_none.2 hnew
    rw [if_pos hkey, hnone]
    simp only [Option.map_some, AccountState.opened, Option.some.injEq, Option.map_none,
      reduceCtorEq, false_or]
    constructor
    · rintro heq
      cases heq
      exact ⟨rfl, hkey.symm⟩
    · exact fun heq => heq.1.symm
  · rw [if_neg hkey]
    constructor
    · exact Or.inl
    · rintro (hin | ⟨heq, hsame⟩)
      · exact hin
      · cases heq
        exact absurd hsame.symm hkey

theorem AccountsFrom.mem_accounts (hfrom : state.AccountsFrom events) {account : AccountDef}
    {cfg : AccountCfg} (hmem : (account, cfg) ∈ openings events) :
    account.id.toKey ∈ state.accounts := by
  obtain ⟨acct, hacct, -⟩ := (hfrom account.id.toKey account cfg).2 ⟨hmem, rfl⟩
  exact Finmap.mem_of_lookup_eq_some hacct

/-- One event of a log that opens only new accounts. -/
theorem AccountsFrom.applyEvent (hfrom : state.AccountsFrom events)
    (hnodup : ((openings events).map fun opened => opened.1.id).Nodup)
    {item : WireEvent × FramePos} (hadmits : Admission.opensNew.admits state item.1.event)
    (happly : state.applyEvent item = .ok next) :
    next.AccountsFrom (events ++ [item.1]) ∧
      ((openings (events ++ [item.1])).map fun opened => opened.1.id).Nodup := by
  obtain ⟨⟨seq, time, event⟩, pos⟩ := item
  cases event with
  | assetRegistered asset =>
      cases happly
      exact ⟨hfrom.sameAccounts (.refl state) rfl, by simpa [openings, LedgerEvent.opening]⟩
  | accountOpened account cfg =>
      cases happly
      have hnew := hadmits account cfg rfl
      refine ⟨hfrom.opened hnew seq time, ?_⟩
      have hlast : openings [⟨seq, time, .accountOpened account cfg⟩] = [(account, cfg)] := rfl
      rw [openings_append, hlast, List.map_append, List.nodup_append]
      refine ⟨hnodup, by simp, ?_⟩
      rintro id hid other hother rfl
      obtain ⟨⟨earlier, earlierCfg⟩, hmem, rfl⟩ := List.mem_map.1 hid
      have hsame : earlier.id = account.id := by simpa using hother
      exact hnew (hsame ▸ hfrom.mem_accounts hmem)
  | transactionPosted tx =>
      exact ⟨hfrom.sameAccounts (sameAccounts_tryApplyTransaction happly) rfl,
        by simpa [openings, LedgerEvent.opening]⟩

theorem accountsFrom_initial : initial.AccountsFrom [] := by
  intro key account cfg
  simp [HasAccount, openings, initial]

/-- A log that opens only new accounts opens each of them once, and its state
has these accounts. -/
theorem accountsFrom_of_replay {items : List (WireEvent × FramePos)} {final : BookState}
    (hadmits : initial.Admits .opensNew items) (hreplay : initial.replay items = .ok final) :
    final.AccountsFrom (items.map Prod.fst) ∧
      ((openings (items.map Prod.fst)).map fun opened => opened.1.id).Nodup := by
  induction items using List.reverseRecOn generalizing final with
  | nil =>
      cases hreplay
      exact ⟨accountsFrom_initial, List.nodup_nil⟩
  | append_singleton items item ih =>
      obtain ⟨mid, hmid, happly⟩ := replay_concat_eq_ok.1 hreplay
      obtain ⟨hadm, mid', hmid', hrule, -⟩ := admits_append.1 hadmits
      rw [hmid] at hmid'
      cases hmid'
      obtain ⟨hfrom, hnodup⟩ := ih hadm hmid
      rw [List.map_append]
      exact hfrom.applyEvent hnodup hrule happly

end BookState

/-! ## Batches that keep opens apart -/

/-- The key of the account a job opens. -/
def Job.opens : Job → Option String
  | .openAccount account _ => some account.id.toKey
  | _ => none

/-- Accounts that the state does not have are opened by one job each. -/
def BookState.OpensApart (state : BookState) (jobs : List (Job × Int)) : Prop :=
  ((jobs.filterMap fun job => job.1.opens).filter fun key => key ∉ state.accounts).Nodup

instance (state : BookState) (jobs : List (Job × Int)) : Decidable (state.OpensApart jobs) :=
  inferInstanceAs (Decidable (List.Nodup _))

/-- No earlier job opens the account of a job in such a batch. -/
theorem BookState.OpensApart.not_opensBefore {state : BookState} {jobs : List (Job × Int)}
    (hapart : state.OpensApart jobs) {idx : ℕ} {account : AccountDef} {cfg : AccountCfg}
    {now : Int} (hjob : jobs[idx]? = some (.openAccount account cfg, now))
    (hnew : account.id.toKey ∉ state.accounts) : ¬ OpensBefore jobs idx account.id.toKey := by
  rintro ⟨earlier, hlt, other, otherCfg, then', hearlier, hsame⟩
  have hfirst : account.id.toKey ∈ (jobs.take idx).filterMap fun job => job.1.opens := by
    refine List.mem_filterMap.2 ⟨(.openAccount other otherCfg, then'), ?_, congrArg some hsame⟩
    refine List.mem_of_getElem? (i := earlier) ?_
    rw [List.getElem?_take_of_lt hlt, hearlier]
  have hsecond : account.id.toKey ∈ (jobs.drop idx).filterMap fun job => job.1.opens := by
    refine List.mem_filterMap.2 ⟨(.openAccount account cfg, now), ?_, rfl⟩
    refine List.mem_of_getElem? (i := 0) ?_
    rw [List.getElem?_drop, Nat.add_zero, hjob]
  unfold BookState.OpensApart at hapart
  rw [← List.take_append_drop idx jobs, List.filterMap_append, List.filter_append,
    List.nodup_append] at hapart
  exact hapart.2.2 _ (List.mem_filter.2 ⟨hfirst, by simpa using hnew⟩) _
    (List.mem_filter.2 ⟨hsecond, by simpa using hnew⟩) rfl

theorem Admission.covers_opensNew {state : BookState} {jobs : List (Job × Int)}
    (hapart : state.OpensApart jobs) : Admission.opensNew.Covers state jobs where
  commit idx tx now hjob applied hok account cfg hevent := by cases hevent
  openAccount idx account cfg now hjob hnew applied haccounts other otherCfg hevent hin := by
    cases hevent
    rcases haccounts _ hin with hold | hbefore
    · exact hnew hold
    · exact hapart.not_opensBefore hjob hnew hbefore
  registerAsset idx asset now hjob applied account cfg hevent := by cases hevent

/-- The batch of an action keeps opens apart. -/
def Run.OpensApartAt (run : Run) (action : Action) : Prop :=
  match run.status, action.input with
  | .live writer, some input => writer.state.OpensApart input.jobs
  | _, _ => True

/-- The batches of a run keep opens apart, each at the state it meets. -/
def Run.OpensApart (rt : Runtime) : Run → List Action → Prop
  | _, [] => True
  | run, action :: actions =>
      run.OpensApartAt action ∧ (run.step rt action).OpensApart rt actions

instance (run : Run) (action : Action) : Decidable (run.OpensApartAt action) :=
  match hstatus : run.status, hinput : action.input with
  | .live writer, some input => decidable_of_iff (writer.state.OpensApart input.jobs)
      (by rw [Run.OpensApartAt, hstatus, hinput])
  | .live _, none => isTrue (by simp [Run.OpensApartAt, hinput])
  | .stopped _, _ => isTrue (by simp [Run.OpensApartAt, hstatus])

instance Run.decidableOpensApart (rt : Runtime) (run : Run) (actions : List Action) :
    Decidable (run.OpensApart rt actions) :=
  match actions with
  | [] => isTrue trivial
  | action :: actions =>
      haveI := Run.decidableOpensApart rt (run.step rt action) actions
      inferInstanceAs (Decidable (run.OpensApartAt action ∧ _))

/-! ## What opening promises -/

/-- No account is opened twice, and a live state has the accounts as they were
opened. -/
def Run.OpenedOnce (rt : Runtime) (run : Run) : Prop :=
  ((openings (run.events rt)).map fun opened => opened.1.id).Nodup ∧
    match run.status with
    | .stopped _ => True
    | .live writer => writer.state.AccountsFrom (run.events rt)

/-- The answers sent to the job with the given index. -/
def answersTo (sends : List (ℕ × Answer)) (idx : ℕ) : List Answer :=
  (sends.filter fun sent => sent.1 = idx).map Prod.snd

/-- An open of the account as it is has been answered `Ok`; any other open has
been refused, and is not in the log. -/
def OpenAnswered (state : BookState) (events : List WireEvent) (account : AccountDef)
    (cfg : AccountCfg) (answers : List Answer) : Prop :=
  ∃ acct, state.accounts.lookup account.id.toKey = some acct ∧
    if acct.account = account ∧ acct.cfg = cfg then answers = [.done (.ok ())]
    else answers = [.done (.error (.alreadyExists s!"account {account.id.toKey}"))] ∧
      (account, cfg) ∉ openings events

/-- The batch of an action has answered its opens. -/
def Run.AnswersOpens (rt : Runtime) (run : Run) (action : Action) : Prop :=
  match run.status, action with
  | .live writer, .batch input =>
      match writer.batch rt allReadable input with
      | .killed _ => True
      | .done result => ∀ (idx : ℕ) account cfg now,
          input.jobs[idx]? = some (.openAccount account cfg, now) →
          OpenAnswered result.writer.state ((run.step rt action).events rt) account cfg
            (answersTo result.sends idx)
  | _, _ => True

/-- Opening keeps its promises in every state of the run and in every batch. -/
def Run.OpensMet (rt : Runtime) : Run → List Action → Prop
  | run, [] => run.OpenedOnce rt
  | run, action :: actions =>
      run.OpenedOnce rt ∧ run.AnswersOpens rt action ∧ (run.step rt action).OpensMet rt actions

/-! ## Runs -/

variable {run : Run}

theorem RunInv.openedOnce (hinv : RunInv rt run)
    (hadmits : BookState.initial.Admits .opensNew (run.log rt)) : run.OpenedOnce rt := by
  obtain ⟨ledger, hledger⟩ := hinv.logValid.replays
  obtain ⟨hfrom, hnodup⟩ := BookState.accountsFrom_of_replay hadmits hledger
  refine ⟨hnodup, ?_⟩
  have hbook := hinv.book
  cases hstatus : run.status with
  | stopped disk => trivial
  | live writer =>
      rw [hstatus] at hbook
      obtain ⟨ledger', hledger', hsame⟩ := WriterInv.ledger hbook
      have hlog : run.log rt = logEvents rt writer.segments.files := by
        rw [Run.log, hstatus]
        rfl
      rw [hlog, hledger'] at hledger
      cases hledger
      intro key account cfg
      rw [BookState.HasAccount, (BookState.same_of_forgetIdem hsame).2.2.1]
      exact hfrom key account cfg

/-- The answers of a batch to its opens. -/
theorem RunInv.answersOpens (hinv : RunInv rt run) (hbefore : run.OpenedOnce rt)
    (action : Action) (hafter : (run.step rt action).OpenedOnce rt) :
    run.AnswersOpens rt action := by
  have hgrows := (hinv.step action).2
  unfold Run.AnswersOpens
  cases action with
  | failStop input point => cases run.status <;> trivial
  | land idx io => cases run.status <;> trivial
  | reopen opts io => cases run.status <;> trivial
  | batch input =>
  cases hstatus : run.status with
  | stopped disk => trivial
  | live writer =>
      have hwriter : WriterInv rt writer run.boundaries := by
        have hbook := hinv.book
        rwa [hstatus] at hbook
      dsimp only
      cases hbatch : writer.batch rt allReadable input with
      | killed left => trivial
      | done result =>
          have hlive : (run.step rt (.batch input)).status = .live result.writer := by
            simp [Run.step, Run.batch, hstatus, hbatch]
          have hevents : (run.step rt (.batch input)).events rt =
              run.events rt ++ writer.stagedWires rt input := by
            have hwires := hwriter.batch_wires input
            rw [hbatch] at hwires
            rw [Run.events, Run.log, hlive, Run.events, Run.log, hstatus]
            exact hwires
          have hold : writer.state.AccountsFrom (run.events rt) := by
            have h := hbefore.2
            rwa [hstatus] at h
          have hnew : result.writer.state.AccountsFrom
              ((run.step rt (.batch input)).events rt) := by
            have h := hafter.2
            rwa [hlive] at h
          obtain ⟨placed, snapResult, hplaced, hanswers⟩ := hwriter.batch_answers hbatch
          intro idx account cfg now hjob
          obtain ⟨answer, hfilter, hanswer⟩ := hanswers idx _ now hjob
          have hsent : answersTo result.sends idx = [answer] := by
            rw [answersTo, hfilter]
            rfl
          rw [hsent]
          have hkept : ∀ existing, writer.state.accounts.lookup account.id.toKey = some existing →
              result.writer.state.HasAccount account.id.toKey existing.account existing.cfg := by
            intro existing hexisting
            obtain ⟨hmem, hkey⟩ := (hold _ _ _).1 ⟨existing, hexisting, rfl, rfl⟩
            refine (hnew _ _ _).2 ⟨?_, hkey⟩
            rw [hevents, openings_append]
            exact List.mem_append_left _ hmem
          cases hanswer with
          | openExists hopen hsame =>
              obtain ⟨acct, hacct, haccount, hcfg⟩ := hkept _ hopen
              refine ⟨acct, hacct, ?_⟩
              rw [haccount, hcfg, if_pos hsame]
          | openConflict hopen hdiffer =>
              have hhas := hkept _ hopen
              obtain ⟨acct, hacct, haccount, hcfg⟩ := hhas
              refine ⟨acct, hacct, ?_⟩
              rw [haccount, hcfg, if_neg hdiffer]
              refine ⟨rfl, fun hmem => hdiffer ?_⟩
              exact (hkept _ hopen).unique ((hnew _ _ _).2 ⟨hmem, rfl⟩)
          | @opened _ _ entry hopen hentry hidx hevent =>
              have hmem : (account, cfg) ∈
                  openings ((run.step rt (.batch input)).events rt) := by
                rw [hevents, openings_append, ← hplaced]
                refine List.mem_append_right _ (mem_openings.2 ⟨entry.wire, ?_, hevent⟩)
                exact List.mem_map_of_mem hentry
              obtain ⟨acct, hacct, haccount, hcfg⟩ := (hnew _ _ _).2 ⟨hmem, rfl⟩
              refine ⟨acct, hacct, ?_⟩
              rw [if_pos ⟨haccount, hcfg⟩]

theorem RunInv.opensMet (hinv : RunInv rt run)
    (hadmits : BookState.initial.Admits .opensNew (run.log rt)) {actions : List Action}
    (hapart : run.OpensApart rt actions) : run.OpensMet rt actions := by
  induction actions generalizing run with
  | nil => exact hinv.openedOnce hadmits
  | cons action actions ih =>
      obtain ⟨hhere, hlater⟩ := hapart
      have hcovers : run.CoversAction .opensNew action := by
        intro writer input hstatus hinput
        rw [Run.OpensApartAt, hstatus, hinput] at hhere
        exact Admission.covers_opensNew hhere
      have hbefore := hinv.openedOnce hadmits
      have hnext := (hinv.step action).1
      have hadmitsNext := hinv.admits_step hadmits hcovers
      exact ⟨hbefore, hinv.answersOpens hbefore action (hnext.openedOnce hadmitsNext),
        ih hnext hadmitsNext hlater⟩

/-- In every run whose batches keep opens of new accounts apart, opening keeps
its promises. -/
theorem opens_met (rt : Runtime) (opts : LogStoreOptions) (io : SpillIo) (actions : List Action)
    (hapart : (Run.create rt opts io).OpensApart rt actions) :
    (Run.create rt opts io).OpensMet rt actions := by
  refine (RunInv.create rt opts io).opensMet ?_ hapart
  obtain ⟨writer, hlive, -, hempty, -⟩ := Run.status_create rt opts io
  rw [Run.log, hlive]
  change BookState.initial.Admits .opensNew (logEvents rt writer.segments.files)
  rw [hempty]
  trivial

/-! ## Opens that meet in a batch -/

namespace OpensMeeting

def cash : AccountDef :=
  ⟨⟨⟨"main"⟩, "cash"⟩, ⟨"EUR"⟩, .asset⟩

def opts : LogStoreOptions :=
  ⟨4, 0, defaultSegmentMax⟩

/-- Opening the account with a minimum of zero, and without a minimum. -/
def bounded : Job × Int :=
  (.openAccount cash ⟨none, some 0⟩, 1)

def unbounded : Job × Int :=
  (.openAccount cash ⟨none, none⟩, 1)

/-- Both opens in one batch. -/
def together : List Action :=
  [.batch ⟨1, [bounded, unbounded], .ok, .ok⟩]

/-- One batch for each. -/
def apart : List Action :=
  [.batch ⟨1, [bounded], .ok, .ok⟩, .batch ⟨2, [unbounded, bounded], .ok, .ok⟩]

end OpensMeeting

set_option maxRecDepth 20000 in
theorem opens_met_apart :
    (Run.create binaryRuntime OpensMeeting.opts .ok).OpensMet binaryRuntime OpensMeeting.apart :=
  opens_met binaryRuntime OpensMeeting.opts .ok OpensMeeting.apart (by decide +kernel)

set_option maxRecDepth 20000 in
/-- Not in every run: two opens of a new account in one batch are both
written. -/
theorem not_opens_met : ¬ ∀ (rt : Runtime) (opts : LogStoreOptions) (io : SpillIo)
    (actions : List Action), (Run.create rt opts io).OpensMet rt actions := by
  intro hmet
  have hlast : ∀ (run : Run) actions, run.OpensMet binaryRuntime actions →
      (actions.foldl (Run.step binaryRuntime) run).OpenedOnce binaryRuntime := by
    intro run actions hrun
    induction actions generalizing run with
    | nil => exact hrun
    | cons action actions ih => exact ih _ hrun.2.2
  have honce := (hlast _ _ (hmet binaryRuntime OpensMeeting.opts .ok OpensMeeting.together)).1
  have htwice : ¬ ((openings ((Run.exec binaryRuntime OpensMeeting.opts .ok
      OpensMeeting.together).events binaryRuntime)).map fun opened => opened.1.id).Nodup := by
    decide +kernel
  exact htwice honce

end Talea.Log
