import Talea.Log.Admission
import Talea.Log.JobSteps
import Talea.Log.RunInvariant

/-!
# Logs of admitted events

An admission rule says which events a state admits.  When the jobs of every
batch are covered by a rule, so is the log of the book, event by event: this is
the induction by which facts about single events become facts about runs.
-/

namespace Talea.Log

variable {rt : Runtime}

/-- Which events a state admits; the rule looks at the accounts only. -/
structure Admission where
  admits : BookState → LedgerEvent → Prop
  of_accounts : ∀ {left right : BookState} {event : LedgerEvent},
    left.accounts = right.accounts → admits left event → admits right event

/-- Every event is admitted by the state the events before it lead to. -/
def BookState.Admits (rule : Admission) : BookState → List (WireEvent × FramePos) → Prop
  | _, [] => True
  | state, item :: items => rule.admits state item.1.event ∧
      ∃ next, state.applyEvent item = .ok next ∧ next.Admits rule items

namespace BookState

variable {rule : Admission}

theorem admits_append {state : BookState} {left right : List (WireEvent × FramePos)} :
    state.Admits rule (left ++ right) ↔
      state.Admits rule left ∧ ∃ mid, state.replay left = .ok mid ∧ mid.Admits rule right := by
  induction left generalizing state with
  | nil => simp [Admits]
  | cons item left ih =>
      simp only [List.cons_append, Admits, ih, replay_cons, Except.bind_eq_ok]
      constructor
      · rintro ⟨hitem, next, happly, hleft, mid, hmid, hright⟩
        exact ⟨⟨hitem, next, happly, hleft⟩, mid, ⟨next, happly, hmid⟩, hright⟩
      · rintro ⟨⟨hitem, next, happly, hleft⟩, mid, ⟨next', happly', hmid⟩, hright⟩
        rw [happly] at happly'
        cases happly'
        exact ⟨hitem, next, happly, hleft, mid, hmid, hright⟩

theorem Admits.of_isPrefix {state : BookState} {items whole : List (WireEvent × FramePos)}
    (hadmits : state.Admits rule whole) (hpre : items <+: whole) : state.Admits rule items := by
  obtain ⟨rest, rfl⟩ := hpre
  exact (admits_append.1 hadmits).1

/-- Balances and configurations move alike in states with the same
accounts. -/
theorem applyPosting_of_accounts {left right next : BookState} {tx : Transaction}
    {seq time : Int} {posting : Posting} (haccounts : left.accounts = right.accounts)
    (happly : applyPosting tx seq time left posting = .ok next) :
    ∃ other, applyPosting tx seq time right posting = .ok other ∧
      next.accounts = other.accounts := by
  unfold applyPosting at happly ⊢
  rw [haccounts] at happly
  cases hacct : right.accounts.lookup posting.account.toKey with
  | none =>
      simp only [hacct] at happly ⊢
      cases happly
      exact ⟨_, rfl, rfl⟩
  | some acct =>
      simp only [hacct] at happly ⊢
      cases hmove : Direction.move posting.direction acct.rawBalance posting.amount.minor with
      | none => simp [hmove] at happly
      | some raw =>
          simp only [hmove] at happly ⊢
          cases happly
          exact ⟨_, rfl, rfl⟩

theorem applyPostings_of_accounts {left right next : BookState} {tx : Transaction}
    {seq time : Int} {postings : List Posting} (haccounts : left.accounts = right.accounts)
    (happly : postings.foldlM (applyPosting tx seq time) left = .ok next) :
    ∃ other, postings.foldlM (applyPosting tx seq time) right = .ok other ∧
      next.accounts = other.accounts := by
  induction postings generalizing left right with
  | nil =>
      cases happly
      exact ⟨right, rfl, haccounts⟩
  | cons posting postings ih =>
      rw [List.foldlM_cons, Except.bind_eq_ok] at happly
      obtain ⟨mid, hmid, hrest⟩ := happly
      obtain ⟨mid', hmid', hsame⟩ := applyPosting_of_accounts haccounts hmid
      obtain ⟨other, hother, hfinal⟩ := ih hsame hrest
      exact ⟨other, by rw [List.foldlM_cons, hmid']; exact hother, hfinal⟩

theorem applyEvent_of_accounts {left right next : BookState} {ev : WireEvent}
    {pos : FramePos} (pos' : FramePos) (haccounts : left.accounts = right.accounts)
    (happly : left.applyEvent (ev, pos) = .ok next) :
    ∃ other, right.applyEvent (ev, pos') = .ok other ∧ next.accounts = other.accounts := by
  obtain ⟨seq, time, event⟩ := ev
  cases event with
  | assetRegistered asset =>
      cases happly
      exact ⟨_, rfl, haccounts⟩
  | accountOpened account cfg =>
      cases happly
      refine ⟨_, rfl, ?_⟩
      simp only [applyAccountOpened, haccounts]
  | transactionPosted tx =>
      obtain ⟨mid, hmid, rfl⟩ := tryApplyTransaction_eq_ok.1 happly
      obtain ⟨mid', hmid', hsame⟩ := applyPostings_of_accounts haccounts hmid
      exact ⟨_, tryApplyTransaction_eq_ok.2 ⟨mid', hmid', rfl⟩, hsame⟩

/-- The same events are admitted by every state with the same accounts,
wherever their frames lie. -/
theorem Admits.of_accounts {left right : BookState} {items items' : List (WireEvent × FramePos)}
    (hadmits : left.Admits rule items) (haccounts : left.accounts = right.accounts)
    (hevents : items.map Prod.fst = items'.map Prod.fst) : right.Admits rule items' := by
  induction items generalizing left right items' with
  | nil =>
      obtain rfl : items' = [] := by simpa using hevents.symm
      trivial
  | cons item items ih =>
      obtain ⟨item', items', rfl⟩ : ∃ item' rest, items' = item' :: rest := by
        cases items' with
        | nil => simp at hevents
        | cons item' rest => exact ⟨item', rest, rfl⟩
      obtain ⟨ev, pos⟩ := item
      obtain ⟨ev', pos'⟩ := item'
      simp only [List.map_cons, List.cons.injEq] at hevents
      obtain ⟨rfl, hrest⟩ := hevents
      obtain ⟨hitem, next, happly, hnext⟩ := hadmits
      obtain ⟨other, hother, hsame⟩ := applyEvent_of_accounts pos' haccounts happly
      exact ⟨rule.of_accounts haccounts hitem, other, hother, ih hnext hsame hrest⟩

/-- Every event of an admitted log was admitted by the state before it. -/
theorem Admits.split {state : BookState} {before after : List (WireEvent × FramePos)}
    {item : WireEvent × FramePos} (hadmits : state.Admits rule (before ++ item :: after)) :
    ∃ mid next, state.replay before = .ok mid ∧ rule.admits mid item.1.event ∧
      mid.applyEvent item = .ok next ∧ state.replay (before ++ [item]) = .ok next := by
  obtain ⟨-, mid, hmid, hitem, next, happly, -⟩ := admits_append.1 hadmits
  exact ⟨mid, next, hmid, hitem, happly, replay_concat_eq_ok.2 ⟨mid, hmid, happly⟩⟩

end BookState

/-- The accounts of a draft that passes are committed ones. -/
theorem BookState.known_of_validate {state : BookState} {tx : Transaction}
    {scratch : Scratch} (hok : (state.validate tx scratch).1 = .ok ()) :
    ∀ posting ∈ tx.postings, posting.account.toKey ∈ state.accounts := by
  unfold BookState.validate at hok
  split at hok
  · simp at hok
  · split at hok
    · simp at hok
    · next hchecked =>
        intro posting hposting
        exact BookState.known_of_checkPosting (Except.forM_eq_ok.1 hchecked posting hposting)

/-! ## One batch -/

/-- An earlier job of the batch opens the account with this key. -/
def OpensBefore (jobs : List (Job × Int)) (idx : ℕ) (key : String) : Prop :=
  ∃ earlier < idx, ∃ account cfg now, jobs[earlier]? = some (.openAccount account cfg, now) ∧
    account.id.toKey = key

theorem OpensBefore.mono {jobs : List (Job × Int)} {idx later : ℕ} {key : String}
    (hopens : OpensBefore jobs idx key) (hle : idx ≤ later) : OpensBefore jobs later key := by
  obtain ⟨earlier, hlt, hjob⟩ := hopens
  exact ⟨earlier, by omega, hjob⟩

/-- The rule admits what the jobs of a batch may stage.  A commit is judged by
the state its predecessors lead to; an account may be opened when the committed
state does not have it. -/
structure Admission.Covers (rule : Admission) (state : BookState) (jobs : List (Job × Int)) :
    Prop where
  commit : ∀ (idx : ℕ) tx now, jobs[idx]? = some (.commit tx, now) → ∀ applied : BookState,
    applied.verdict tx = .ok () → rule.admits applied (.transactionPosted tx)
  openAccount : ∀ (idx : ℕ) account cfg now, jobs[idx]? = some (.openAccount account cfg, now) →
    account.id.toKey ∉ state.accounts → ∀ applied : BookState,
    (∀ key ∈ applied.accounts, key ∈ state.accounts ∨ OpensBefore jobs idx key) →
    rule.admits applied (.accountOpened account cfg)
  registerAsset : ∀ (idx : ℕ) asset now, jobs[idx]? = some (.registerAsset asset, now) →
    ∀ applied, rule.admits applied (.assetRegistered asset)

/-- The classification of the first `idx` jobs, next to the state in which what
they have staged is applied. -/
structure Classified.Admitted (rule : Admission) (state : BookState) (jobs : List (Job × Int))
    (idx : ℕ) (acc : Classified) (applied : BookState) : Prop where
  replays : state.replay acc.items = .ok applied
  overlay : Overlay state applied acc.scratch.raw
  accounts : ∀ key ∈ applied.accounts, key ∈ state.accounts ∨ OpensBefore jobs idx key
  admits : state.Admits rule acc.items

namespace Classified

variable {rule : Admission} {state : BookState} {jobs : List (Job × Int)} {idx : ℕ}
  {acc : Classified} {applied : BookState}

theorem items_stageEvent (acc : Classified) (idx : ℕ) (now : Int) (event : LedgerEvent) :
    (acc.stageEvent idx now event).items =
      acc.items ++ [(⟨acc.seq, max acc.batchAt now, event⟩, (0, 0))] := by
  simp [stageEvent, items]

/-- A step that stages nothing and at most seeds the overlay. -/
theorem Admitted.quiet (hadm : acc.Admitted rule state jobs idx applied) {next : Classified}
    (hitems : next.items = acc.items) (hover : Overlay state applied next.scratch.raw) :
    next.Admitted rule state jobs (idx + 1) applied where
  replays := by
    rw [hitems]
    exact hadm.replays
  overlay := hover
  accounts key hkey := (hadm.accounts key hkey).imp_right fun h => h.mono (Nat.le_succ idx)
  admits := by
    rw [hitems]
    exact hadm.admits

theorem Admitted.stage (hadm : acc.Admitted rule state jobs idx applied) {scratch : Scratch}
    {now : Int} {event : LedgerEvent} {next : BookState}
    (happly : applied.applyEvent (⟨acc.seq, max acc.batchAt now, event⟩, (0, 0)) = .ok next)
    (hrule : rule.admits applied event) (hover : Overlay state next scratch.raw)
    (haccounts : ∀ key ∈ next.accounts, key ∈ state.accounts ∨ OpensBefore jobs (idx + 1) key) :
    (Classified.stageEvent { acc with scratch } idx now event).Admitted rule state jobs (idx + 1)
      next where
  replays := by
    rw [items_stageEvent]
    exact BookState.replay_concat_eq_ok.2 ⟨applied, hadm.replays, happly⟩
  overlay := hover
  accounts := haccounts
  admits := by
    rw [items_stageEvent]
    exact BookState.admits_append.2 ⟨hadm.admits, applied, hadm.replays, hrule, next, happly,
      trivial⟩

/-- One job. -/
theorem Admitted.step (hadm : acc.Admitted rule state jobs idx applied)
    (hcovers : rule.Covers state jobs) {resolved : HashMap String CommittedRec} {job : Job}
    {now : Int} (hjob : jobs[idx]? = some (job, now)) {next : Classified}
    (hstep : JobStep state resolved acc idx now job next) :
    ∃ applied', next.Admitted rule state jobs (idx + 1) applied' := by
  cases hstep with
  | dup hseen => exact ⟨applied, hadm.quiet rfl hadm.overlay⟩
  | dupInBatch hseen hslot => exact ⟨applied, hadm.quiet rfl hadm.overlay⟩
  | reject hseen hnew herr => exact ⟨applied, hadm.quiet rfl (hadm.overlay.validate _)⟩
  | @commit tx scratch hseen hnew hok hstage =>
      have hknown := BookState.known_of_validate hok
      have hverdict : applied.verdict tx = .ok () := by
        rw [← hadm.overlay.verdict_eq fun posting hposting _ => hknown posting hposting, hok]
      obtain ⟨after, happly, hover⟩ := (hadm.overlay.validate tx).tryApplyTransaction hstage
        acc.seq (max acc.batchAt now) (0, 0)
      refine ⟨after, hadm.stage happly (hcovers.commit idx tx now hjob applied hverdict) hover ?_⟩
      intro key hkey
      have hold := ((BookState.sameAccounts_tryApplyTransaction happly).mem_iff key).1 hkey
      exact (hadm.accounts key hold).imp_right fun h => h.mono (Nat.le_succ idx)
  | openExists hopen hsame => exact ⟨applied, hadm.quiet rfl hadm.overlay⟩
  | openConflict hopen hdiffer => exact ⟨applied, hadm.quiet rfl hadm.overlay⟩
  | @openAccount account cfg hnew =>
      have hrule := hcovers.openAccount idx account cfg now hjob
        (Finmap.lookup_eq_none.1 hnew) applied hadm.accounts
      refine ⟨_, hadm.stage rfl hrule (hadm.overlay.accountOpened account cfg _ _) ?_⟩
      intro key hkey
      by_cases hsame : key = account.id.toKey
      · exact Or.inr ⟨idx, Nat.lt_succ_self idx, account, cfg, now, hjob, hsame.symm⟩
      have hold : key ∈ applied.accounts := by
        simp only [BookState.applyAccountOpened] at hkey
        split at hkey
        · exact hkey
        · exact (Finmap.mem_insert.1 hkey).resolve_left hsame
      exact (hadm.accounts key hold).imp_right fun h => h.mono (Nat.le_succ idx)
  | @registerAsset asset =>
      refine ⟨_, hadm.stage rfl (hcovers.registerAsset idx asset now hjob applied)
        (hadm.overlay.of_accounts rfl) fun key hkey => ?_⟩
      exact (hadm.accounts key hkey).imp_right fun h => h.mono (Nat.le_succ idx)
  | snapshot => exact ⟨applied, hadm.quiet rfl hadm.overlay⟩

/-- A whole batch. -/
theorem admitted_classify (hcovers : rule.Covers state jobs)
    {resolved : HashMap String CommittedRec} {startNow : Int} {batch : Classified}
    (hbatch : classify state resolved startNow jobs = .ok batch) :
    ∃ applied, batch.Admitted rule state jobs jobs.length applied := by
  refine classify_invariant
    (fun idx acc => ∃ applied, acc.Admitted rule state jobs idx applied) ?_ ?_ hbatch
  · exact ⟨state, rfl, .refl state, fun key hkey => Or.inl hkey, trivial⟩
  · rintro idx job now acc next hjob ⟨applied, hadm⟩ hstep
    exact hadm.step hcovers hjob hstep

end Classified

/-! ## The events a batch adds -/

/-- The events a batch appends when it runs to its end. -/
def Writer.stagedWires (rt : Runtime) (writer : Writer) (input : BatchInput) :
    List WireEvent :=
  match classify writer.state
      (resolveKeys rt allReadable writer.state.idem writer.runs (input.jobs.map Prod.fst))
      input.startNow input.jobs with
  | .ok batch => batch.wires
  | .error _ => []

section Batch

variable {writer : Writer} {saved : List BookState} {input : BatchInput}

theorem Interrupted.wires {segments left : SegmentSet} {events wires : List WireEvent}
    (hleft : Interrupted rt segments events wires left) :
    ∃ count, (logEvents rt left.files).map Prod.fst = events ++ wires.take count := by
  obtain ⟨count, tail, hholds⟩ := hleft.holds
  exact ⟨count, hholds.map_fst_logEvents⟩

/-- A batch appends its events, or the first ones of them when the writer
stops. -/
theorem WriterInv.batch_wires (hinv : WriterInv rt writer saved) (input : BatchInput) :
    match writer.batch rt allReadable input with
    | .killed left => ∃ count, (logEvents rt left.files).map Prod.fst =
        (logEvents rt writer.segments.files).map Prod.fst ++
          (writer.stagedWires rt input).take count
    | .done result => (logEvents rt result.writer.segments.files).map Prod.fst =
        (logEvents rt writer.segments.files).map Prod.fst ++ writer.stagedWires rt input := by
  unfold Writer.batch Writer.stagedWires
  dsimp only
  cases hbatch : classify writer.state
      (resolveKeys rt allReadable writer.state.idem writer.runs (input.jobs.map Prod.fst))
      input.startNow input.jobs with
  | error message => exact ⟨0, by simp⟩
  | ok batch =>
      have hsound := hinv.classified hbatch
      have hspec := writePhase_spec hinv.holds (hinv.numbered_staged hsound)
      dsimp only
      cases hwrite : writePhase rt writer.segments batch.staged with
      | error left =>
          rw [hwrite] at hspec
          exact hspec.wires
      | ok phase =>
          obtain ⟨written, placed⟩ := phase
          rw [hwrite] at hspec
          have hwritten : Written rt writer.segments _ batch.staged written placed := hspec
          dsimp only
          cases applyStaged writer.state placed with
          | error message =>
              exact ⟨batch.wires.length, by
                rw [List.take_length]; exact hwritten.holds.map_fst_logEvents⟩
          | ok applied => exact hwritten.holds.map_fst_logEvents

/-- Every point at which the write phase can be interrupted. -/
theorem WriterInv.batchTrace_wires (hinv : WriterInv rt writer saved) {left : SegmentSet}
    (hmem : left ∈ writer.batchTrace rt allReadable input) :
    ∃ count, (logEvents rt left.files).map Prod.fst =
      (logEvents rt writer.segments.files).map Prod.fst ++
        (writer.stagedWires rt input).take count := by
  have hnone : ∃ count, (logEvents rt writer.segments.files).map Prod.fst =
      (logEvents rt writer.segments.files).map Prod.fst ++
        (writer.stagedWires rt input).take count := ⟨0, by simp⟩
  unfold Writer.batchTrace at hmem
  unfold Writer.stagedWires at hnone ⊢
  dsimp only at hmem
  cases hbatch : classify writer.state
      (resolveKeys rt allReadable writer.state.idem writer.runs (input.jobs.map Prod.fst))
      input.startNow input.jobs with
  | error message =>
      rw [hbatch] at hmem hnone
      rwa [List.mem_singleton.1 hmem]
  | ok batch =>
      rw [hbatch] at hmem hnone
      dsimp only at hmem
      split at hmem
      · rwa [List.mem_singleton.1 hmem]
      · have hsound := hinv.classified hbatch
        exact (interrupted_of_mem_writeTrace hinv.holds (hinv.numbered_staged hsound) hmem).wires

variable {rule : Admission}

/-- Events of a covered batch behind an admitted log. -/
theorem WriterInv.admits_extend (hinv : WriterInv rt writer saved)
    (hlog : BookState.initial.Admits rule (logEvents rt writer.segments.files))
    (hcovers : rule.Covers writer.state input.jobs) {files : List Segment}
    {extra : List (WireEvent × FramePos)}
    (hextra : logEvents rt files = logEvents rt writer.segments.files ++ extra) {count : ℕ}
    (hwires : (logEvents rt files).map Prod.fst =
      (logEvents rt writer.segments.files).map Prod.fst ++
        (writer.stagedWires rt input).take count) :
    BookState.initial.Admits rule (logEvents rt files) := by
  obtain ⟨ledger, hledger, hstate⟩ := hinv.ledger
  have haccounts : writer.state.accounts = ledger.accounts :=
    (BookState.same_of_forgetIdem hstate).2.2.1
  rw [hextra, List.map_append, List.append_cancel_left_eq] at hwires
  rw [hextra, BookState.admits_append]
  refine ⟨hlog, ledger, hledger, ?_⟩
  unfold Writer.stagedWires at hwires
  cases hbatch : classify writer.state
      (resolveKeys rt allReadable writer.state.idem writer.runs (input.jobs.map Prod.fst))
      input.startNow input.jobs with
  | error message =>
      rw [hbatch] at hwires
      obtain rfl : extra = [] := by simpa using hwires
      trivial
  | ok batch =>
      rw [hbatch] at hwires
      obtain ⟨applied, hadm⟩ := Classified.admitted_classify hcovers hbatch
      refine (hadm.admits.of_isPrefix (List.take_prefix count _)).of_accounts haccounts ?_
      rw [hwires, List.map_take, Classified.map_fst_items]
      rfl

end Batch

/-! ## Whole runs -/

/-- The batch of an action, if it has one. -/
def Action.input : Action → Option BatchInput
  | .batch input => some input
  | .failStop input _ => some input
  | .land _ _ => none
  | .reopen _ _ => none

/-- The jobs of an action are covered by the rule at the state of the book. -/
def Run.CoversAction (rule : Admission) (run : Run) (action : Action) : Prop :=
  ∀ writer input, run.status = .live writer → action.input = some input →
    rule.Covers writer.state input.jobs

/-- So are the jobs of all actions of a run. -/
def Run.Covered (rt : Runtime) (rule : Admission) : Run → List Action → Prop
  | _, [] => True
  | run, action :: actions =>
      run.CoversAction rule action ∧ (run.step rt action).Covered rt rule actions

variable {run : Run} {rule : Admission}

/-- What a step adds to the events: nothing, or the first ones of its batch. -/
theorem RunInv.step_events (hinv : RunInv rt run) (action : Action) :
    (run.step rt action).events rt = run.events rt ∨
      ∃ writer input count, run.status = .live writer ∧ action.input = some input ∧
        (run.step rt action).events rt =
          run.events rt ++ (writer.stagedWires rt input).take count := by
  unfold Run.step
  cases action with
  | batch input =>
      unfold Run.batch
      dsimp only
      cases hstatus : run.status with
      | stopped disk => exact Or.inl rfl
      | live writer =>
          have hwriter : WriterInv rt writer run.boundaries := by
            have hbook := hinv.book
            rwa [hstatus] at hbook
          have hevents : run.events rt = (logEvents rt writer.segments.files).map Prod.fst := by
            rw [Run.events, Run.log, hstatus]
            rfl
          have hbatch := hwriter.batch_wires input
          refine Or.inr ⟨writer, input, ?_⟩
          rw [hevents]
          dsimp only
          cases hresult : writer.batch rt allReadable input with
          | killed left =>
              rw [hresult] at hbatch
              obtain ⟨count, hcount⟩ := hbatch
              exact ⟨count, rfl, rfl, hcount⟩
          | done result =>
              rw [hresult] at hbatch
              refine ⟨(writer.stagedWires rt input).length, rfl, rfl, ?_⟩
              rw [List.take_length]
              exact hbatch
  | failStop input point =>
      unfold Run.failStop
      dsimp only
      cases hstatus : run.status with
      | stopped disk => exact Or.inl rfl
      | live writer =>
          have hwriter : WriterInv rt writer run.boundaries := by
            have hbook := hinv.book
            rwa [hstatus] at hbook
          have hevents : run.events rt = (logEvents rt writer.segments.files).map Prod.fst := by
            rw [Run.events, Run.log, hstatus]
            rfl
          dsimp only
          cases hleft : (writer.batchTrace rt allReadable input)[point]? with
          | none => exact Or.inl rfl
          | some left =>
              obtain ⟨count, hcount⟩ := hwriter.batchTrace_wires (List.mem_of_getElem? hleft)
              refine Or.inr ⟨writer, input, count, rfl, rfl, ?_⟩
              rw [hevents]
              exact hcount
  | land idx io =>
      left
      unfold Run.land
      dsimp only
      cases run.tasks[idx]? with
      | none => rfl
      | some task =>
          obtain ⟨task, own⟩ := task
          cases own <;> simp [Run.events, Run.log]
  | reopen opts io =>
      left
      obtain ⟨opened, hopen, hspec⟩ := hinv.book.diskInv.openBook opts io
      unfold Run.reopen
      simp only [hopen]
      exact congrArg (List.map Prod.fst) hspec.log_eq

/-- A covered step keeps the log admitted. -/
theorem RunInv.admits_step (hinv : RunInv rt run)
    (hlog : BookState.initial.Admits rule (run.log rt)) {action : Action}
    (hcovers : run.CoversAction rule action) :
    BookState.initial.Admits rule ((run.step rt action).log rt) := by
  obtain ⟨extra, hextra⟩ := (hinv.step action).2
  rcases hinv.step_events action with hsame | ⟨writer, input, count, hstatus, hinput, hwires⟩
  · have hnil : extra = [] := by
      rw [Run.events, ← hextra, List.map_append, Run.events] at hsame
      simpa using hsame
    rw [← hextra, hnil, List.append_nil]
    exact hlog
  · have hwriter : WriterInv rt writer run.boundaries := by
      have hbook := hinv.book
      rwa [hstatus] at hbook
    have hrun : run.log rt = logEvents rt writer.segments.files := by
      rw [Run.log, hstatus]
      rfl
    rw [hrun] at hlog hextra
    rw [Run.events, Run.events, hrun] at hwires
    exact hwriter.admits_extend hlog (hcovers writer input hstatus hinput) hextra.symm hwires

/-- The log of a covered run is admitted. -/
theorem RunInv.admits_foldl (hinv : RunInv rt run)
    (hlog : BookState.initial.Admits rule (run.log rt)) {actions : List Action}
    (hcovered : run.Covered rt rule actions) :
    BookState.initial.Admits rule ((actions.foldl (Run.step rt) run).log rt) := by
  induction actions generalizing run with
  | nil => exact hlog
  | cons action actions ih =>
      exact ih (hinv.step action).1 (hinv.admits_step hlog hcovered.1) hcovered.2

theorem Run.admits_exec {opts : LogStoreOptions} {io : SpillIo} {actions : List Action}
    (hcovered : (Run.create rt opts io).Covered rt rule actions) :
    BookState.initial.Admits rule ((Run.exec rt opts io actions).log rt) := by
  refine (RunInv.create rt opts io).admits_foldl ?_ hcovered
  obtain ⟨writer, hlive, -, hempty, -⟩ := Run.status_create rt opts io
  rw [Run.log, hlive]
  change BookState.initial.Admits rule (logEvents rt writer.segments.files)
  rw [hempty]
  trivial

/-! ## Accepted drafts -/

/-- A verdict depends on the accounts only. -/
theorem BookState.verdict_of_accounts {left right : BookState}
    (haccounts : left.accounts = right.accounts) (tx : Transaction) :
    left.verdict tx = right.verdict tx := by
  have hcheck : left.checkPosting = right.checkPosting := by
    funext posting
    rw [checkPosting, checkPosting, haccounts]
  have hseed : left.seedPosting = right.seedPosting := by
    funext scratch posting
    rw [seedPosting, seedPosting, haccounts]
  have hmin : left.checkMinBalance = right.checkMinBalance := by
    funext projected key
    rw [checkMinBalance, checkMinBalance, haccounts]
  rw [verdict, verdict, validate, validate, hcheck, hseed, hmin]

/-- A posted transaction was accepted, and is one of the drafts. -/
def Admission.accepted (draft : Transaction → Prop) : Admission where
  admits state event := ∀ tx, event = .transactionPosted tx →
    state.verdict tx = .ok () ∧ draft tx
  of_accounts haccounts hadmits tx htx := by
    rw [← BookState.verdict_of_accounts haccounts]
    exact hadmits tx htx

theorem Admission.covers_accepted {draft : Transaction → Prop} {jobs : List (Job × Int)}
    (hdrafts : ∀ tx now, (Job.commit tx, now) ∈ jobs → draft tx) (state : BookState) :
    (Admission.accepted draft).Covers state jobs where
  commit idx tx now hjob applied hok other hother := by
    cases hother
    exact ⟨hok, hdrafts tx now (List.mem_of_getElem? hjob)⟩
  openAccount idx account cfg now hjob hnew applied haccounts tx htx := by cases htx
  registerAsset idx asset now hjob applied tx htx := by cases htx

/-- The drafts among the jobs of an action. -/
def Action.Commits (action : Action) (tx : Transaction) : Prop :=
  ∃ input now, action.input = some input ∧ (Job.commit tx, now) ∈ input.jobs

theorem Run.covered_accepted {draft : Transaction → Prop} {actions : List Action}
    (hdrafts : ∀ action ∈ actions, ∀ tx, action.Commits tx → draft tx) (run : Run) :
    run.Covered rt (.accepted draft) actions := by
  induction actions generalizing run with
  | nil => trivial
  | cons action actions ih =>
      refine ⟨fun writer input _ hinput => ?_, ih (fun other hother =>
        hdrafts other (List.mem_cons_of_mem _ hother)) _⟩
      exact Admission.covers_accepted (fun tx now hjob =>
        hdrafts action List.mem_cons_self tx ⟨input, now, hinput, hjob⟩) _

/-- In every run, posted transactions were accepted drafts. -/
theorem Run.accepted_exec (rt : Runtime) (opts : LogStoreOptions) (io : SpillIo)
    (draft : Transaction → Prop) {actions : List Action}
    (hdrafts : ∀ action ∈ actions, ∀ tx, action.Commits tx → draft tx) :
    BookState.initial.Admits (.accepted draft) ((Run.exec rt opts io actions).log rt) :=
  Run.admits_exec (Run.covered_accepted hdrafts _)

end Talea.Log
