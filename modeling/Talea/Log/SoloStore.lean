import Talea.Log.AccountOpening
import Talea.Log.AccountReads
import Talea.Log.HotBound

/-!
# A store with one caller

Registrations of assets and openings of accounts, one after the other.  Each
submits at most one job to the writer of a book, and waits for the answer before
the next one starts, so every batch has a single job.  The operating system may
fail any write, which ends the writer for good, and a background task may finish
its snapshot before any of the jobs.
-/

namespace Talea.Log

/-- What happens around a call: whether the directory of a new book can be set
up, which background snapshots of the book finish before the job, the clock
readings of the batch, and what the operating system does to its I/O.  An I/O
error ends the writer at the point `interrupted` of its write phase. -/
structure CallIo where
  create : Except String SpillIo
  landed : List (ℕ × SnapIo)
  startNow : Int
  now : Int
  spill : SpillIo
  snap : SnapIo
  interrupted : Option ℕ

/-- The batch of a single job. -/
def CallIo.input (io : CallIo) (job : Job) : BatchInput :=
  ⟨io.startNow, [(job, io.now)], io.spill, io.snap⟩

variable (rt : Runtime)

/-- The files as an I/O error leaves them, if one interrupts the write phase; a
batch that stages nothing writes nothing. -/
def Writer.interruption (writer : Writer) (io : CallIo) (input : BatchInput) :
    Option SegmentSet :=
  if (writer.stagedWires rt input).isEmpty then none
  else io.interrupted.bind fun point => (writer.batchTrace rt allReadable input)[point]?

namespace Run

/-- Background tasks write their snapshots. -/
def lands (run : Run) (landed : List (ℕ × SnapIo)) : Run :=
  landed.foldl (fun run task => run.land task.1 task.2) run

/-- Submit a job and wait for its reply; the reply channel is dropped when the
writer ends in the batch. -/
def submit (run : Run) (job : Job) (io : CallIo) : Run × Except StoreError (Option Answer) :=
  let run := run.lands io.landed
  match run.status with
  | .stopped _ => (run, .error (.io "book writer gone"))
  | .live writer =>
      match writer.interruption rt io (io.input job) with
      | some left => (run.stop writer left, .ok none)
      | none =>
          match writer.batch rt allReadable (io.input job) with
          | .killed left => (run.stop writer left, .ok none)
          | .done result =>
              (run.batch rt (io.input job), .ok (answersTo result.sends 0).head?)

end Run

/-- The store: its flag, the registry and the books of the map. -/
structure SoloStore where
  opts : LogStoreOptions
  shutDown : Bool
  registry : HashMap AssetId AssetDef
  books : HashMap String Run

namespace SoloStore

def asset (store : SoloStore) (id : AssetId) : Option AssetDef :=
  store.registry.lookup id

/-- Get or create the writer of a book. -/
def bookWriter (store : SoloStore) (book : String) (io : CallIo) :
    SoloStore × Except StoreError Run :=
  if store.shutDown then (store, .error (.io "store has been shut down"))
  else if validateBookName book then
    match store.books.lookup book with
    | some run => (store, .ok run)
    | none =>
        match io.create with
        | .error message => (store, .error (.io message))
        | .ok spill =>
            let run := Run.create rt store.opts spill
            ({ store with books := store.books.insert book run }, .ok run)
  else (store, .error (invalidBookName book))

/-- Submit a job to the writer of a book; `gone` is the error for a reply
channel that is dropped. -/
def call (store : SoloStore) (book : String) (job : Job) (gone : String) (io : CallIo) :
    SoloStore × Except StoreError Unit :=
  match store.bookWriter rt book io with
  | (store, .error err) => (store, .error err)
  | (store, .ok run) =>
      let (run, reply) := run.submit rt job io
      ({ store with books := store.books.insert book run },
        match reply with
        | .error err => .error err
        | .ok (some (.done result)) => result
        | .ok _ => .error (.io gone))

/-- The same definition again is no error and no event. -/
def registerAsset (store : SoloStore) (asset : AssetDef) (io : CallIo) :
    SoloStore × Except StoreError Unit :=
  if store.shutDown then (store, .error (.io "store has been shut down"))
  else
    match store.asset asset.id with
    | some existing =>
        (store, if existing = asset then .ok ()
          else .error (.alreadyExists s!"asset {asset.id.id}"))
    | none =>
        match store.call rt systemBook.name (.registerAsset asset)
            "book writer gone during register_asset" io with
        | (store, .error err) => (store, .error err)
        | (store, .ok ()) =>
            ({ store with registry := store.registry.insert asset.id asset }, .ok ())

def openAccount (store : SoloStore) (account : AccountDef) (cfg : AccountCfg) (io : CallIo) :
    SoloStore × Except StoreError Unit :=
  if account.id.book.isReserved then (store, .error (.invalidBook account.id.book))
  else if (store.asset account.asset).isNone then (store, .error (.unknownAsset account.asset))
  else
    store.call rt account.id.book.name (.openAccount account cfg)
      "book writer gone during open_account" io

end SoloStore

variable {rt}

/-! ## Jobs that set something up -/

/-- A job that registers an asset or opens an account. -/
def Job.setsUp : Job → Bool
  | .registerAsset _ => true
  | .openAccount _ _ => true
  | _ => false

/-- How such a job ends in a book with these accounts: what becomes of them,
which events are appended, and what the answer is. -/
inductive SetUp (accounts : HashMap String AccountState) :
    Job → HashMap String AccountState → List LedgerEvent → Except StoreError Unit → Prop
  | registered (asset : AssetDef) :
      SetUp accounts (.registerAsset asset) accounts [.assetRegistered asset] (.ok ())
  | opened {account : AccountDef} (cfg : AccountCfg)
      (hnew : accounts.lookup account.id.toKey = none) :
      SetUp accounts (.openAccount account cfg)
        (accounts.insert account.id.toKey (.opened account cfg)) [.accountOpened account cfg]
        (.ok ())
  | same {account : AccountDef} {cfg : AccountCfg} {existing : AccountState}
      (hopen : accounts.lookup account.id.toKey = some existing)
      (hsame : existing.account = account ∧ existing.cfg = cfg) :
      SetUp accounts (.openAccount account cfg) accounts [] (.ok ())
  | conflict {account : AccountDef} {cfg : AccountCfg} {existing : AccountState}
      (hopen : accounts.lookup account.id.toKey = some existing)
      (hdiffer : ¬(existing.account = account ∧ existing.cfg = cfg)) :
      SetUp accounts (.openAccount account cfg) accounts []
        (.error (.alreadyExists s!"account {account.id.toKey}"))

/-- An account that is open stays what it is. -/
theorem SetUp.lookup {accounts after : HashMap String AccountState} {job : Job}
    {events : List LedgerEvent} {outcome : Except StoreError Unit}
    (hsetUp : SetUp accounts job after events outcome) {key : String} {existing : AccountState}
    (hopen : accounts.lookup key = some existing) : after.lookup key = some existing := by
  cases hsetUp with
  | registered => exact hopen
  | same => exact hopen
  | conflict => exact hopen
  | opened cfg hnew =>
      rw [Finmap.lookup_insert_of_ne _ fun hkey => ?_]
      · exact hopen
      · rw [hkey, hnew] at hopen
        cases hopen

/-- A registration always goes well. -/
theorem SetUp.of_registerAsset {accounts after : HashMap String AccountState} {asset : AssetDef}
    {events : List LedgerEvent} {outcome : Except StoreError Unit}
    (hsetUp : SetUp accounts (.registerAsset asset) after events outcome) :
    after = accounts ∧ events = [.assetRegistered asset] ∧ outcome = .ok () := by
  cases hsetUp
  exact ⟨rfl, rfl, rfl⟩

/-- An open that fails changes nothing. -/
theorem SetUp.of_error {accounts after : HashMap String AccountState} {job : Job}
    {events : List LedgerEvent} {err : StoreError}
    (hsetUp : SetUp accounts job after events (.error err)) :
    after = accounts ∧ events = [] := by
  cases hsetUp
  exact ⟨rfl, rfl⟩

/-- One that succeeds finds the account as asked for, or opens it. -/
theorem SetUp.of_openAccount {accounts after : HashMap String AccountState}
    {account : AccountDef} {cfg : AccountCfg} {events : List LedgerEvent}
    (hsetUp : SetUp accounts (.openAccount account cfg) after events (.ok ())) :
    (∃ existing, accounts.lookup account.id.toKey = some existing ∧
        (existing.account = account ∧ existing.cfg = cfg) ∧ after = accounts ∧ events = []) ∨
      accounts.lookup account.id.toKey = none ∧
        after = accounts.insert account.id.toKey (.opened account cfg) ∧
        events = [.accountOpened account cfg] := by
  cases hsetUp with
  | same hopen hsame => exact Or.inl ⟨_, hopen, hsame, rfl, rfl⟩
  | opened cfg hnew => exact Or.inr ⟨hnew, rfl, rfl⟩

/-- The answer to an open of an account that is open as asked for. -/
theorem SetUp.of_same {accounts after : HashMap String AccountState} {account : AccountDef}
    {cfg : AccountCfg} {existing : AccountState} {events : List LedgerEvent}
    {outcome : Except StoreError Unit}
    (hsetUp : SetUp accounts (.openAccount account cfg) after events outcome)
    (hopen : accounts.lookup account.id.toKey = some existing)
    (hsame : existing.account = account ∧ existing.cfg = cfg) : outcome = .ok () := by
  cases hsetUp with
  | opened => rfl
  | same => rfl
  | conflict hconflict hdiffer =>
      rw [hopen] at hconflict
      cases hconflict
      exact absurd hsame hdiffer

section Batch

variable {writer : Writer} {saved : List BookState} {input : BatchInput} {result : BatchDone}
  {io : CallIo}

theorem BookState.accounts_flushIdem (state : BookState) (io : SpillIo) (dir : RunDir) :
    (flushIdem state rt io dir).1.accounts = state.accounts := by
  unfold flushIdem
  split <;> rfl

/-- The accounts behind a batch are those that its events lead to. -/
theorem Writer.accounts_batch (hdone : writer.batch rt allReadable input = .done result) :
    ∃ items applied, items.map Prod.fst = writer.stagedWires rt input ∧
      writer.state.replay items = .ok applied ∧
      result.writer.state.accounts = applied.accounts := by
  obtain ⟨batch, placed, applied, hbatch, hwires, happlied, hstate⟩ :=
    Writer.batch_done_cases hdone
  refine ⟨_, applied, ?_, happlied, by rw [hstate, BookState.accounts_flushIdem]⟩
  rw [Staged.map_fst_items, hwires, Writer.stagedWires, hbatch]

theorem stagedWires_registerAsset (rt : Runtime) (writer : Writer) (io : CallIo) (asset : AssetDef) :
    ∃ seq time, writer.stagedWires rt (io.input (.registerAsset asset)) =
      [⟨seq, time, .assetRegistered asset⟩] :=
  ⟨_, _, rfl⟩

theorem stagedWires_openAccount (writer : Writer) (io : CallIo) (account : AccountDef)
    (cfg : AccountCfg) :
    writer.stagedWires rt (io.input (.openAccount account cfg)) =
      (classifyOpenAccount writer.state (.start writer.state io.startNow) 0 account cfg
        io.now).wires :=
  rfl

theorem stagedWires_openAccount_new {account : AccountDef}
    (hnew : writer.state.accounts.lookup account.id.toKey = none) (rt : Runtime) (io : CallIo)
    (cfg : AccountCfg) :
    ∃ seq time, writer.stagedWires rt (io.input (.openAccount account cfg)) =
      [⟨seq, time, .accountOpened account cfg⟩] := by
  rw [stagedWires_openAccount, classifyOpenAccount, hnew]
  exact ⟨_, _, rfl⟩

theorem staged_classifyOpenAccount_old {state : BookState} {account : AccountDef}
    {existing : AccountState} (hopen : state.accounts.lookup account.id.toKey = some existing)
    (acc : Classified) (idx : ℕ) (cfg : AccountCfg) (now : Int) :
    (classifyOpenAccount state acc idx account cfg now).staged = acc.staged := by
  rw [classifyOpenAccount, hopen]
  dsimp only
  split <;> rfl

theorem stagedWires_openAccount_old {account : AccountDef} {existing : AccountState}
    (hopen : writer.state.accounts.lookup account.id.toKey = some existing)
    (rt : Runtime) (io : CallIo) (cfg : AccountCfg) :
    writer.stagedWires rt (io.input (.openAccount account cfg)) = [] := by
  rw [stagedWires_openAccount, Classified.wires, staged_classifyOpenAccount_old hopen]
  rfl

/-- A batch that stages nothing runs to its end. -/
theorem Writer.batch_openAccount_old {account : AccountDef} {existing : AccountState}
    (hopen : writer.state.accounts.lookup account.id.toKey = some existing)
    (rt : Runtime) (io : CallIo) (cfg : AccountCfg) :
    ∃ result, writer.batch rt allReadable (io.input (.openAccount account cfg)) =
      .done result := by
  have hstaged := staged_classifyOpenAccount_old hopen (.start writer.state io.startNow) 0 cfg
    io.now
  have hclassify : ∀ resolved, classify writer.state resolved io.startNow
      [(.openAccount account cfg, io.now)] = .ok (classifyOpenAccount writer.state
        (.start writer.state io.startNow) 0 account cfg io.now) := fun _ => rfl
  unfold Writer.batch CallIo.input
  dsimp only
  rw [hclassify]
  dsimp only
  rw [hstaged]
  exact ⟨_, rfl⟩

/-- The batch of a job that sets something up, when it runs to its end. -/
theorem WriterInv.setUp (hinv : WriterInv rt writer saved) {job : Job} (hjob : job.setsUp = true)
    (hdone : writer.batch rt allReadable (io.input job) = .done result) :
    ∃ events outcome, SetUp writer.state.accounts job result.writer.state.accounts events outcome ∧
      (writer.stagedWires rt (io.input job)).map WireEvent.event = events ∧
      answersTo result.sends 0 = [.done outcome] := by
  obtain ⟨items, applied, hitems, hreplay, haccounts⟩ := Writer.accounts_batch hdone
  obtain ⟨placed, snapResult, -, hanswers⟩ := hinv.batch_answers hdone
  obtain ⟨answer, hfilter, hanswer⟩ := hanswers 0 job io.now rfl
  have hsent : answersTo result.sends 0 = [answer] := by
    rw [answersTo, hfilter]
    rfl
  rw [haccounts, hsent]
  -- without an event the accounts stay
  have hquiet : writer.stagedWires rt (io.input job) = [] →
      applied.accounts = writer.state.accounts := by
    intro hnone
    rw [hnone, List.map_eq_nil_iff] at hitems
    rw [hitems] at hreplay
    cases hreplay
    rfl
  -- and with one it is the event that is applied
  have hone : ∀ {wire}, writer.stagedWires rt (io.input job) = [wire] →
      ∃ pos, writer.state.applyEvent (wire, pos) = .ok applied := by
    intro wire hwire
    rw [hwire] at hitems
    obtain ⟨⟨event, pos⟩, rfl, rfl⟩ := List.map_eq_singleton_iff.1 hitems
    obtain ⟨mid, happly, hrest⟩ := Except.bind_eq_ok.1 hreplay
    cases hrest
    exact ⟨pos, happly⟩
  cases hanswer with
  | registered hentry hidx hevent =>
      rename_i asset entry
      obtain ⟨seq, time, hwires⟩ := stagedWires_registerAsset rt writer io asset
      obtain ⟨pos, happly⟩ := hone hwires
      cases happly
      exact ⟨_, _, .registered asset, congrArg _ hwires, rfl⟩
  | opened hnew hentry hidx hevent =>
      rename_i account cfg entry
      obtain ⟨seq, time, hwires⟩ := stagedWires_openAccount_new hnew rt io cfg
      obtain ⟨pos, happly⟩ := hone hwires
      cases happly
      have hmem : account.id.toKey ∉ writer.state.accounts := Finmap.lookup_eq_none.1 hnew
      refine ⟨_, _, ?_, congrArg _ hwires, rfl⟩
      simp only [BookState.applyAccountOpened, if_neg hmem]
      exact .opened cfg hnew
  | openExists hopen hsame =>
      rename_i account cfg existing
      have hwires := stagedWires_openAccount_old hopen rt io cfg
      rw [hquiet hwires, hwires]
      exact ⟨_, _, .same hopen hsame, rfl, rfl⟩
  | openConflict hopen hdiffer =>
      rename_i account cfg existing
      have hwires := stagedWires_openAccount_old hopen rt io cfg
      rw [hquiet hwires, hwires]
      exact ⟨_, _, .conflict hopen hdiffer, rfl, rfl⟩
  | _ => cases hjob

end Batch

/-! ## One job on a run -/

namespace Run

/-- The accounts in memory; a book without a writer takes no part. -/
def accounts (run : Run) : HashMap String AccountState :=
  match run.status with
  | .live writer => writer.state.accounts
  | .stopped _ => ∅

def stopped (run : Run) : Bool :=
  match run.status with
  | .live _ => false
  | .stopped _ => true

def ledgerEvents (rt : Runtime) (run : Run) : List LedgerEvent :=
  (run.events rt).map WireEvent.event

variable {run : Run}

theorem stopped_stop (run : Run) (writer : Writer) (left : SegmentSet) :
    (run.stop writer left).stopped = true :=
  rfl

/-- What a background snapshot leaves as it is. -/
theorem land_same (rt : Runtime) (run : Run) (idx : ℕ) (io : SnapIo) :
    (run.land idx io).log rt = run.log rt ∧ (run.land idx io).accounts = run.accounts ∧
      (run.land idx io).stopped = run.stopped := by
  unfold land
  cases run.tasks[idx]? with
  | none => exact ⟨rfl, rfl, rfl⟩
  | some task =>
      obtain ⟨task, own⟩ := task
      unfold accounts stopped log
      cases run.status <;> cases own <;> exact ⟨rfl, rfl, rfl⟩

theorem lands_same (rt : Runtime) (run : Run) (landed : List (ℕ × SnapIo)) :
    (run.lands landed).log rt = run.log rt ∧ (run.lands landed).accounts = run.accounts ∧
      (run.lands landed).stopped = run.stopped := by
  induction landed generalizing run with
  | nil => exact ⟨rfl, rfl, rfl⟩
  | cons task landed ih =>
      obtain ⟨hlog, haccounts, hstopped⟩ := ih (run.land task.1 task.2)
      obtain ⟨hlog', haccounts', hstopped'⟩ := run.land_same rt task.1 task.2
      exact ⟨hlog.trans hlog', haccounts.trans haccounts', hstopped.trans hstopped'⟩

end Run

variable {run next : Run} {job : Job} {reply : Except StoreError (Option Answer)} {io : CallIo}

theorem RunInv.lands (hinv : RunInv rt run) (landed : List (ℕ × SnapIo)) :
    RunInv rt (run.lands landed) := by
  induction landed generalizing run with
  | nil => exact hinv
  | cons task landed ih => exact ih (hinv.land task.1 task.2).1

theorem Run.status_batch {writer : Writer} {input : BatchInput} {result : BatchDone}
    (hlive : run.status = .live writer)
    (hdone : writer.batch rt allReadable input = .done result) :
    (run.batch rt input).status = .live result.writer := by
  rw [Run.batch_eq_conclude, hlive]
  dsimp only
  rw [hdone]
  rfl

/-- What submitting a job does, with the snapshots out of the way. -/
theorem Run.submit_cases (hsubmit : run.submit rt job io = (next, reply)) :
    ((run.lands io.landed).stopped = true ∧ next = run.lands io.landed ∧
        reply = .error (.io "book writer gone")) ∨
      ∃ writer, (run.lands io.landed).status = .live writer ∧
        ((∃ left, writer.interruption rt io (io.input job) = some left ∧
            next = (run.lands io.landed).stop writer left ∧ reply = .ok none) ∨
          (∃ left, writer.batch rt allReadable (io.input job) = .killed left ∧
            next = (run.lands io.landed).stop writer left ∧ reply = .ok none) ∨
          writer.interruption rt io (io.input job) = none ∧
            ∃ result, writer.batch rt allReadable (io.input job) = .done result ∧
              next = (run.lands io.landed).batch rt (io.input job) ∧
              reply = .ok (answersTo result.sends 0).head?) := by
  unfold Run.submit at hsubmit
  dsimp only at hsubmit
  cases hstatus : (run.lands io.landed).status with
  | stopped disk =>
      rw [hstatus] at hsubmit
      cases hsubmit
      exact Or.inl ⟨by rw [Run.stopped, hstatus], rfl, rfl⟩
  | live writer =>
      rw [hstatus] at hsubmit
      refine Or.inr ⟨writer, rfl, ?_⟩
      dsimp only at hsubmit
      cases hinterrupted : writer.interruption rt io (io.input job) with
      | some left =>
          rw [hinterrupted] at hsubmit
          cases hsubmit
          exact Or.inl ⟨left, rfl, rfl, rfl⟩
      | none =>
          rw [hinterrupted] at hsubmit
          dsimp only at hsubmit
          cases hbatch : writer.batch rt allReadable (io.input job) with
          | killed left =>
              rw [hbatch] at hsubmit
              cases hsubmit
              exact Or.inr (Or.inl ⟨left, rfl, rfl, rfl⟩)
          | done result =>
              rw [hbatch] at hsubmit
              cases hsubmit
              exact Or.inr (Or.inr ⟨rfl, result, rfl, rfl, rfl⟩)

/-- How a job that sets something up ends for a run. -/
structure Run.Answered (rt : Runtime) (run next : Run) (job : Job)
    (reply : Except StoreError (Option Answer)) : Prop where
  before : run.stopped = false
  after : next.stopped = false
  setUp : ∃ events outcome, reply = .ok (some (.done outcome)) ∧
    SetUp run.accounts job next.accounts events outcome ∧
    next.ledgerEvents rt = run.ledgerEvents rt ++ events

/-- It is answered, or the writer is gone. -/
theorem RunInv.submit (hinv : RunInv rt run) (hjob : job.setsUp = true)
    (hsubmit : run.submit rt job io = (next, reply)) :
    RunInv rt next ∧ run.Grows rt next ∧
      (next.stopped = true ∧ (∀ answer, reply ≠ .ok (some answer)) ∨
        run.Answered rt next job reply) := by
  obtain ⟨hlog, haccounts, hstopped⟩ := run.lands_same rt io.landed
  have hlanded := hinv.lands io.landed
  have hgrows : ∀ {next}, (run.lands io.landed).Grows rt next → run.Grows rt next := by
    intro next h
    rwa [Run.Grows, hlog] at h
  rcases Run.submit_cases hsubmit with ⟨hgone, rfl, rfl⟩ | ⟨writer, hlive, hcases⟩
  · exact ⟨hlanded, hgrows (.refl _), Or.inl ⟨hgone, by simp⟩⟩
  have hwriter : WriterInv rt writer (run.lands io.landed).boundaries := by
    have hbook := hlanded.book
    rwa [hlive] at hbook
  rcases hcases with ⟨left, hleft, rfl, rfl⟩ | ⟨left, hkilled, rfl, rfl⟩ |
    ⟨-, result, hdone, rfl, rfl⟩
  · have hmem : left ∈ writer.batchTrace rt allReadable (io.input job) := by
      unfold Writer.interruption at hleft
      split at hleft
      · cases hleft
      · obtain ⟨point, -, hpoint⟩ := Option.bind_eq_some_iff.1 hleft
        exact List.mem_of_getElem? hpoint
    obtain ⟨hnext, hmore⟩ := hlanded.stop hlive (hwriter.batchTrace hmem)
    exact ⟨hnext, hgrows hmore, Or.inl ⟨Run.stopped_stop .., by simp⟩⟩
  · have hspec := hwriter.batch (io.input job)
    rw [hkilled] at hspec
    obtain ⟨hnext, hmore⟩ := hlanded.stop hlive hspec
    exact ⟨hnext, hgrows hmore, Or.inl ⟨Run.stopped_stop .., by simp⟩⟩
  · obtain ⟨hnext, hmore⟩ := hlanded.batch (io.input job)
    obtain ⟨events, outcome, hsetUp, hevents, hsent⟩ := hwriter.setUp hjob hdone
    have hresult := Run.status_batch hlive hdone
    have hwires := hwriter.batch_wires (io.input job)
    rw [hdone] at hwires
    dsimp only at hwires
    refine ⟨hnext, hgrows hmore, Or.inr ⟨?_, ?_, events, outcome, ?_, ?_, ?_⟩⟩
    · rw [← hstopped, Run.stopped, hlive]
    · rw [Run.stopped, hresult]
    · rw [hsent]
      rfl
    · rw [← haccounts, Run.accounts, hlive, Run.accounts, hresult]
      exact hsetUp
    · have hbefore : run.events rt = (logEvents rt writer.segments.files).map Prod.fst := by
        rw [Run.events, ← hlog, Run.log, hlive]
        rfl
      have hafter : ((run.lands io.landed).batch rt (io.input job)).events rt =
          (logEvents rt result.writer.segments.files).map Prod.fst := by
        rw [Run.events, Run.log, hresult]
        rfl
      rw [Run.ledgerEvents, Run.ledgerEvents, hbefore, hafter, hwires, List.map_append, hevents]

/-- An account that is open as asked for is found, whatever the operating system
does. -/
theorem Run.submit_same (hinv : RunInv rt run) {account : AccountDef} {cfg : AccountCfg}
    {existing : AccountState} (hlive : run.stopped = false)
    (hopen : run.accounts.lookup account.id.toKey = some existing)
    (hsame : existing.account = account ∧ existing.cfg = cfg) (io : CallIo) :
    (run.submit rt (.openAccount account cfg) io).2 = .ok (some (.done (.ok ()))) := by
  obtain ⟨-, haccounts, hstopped⟩ := run.lands_same rt io.landed
  rcases hsubmit : run.submit rt (.openAccount account cfg) io with ⟨next, reply⟩
  have hfound : ∀ {writer}, (run.lands io.landed).status = .live writer →
      writer.state.accounts.lookup account.id.toKey = some existing := by
    intro writer hwriter
    rwa [← haccounts, Run.accounts, hwriter] at hopen
  rcases Run.submit_cases hsubmit with ⟨hgone, -⟩ | ⟨writer, hwriter, hcases⟩
  · rw [hstopped, hlive] at hgone
    cases hgone
  have hquiet := stagedWires_openAccount_old (hfound hwriter) rt io cfg
  obtain ⟨done, hdone⟩ := Writer.batch_openAccount_old (hfound hwriter) rt io cfg
  rcases hcases with ⟨left, hleft, -⟩ | ⟨left, hkilled, -⟩ | ⟨-, result, hresult, rfl, rfl⟩
  · rw [Writer.interruption, hquiet] at hleft
    cases hleft
  · rw [hdone] at hkilled
    cases hkilled
  · obtain ⟨-, -, ⟨hgone, -⟩ | hanswered⟩ := hinv.submit rfl hsubmit
    · rw [Run.stopped, Run.status_batch hwriter hresult] at hgone
      cases hgone
    · obtain ⟨events, outcome, hreply, hsetUp, -⟩ := hanswered.setUp
      rw [hreply, hsetUp.of_same hopen hsame]

/-! ## One call on the store -/

/-- A new book has no events and no accounts. -/
theorem Run.create_empty (rt : Runtime) (opts : LogStoreOptions) (io : SpillIo) :
    (Run.create rt opts io).events rt = [] ∧ (Run.create rt opts io).accounts = ∅ ∧
      (Run.create rt opts io).stopped = false := by
  obtain ⟨writer, hlive, hinv, hlog, -⟩ := Run.status_create rt opts io
  obtain ⟨ledger, hledger, hsame⟩ := hinv.ledger
  have hinitial : ledger = BookState.initial := by
    rw [hlog] at hledger
    cases hledger
    rfl
  refine ⟨?_, ?_, ?_⟩
  · rw [Run.events, Run.log, hlive]
    exact congrArg (List.map Prod.fst) hlog
  · rw [Run.accounts, hlive]
    dsimp only
    rw [(BookState.same_of_forgetIdem hsame).2.2.1, hinitial]
    rfl
  · rw [Run.stopped, hlive]

namespace SoloStore

/-- The books of the map have come about through runs. -/
def Reachable (rt : Runtime) (store : SoloStore) : Prop :=
  ∀ book run, store.books.lookup book = some run →
    ∃ opts io actions, run = Run.exec rt opts io actions

def Inv (rt : Runtime) (store : SoloStore) : Prop :=
  ∀ book run, store.books.lookup book = some run → RunInv rt run

theorem Reachable.inv {store : SoloStore} (hstore : store.Reachable rt) : store.Inv rt := by
  intro book run hrun
  obtain ⟨opts, io, actions, rfl⟩ := hstore book run hrun
  exact RunInv.exec rt opts io actions

/-- The events of a book. -/
def events (rt : Runtime) (store : SoloStore) (book : String) : List WireEvent :=
  match store.books.lookup book with
  | some run => run.events rt
  | none => []

def ledgerEvents (rt : Runtime) (store : SoloStore) (book : String) : List LedgerEvent :=
  (store.events rt book).map WireEvent.event

/-- The accounts of a book. -/
def accounts (store : SoloStore) (book : String) : HashMap String AccountState :=
  match store.books.lookup book with
  | some run => run.accounts
  | none => ∅

/-- The book has a writer. -/
def Live (store : SoloStore) (book : String) : Prop :=
  ∃ run, store.books.lookup book = some run ∧ run.stopped = false

/-- The book has lost its writer. -/
def Stopped (store : SoloStore) (book : String) : Prop :=
  ∃ run, store.books.lookup book = some run ∧ run.stopped = true

/-- Nothing is done to the other books, to the registry and to the flag. -/
structure Touches (store : SoloStore) (book : String) (next : SoloStore) : Prop where
  registry : next.registry = store.registry
  shutDown : next.shutDown = store.shutDown
  others : ∀ other, other ≠ book → next.books.lookup other = store.books.lookup other

variable {store next : SoloStore} {book other : String} {run : Run} {job : Job} {io : CallIo}

theorem Touches.refl (store : SoloStore) (book : String) : store.Touches book store :=
  ⟨rfl, rfl, fun _ _ => rfl⟩

theorem Touches.insert (store : SoloStore) (book : String) (run : Run) :
    store.Touches book { store with books := store.books.insert book run } :=
  ⟨rfl, rfl, fun _ hother => Finmap.lookup_insert_of_ne _ hother⟩

theorem Touches.trans {mid : SoloStore} (hleft : store.Touches book mid)
    (hright : mid.Touches book next) : store.Touches book next :=
  ⟨hright.registry.trans hleft.registry, hright.shutDown.trans hleft.shutDown,
    fun other hother => (hright.others other hother).trans (hleft.others other hother)⟩

theorem not_stopped_of_live (hlive : store.Live book) : ¬ store.Stopped book := by
  rintro ⟨run, hrun, hstopped⟩
  obtain ⟨run', hrun', hlive⟩ := hlive
  rw [hrun] at hrun'
  cases hrun'
  rw [hstopped] at hlive
  cases hlive

theorem Inv.insert (hinv : store.Inv rt) (hrun : RunInv rt run) :
    Inv rt { store with books := store.books.insert book run } := by
  intro other found hfound
  rw [HashMap.lookup_insert_ite] at hfound
  split at hfound
  · cases hfound
    exact hrun
  · exact hinv other found hfound

/-- Where `book_writer` finds or creates a writer, the book is as before. -/
structure Found (rt : Runtime) (store : SoloStore) (book : String) (next : SoloStore)
    (run : Run) : Prop where
  shutDown : store.shutDown = false
  named : validateBookName book = true
  inv : RunInv rt run
  lookup : next.books.lookup book = some run
  touches : store.Touches book next
  events : run.events rt = store.events rt book
  accounts : run.accounts = store.accounts book
  stopped : store.Stopped book → run.stopped = true

theorem Inv.bookWriter (hinv : store.Inv rt) {result : Except StoreError Run}
    (hfind : store.bookWriter rt book io = (next, result)) :
    next.Inv rt ∧
      ((next = store ∧ ∃ err, result = .error err) ∨
        ∃ run, result = .ok run ∧ store.Found rt book next run) := by
  unfold SoloStore.bookWriter at hfind
  split at hfind
  · cases hfind
    exact ⟨hinv, Or.inl ⟨rfl, _, rfl⟩⟩
  next hopen =>
  have hflag : store.shutDown = false := eq_false_of_ne_true hopen
  split at hfind
  next hnamed =>
    cases hlookup : store.books.lookup book with
    | some run =>
        rw [hlookup] at hfind
        cases hfind
        refine ⟨hinv, Or.inr ⟨run, rfl, hflag, hnamed, hinv book run hlookup, hlookup,
          .refl store book, ?_, ?_, ?_⟩⟩
        · rw [SoloStore.events, hlookup]
        · rw [SoloStore.accounts, hlookup]
        · rintro ⟨found, hfound, hstopped⟩
          rw [hlookup] at hfound
          cases hfound
          exact hstopped
    | none =>
        rw [hlookup] at hfind
        dsimp only at hfind
        cases hcreate : io.create with
        | error message =>
            rw [hcreate] at hfind
            cases hfind
            exact ⟨hinv, Or.inl ⟨rfl, _, rfl⟩⟩
        | ok spill =>
            rw [hcreate] at hfind
            cases hfind
            have hrun := RunInv.create rt store.opts spill
            obtain ⟨hevents, haccounts, -⟩ := Run.create_empty rt store.opts spill
            refine ⟨hinv.insert hrun, Or.inr ⟨_, rfl, hflag, hnamed, hrun,
              Finmap.lookup_insert _, .insert store book _, ?_, ?_, ?_⟩⟩
            · rw [hevents, SoloStore.events, hlookup]
            · rw [haccounts, SoloStore.accounts, hlookup]
            · rintro ⟨found, hfound, -⟩
              rw [hlookup] at hfound
              cases hfound
  next =>
    cases hfind
    exact ⟨hinv, Or.inl ⟨rfl, _, rfl⟩⟩

/-- How a job that sets something up ends for the store. -/
structure Answered (rt : Runtime) (store next : SoloStore) (book : String) (job : Job)
    (outcome : Except StoreError Unit) : Prop where
  shutDown : store.shutDown = false
  named : validateBookName book = true
  before : ¬ store.Stopped book
  after : next.Live book
  setUp : ∃ events, SetUp (store.accounts book) job (next.accounts book) events outcome ∧
    next.ledgerEvents rt book = store.ledgerEvents rt book ++ events

/-- A call is answered, or it fails, and has done nothing where the writer is
not gone. -/
theorem Inv.call (hinv : store.Inv rt) (hjob : job.setsUp = true) {gone : String}
    {result : Except StoreError Unit} (hcall : store.call rt book job gone io = (next, result)) :
    next.Inv rt ∧ store.Touches book next ∧
      store.events rt book <+: next.events rt book ∧
      ((∃ err, result = .error err) ∧ (next = store ∨ next.Stopped book) ∨
        store.Answered rt next book job result) := by
  unfold SoloStore.call at hcall
  rcases hfind : store.bookWriter rt book io with ⟨mid, err | run⟩
  · rw [hfind] at hcall
    cases hcall
    obtain ⟨hmid, ⟨rfl, -⟩ | ⟨run, hrun, -⟩⟩ := hinv.bookWriter hfind
    · exact ⟨hinv, .refl _ _, List.prefix_rfl, Or.inl ⟨⟨err, rfl⟩, Or.inl rfl⟩⟩
    · cases hrun
  · obtain ⟨hmid, ⟨-, err, herr⟩ | ⟨found, hrun, hfound⟩⟩ := hinv.bookWriter hfind
    · cases herr
    cases hrun
    rw [hfind] at hcall
    dsimp only at hcall
    rcases hsubmit : run.submit rt job io with ⟨after, reply⟩
    rw [hsubmit] at hcall
    cases hcall
    obtain ⟨hafter, hgrows, hcases⟩ := hfound.inv.submit hjob hsubmit
    have hlookup : (mid.books.insert book after).lookup book = some after :=
      Finmap.lookup_insert _
    have hevents : SoloStore.events rt { mid with books := mid.books.insert book after } book =
        after.events rt := by
      rw [SoloStore.events, hlookup]
    have haccounts : SoloStore.accounts { mid with books := mid.books.insert book after } book =
        after.accounts := by
      rw [SoloStore.accounts, hlookup]
    have hmore : run.events rt <+: after.events rt := by
      obtain ⟨extra, hextra⟩ := hgrows
      exact ⟨extra.map Prod.fst, by rw [Run.events, Run.events, ← hextra, List.map_append]⟩
    refine ⟨hmid.insert hafter, hfound.touches.trans (.insert mid book after), ?_, ?_⟩
    · rw [hevents, ← hfound.events]
      exact hmore
    rcases hcases with ⟨hstopped, hnone⟩ | hanswered
    · refine Or.inl ⟨?_, Or.inr ⟨after, hlookup, hstopped⟩⟩
      rcases reply with err | _ | answer
      · exact ⟨err, rfl⟩
      · exact ⟨_, rfl⟩
      · exact absurd rfl (hnone answer)
    · obtain ⟨events, outcome, rfl, hsetUp, hledger⟩ := hanswered.setUp
      refine Or.inr ⟨hfound.shutDown, hfound.named, fun hstopped => ?_,
        ⟨after, hlookup, hanswered.after⟩, events, ?_, ?_⟩
      · have hrun := hfound.stopped hstopped
        rw [hanswered.before] at hrun
        cases hrun
      · rw [← hfound.accounts, haccounts]
        exact hsetUp
      · rw [SoloStore.ledgerEvents, hevents, SoloStore.ledgerEvents, ← hfound.events]
        exact hledger

/-- What a store still has. -/
structure Keeps (store next : SoloStore) : Prop where
  assets : ∀ {id asset}, store.asset id = some asset → next.asset id = some asset
  shutDown : next.shutDown = store.shutDown
  live : ∀ {book}, store.Live book → next.Live book
  accounts : ∀ {book key existing}, (store.accounts book).lookup key = some existing →
    (next.accounts book).lookup key = some existing

theorem Keeps.refl (store : SoloStore) : store.Keeps store :=
  ⟨id, rfl, id, id⟩

/-- A call that is answered leaves everything in place. -/
theorem Answered.keeps {outcome : Except StoreError Unit}
    (hanswered : store.Answered rt next book job outcome) (htouches : store.Touches book next) :
    store.Keeps next where
  assets hfound := by
    rw [SoloStore.asset, htouches.registry]
    exact hfound
  shutDown := htouches.shutDown
  live := by
    rintro other ⟨run, hrun, hlive⟩
    by_cases hother : other = book
    · rw [hother]
      exact hanswered.after
    · exact ⟨run, (htouches.others other hother).trans hrun, hlive⟩
  accounts := by
    intro other key existing hopen
    by_cases hother : other = book
    · subst hother
      obtain ⟨events, hsetUp, -⟩ := hanswered.setUp
      exact hsetUp.lookup hopen
    · rw [SoloStore.accounts, htouches.others other hother]
      exact hopen

/-- A book that has lost its writer does not get it back. -/
theorem Stopped.keeps (hstopped : store.Stopped other) (htouches : store.Touches book next)
    (hbook : store.Stopped book → next.Stopped book) : next.Stopped other := by
  by_cases hother : other = book
  · rw [hother] at hstopped ⊢
    exact hbook hstopped
  · obtain ⟨run, hrun, hgone⟩ := hstopped
    exact ⟨run, (htouches.others other hother).trans hrun, hgone⟩

/-- An account that is open as asked for is found. -/
theorem Inv.call_same (hinv : store.Inv rt) {account : AccountDef} {cfg : AccountCfg}
    {existing : AccountState} (hflag : store.shutDown = false)
    (hnamed : validateBookName book = true) (hlive : store.Live book)
    (hopen : (store.accounts book).lookup account.id.toKey = some existing)
    (hsame : existing.account = account ∧ existing.cfg = cfg) (gone : String) (io : CallIo) :
    (store.call rt book (.openAccount account cfg) gone io).2 = .ok () := by
  obtain ⟨run, hrun, hstopped⟩ := hlive
  have hfind : store.bookWriter rt book io = (store, .ok run) := by
    rw [SoloStore.bookWriter, hflag, if_neg Bool.false_ne_true, if_pos hnamed, hrun]
  rw [SoloStore.accounts, hrun] at hopen
  have hreply := Run.submit_same (hinv book run hrun) hstopped hopen hsame io
  rw [SoloStore.call, hfind]
  dsimp only
  rw [hreply]

end SoloStore

end Talea.Log
