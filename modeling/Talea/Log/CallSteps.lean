import Talea.Log.Calls
import Talea.Log.JobSteps

/-!
# What one step of the store can do

Each function of the model is taken apart once.  A poll moves its call, and
beyond that it takes or gives back a lock, spawns a writer, sends a job, drains
the map or sets the flag; a writer changes its log, its state and the jobs.
-/

namespace Talea.Log

open LogTaleaStore

/-- The stages that a call enters and leaves with something else. -/
def Stage.Special : Stage → Prop
  | .creating => True
  | .draining => True
  | .joining _ => True
  | _ => False

/-- The stages that a call may enter just so. -/
def Stage.Plain : Stage → Prop
  | .fast | .slow | .creating | .draining | .joining _ | .finished _ => False
  | _ => True

namespace Call

theorem cached_eq_some {call : Call} {book : String} {result : Option ℕ}
    (hcached : call.cached book = some result) : result ∈ call.acquired := by
  unfold cached at hcached
  obtain ⟨pair, hfind, rfl⟩ := Option.map_eq_some_iff.1 hcached
  exact (List.of_mem_zip (List.mem_of_find?_eq_some hfind)).2

theorem mem_handles {call : Call} (hstage : ∀ writers, call.stage ≠ .joining writers)
    {writer : ℕ} : writer ∈ call.handles ↔ some writer ∈ call.acquired := by
  have hhandles : call.handles = call.acquired.filterMap id := by
    unfold handles
    cases hjoining : call.stage with
    | joining writers => exact absurd hjoining (hstage writers)
    | _ => rfl
  rw [hhandles, List.mem_filterMap]
  simp

end Call

/-- A call moves, and nothing else does. -/
inductive Moves (store : LogTaleaStore) (call : Call) : Call → Prop
  | go {stage : Stage} (hstage : stage.Plain) : Moves store call { call with stage }
  | looks {book : String} (htarget : call.target = some book)
      (hvalid : validateBookName book = true) : Moves store call { call with stage := .fast }
  | misses (hstage : call.stage = .fast) : Moves store call { call with stage := .slow }
  | finish {results : List (Option Answer)} : Moves store call (call.finish results)
  | acquire {result : Option ℕ}
      (hresult : ∀ writer, result = some writer →
        (∃ book, call.target = some book ∧ store.books.lookup book = some writer) ∨
          ∃ book, call.target = some book ∧ call.cached book = some (some writer)) :
      Moves store call (call.acquire result)
  | refuse : Moves store call { call with sent := call.sent ++ [none] }

/-- What the poll of a call can do. -/
inductive PollStep (store : LogTaleaStore) (id : ℕ) (call : Call) : LogTaleaStore → Prop
  | moves {next : Call} (hfrom : ¬ call.stage.Special) (hmove : Moves store call next) :
      PollStep store id call (store.setCall id next)
  | closes (hop : call.op = .shutdown) (hfrom : ¬ call.stage.Special) :
      PollStep store id call
        { store.setCall id { call with stage := .draining } with shutDown := true }
  | locksRegistry {asset : AssetDef} (hop : call.op = .registerAsset asset)
      (hstage : call.stage = .registry) (hfree : store.registryWriter = none)
      (hnew : store.registry.lookup asset.id = none) :
      PollStep store id call
        { store.setCall id { call with stage := .enter } with registryWriter := some id }
  | locksBooks {book : String} (hstage : call.stage = .slow) (hfree : store.booksWriter = none)
      (htarget : call.target = some book) (hmiss : store.books.lookup book = none) :
      PollStep store id call
        { store.setCall id { call with stage := .creating } with booksWriter := some id }
  | spawns {book : String} (hstage : call.stage = .creating) (htarget : call.target = some book) :
      PollStep store id call
        { (store.spawnBook book).setCall id (call.acquire (some store.writers.length)) with
          booksWriter := none }
  | spawnFails (hstage : call.stage = .creating) :
      PollStep store id call { store.setCall id (call.acquire none) with booksWriter := none }
  | submits {writer : ℕ} {book : String} {job : Job} (hstage : call.stage = .submitting)
      (hwriter : call.acquired[call.sent.length]? = some (some writer))
      (htarget : call.op.targets[call.sent.length]? = some (book, some job)) :
      PollStep store id call
        { store.setCall id { call with sent := call.sent ++ [some store.jobs.length] } with
          jobs := store.jobs ++ [⟨writer, job, .queued⟩] }
  | returns {idx : ℕ} (hstage : call.stage = .awaiting idx) (hlast : call.sent[idx]? = none) :
      PollStep store id call (store.returns id call)
  | drains {order : List String} (hstage : call.stage = .draining)
      (hfree : store.booksWriter = none) (hnodup : order.Nodup)
      (hkeys : order.toFinset = store.books.keys) :
      PollStep store id call
        { store.setCall id
            { call with stage := .joining (order.filterMap fun book => store.books.lookup book) }
          with books := ∅ }
  | joins {writer : ℕ} {rest : List ℕ} (hstage : call.stage = .joining (writer :: rest)) :
      PollStep store id call (store.setCall id { call with stage := .joining rest })
  | unlocks (hstage : call.stage = .joining []) :
      PollStep store id call { store.setCall id (call.finish []) with locked := false }

section Polls

variable {store next : LogTaleaStore} {id : ℕ} {call : Call} {io : PollIo}

theorem pollStep_of_pollStart (hfrom : call.stage = .start) :
    PollStep store id call (store.pollStart id call) := by
  have hplain : ¬ call.stage.Special := by simp [hfrom, Stage.Special]
  unfold pollStart
  split
  · split
    · exact .moves hplain .finish
    · exact .moves hplain (.go (by trivial))
  · split
    · exact .moves hplain .finish
    · exact .moves hplain (.go (by trivial))
  · next hop => exact .closes hop hplain
  · exact .moves hplain (.go (by trivial))

theorem pollStep_of_pollRegistry (hfrom : call.stage = .registry)
    (hpoll : store.pollRegistry id call = some next) : PollStep store id call next := by
  have hplain : ¬ call.stage.Special := by simp [hfrom, Stage.Special]
  unfold pollRegistry at hpoll
  split at hpoll
  · cases hpoll
  next hfree =>
  have hfree : store.registryWriter = none := by simpa using hfree
  split at hpoll
  · split at hpoll
    · cases hpoll
      exact .moves hplain (.go (by trivial))
    · cases hpoll
      exact .moves hplain .finish
  · next asset hop =>
      cases hlookup : store.registry.lookup asset.id with
      | some existing =>
          rw [hlookup] at hpoll
          dsimp only at hpoll
          split at hpoll
          · cases hpoll
            exact .moves hplain .finish
          · cases hpoll
            exact .moves hplain .finish
      | none =>
          rw [hlookup] at hpoll
          cases hpoll
          exact .locksRegistry hop hfrom hfree hlookup
  · cases hpoll

theorem moves_afterAcquire : Moves store call (store.afterAcquire call) := by
  unfold afterAcquire
  split
  · exact .go (by trivial)
  · exact .finish
  · exact .go (by trivial)
  · exact .finish
  · exact .go (by trivial)

theorem pollStep_of_pollEnter (hfrom : call.stage = .enter) :
    PollStep store id call (store.pollEnter id call) := by
  have hplain : ¬ call.stage.Special := by simp [hfrom, Stage.Special]
  unfold pollEnter
  cases htarget : call.target with
  | none => exact .moves hplain moves_afterAcquire
  | some book =>
      dsimp only
      cases hcached : call.cached book with
      | some result =>
          refine .moves hplain (.acquire fun writer hwriter => Or.inr ⟨book, htarget, ?_⟩)
          rw [hcached, hwriter]
      | none =>
          dsimp only
          split
          · exact .moves hplain (.acquire nofun)
          · next hchecked =>
              have hvalid : validateBookName book = true := by simpa using (not_or.1 hchecked).2
              exact .moves hplain (.looks htarget hvalid)

theorem pollStep_of_pollFast (hfrom : call.stage = .fast)
    (hpoll : store.pollFast id call = some next) : PollStep store id call next := by
  have hplain : ¬ call.stage.Special := by simp [hfrom, Stage.Special]
  unfold pollFast at hpoll
  split at hpoll
  · cases hpoll
  cases htarget : call.target with
  | none => simp [htarget] at hpoll
  | some book =>
      rw [htarget] at hpoll
      dsimp only at hpoll
      cases hlookup : store.books.lookup book with
      | some writer =>
          rw [hlookup] at hpoll
          cases hpoll
          refine .moves hplain (.acquire fun other hother => Or.inl ⟨book, htarget, ?_⟩)
          rw [hlookup, hother]
      | none =>
          rw [hlookup] at hpoll
          dsimp only at hpoll
          split at hpoll
          · cases hpoll
            exact .moves hplain (.misses hfrom)
          · cases hpoll
            exact .moves hplain (.acquire nofun)

theorem pollStep_of_pollSlow (hfrom : call.stage = .slow)
    (hpoll : store.pollSlow id call = some next) : PollStep store id call next := by
  have hplain : ¬ call.stage.Special := by simp [hfrom, Stage.Special]
  unfold pollSlow at hpoll
  split at hpoll
  · cases hpoll
  next hfree =>
  have hfree : store.booksWriter = none := by simpa using hfree
  cases htarget : call.target with
  | none => simp [htarget] at hpoll
  | some book =>
      rw [htarget] at hpoll
      dsimp only at hpoll
      cases hlookup : store.books.lookup book with
      | some writer =>
          rw [hlookup] at hpoll
          cases hpoll
          refine .moves hplain (.acquire fun other hother => Or.inl ⟨book, htarget, ?_⟩)
          rw [hlookup, hother]
      | none =>
          rw [hlookup] at hpoll
          cases hpoll
          exact .locksBooks hfrom hfree htarget hlookup

theorem pollStep_of_pollCreating (hfrom : call.stage = .creating)
    (hpoll : store.pollCreating id call io = some next) : PollStep store id call next := by
  unfold pollCreating at hpoll
  cases htarget : call.target with
  | none => simp [htarget] at hpoll
  | some book =>
      rw [htarget] at hpoll
      dsimp only at hpoll
      split at hpoll
      · cases hpoll
        exact .spawns hfrom htarget
      · cases hpoll
        exact .spawnFails hfrom

theorem pollStep_of_pollSubmitting (hfrom : call.stage = .submitting)
    (hpoll : store.pollSubmitting id call = some next) : PollStep store id call next := by
  have hplain : ¬ call.stage.Special := by simp [hfrom, Stage.Special]
  unfold pollSubmitting at hpoll
  dsimp only at hpoll
  split at hpoll
  · next writer book job hwriter htarget =>
      split at hpoll
      · cases hpoll
        exact .moves hplain .refuse
      · split at hpoll
        · cases hpoll
          exact .submits hfrom hwriter htarget
        · cases hpoll
  · cases hpoll
    exact .moves hplain .refuse
  · cases hpoll
    exact .moves hplain (.go (by trivial))

theorem pollStep_of_pollAwaiting {idx : ℕ} (hfrom : call.stage = .awaiting idx)
    (hpoll : store.pollAwaiting id call idx = some next) : PollStep store id call next := by
  have hplain : ¬ call.stage.Special := by simp [hfrom, Stage.Special]
  unfold pollAwaiting at hpoll
  split at hpoll
  · next hlast =>
      cases hpoll
      exact .returns hfrom hlast
  · cases hpoll
    exact .moves hplain (.go (by trivial))
  · split at hpoll
    · cases hpoll
      exact .moves hplain (.go (by trivial))
    · cases hpoll

theorem pollStep_of_pollTailing {received : ℕ} (hfrom : call.stage = .tailing received)
    (hpoll : store.pollTailing id call received = some next) : PollStep store id call next := by
  have hplain : ¬ call.stage.Special := by simp [hfrom, Stage.Special]
  unfold pollTailing at hpoll
  split at hpoll
  · dsimp only at hpoll
    split at hpoll
    · cases hpoll
      exact .moves hplain (.go (by trivial))
    · cases hpoll
  · cases hpoll

theorem pollStep_of_pollDraining (hfrom : call.stage = .draining)
    (hpoll : store.pollDraining id call io = some next) : PollStep store id call next := by
  unfold pollDraining at hpoll
  split at hpoll
  · cases hpoll
  next hfree =>
  have hfree : store.booksWriter = none := by simpa using hfree
  split at hpoll
  · next hkeys =>
      cases hpoll
      exact .drains hfrom hfree hkeys.1 hkeys.2
  · cases hpoll

theorem pollStep_of_pollJoining {writers : List ℕ} (hfrom : call.stage = .joining writers)
    (hpoll : store.pollJoining id call writers = some next) : PollStep store id call next := by
  unfold pollJoining at hpoll
  split at hpoll
  · cases hpoll
    exact .unlocks hfrom
  · split at hpoll
    · cases hpoll
      exact .joins hfrom
    · cases hpoll

/-- Everything the poll of a call can do. -/
theorem poll_cases (hpoll : store.poll id io = some next) :
    ∃ call, store.calls.lookup id = some call ∧ PollStep store id call next := by
  unfold poll at hpoll
  cases hcall : store.calls.lookup id with
  | none => simp [hcall] at hpoll
  | some call =>
      rw [hcall] at hpoll
      refine ⟨call, rfl, ?_⟩
      dsimp only at hpoll
      cases hstage : call.stage with
      | start =>
          rw [hstage] at hpoll
          cases hpoll
          exact pollStep_of_pollStart hstage
      | registry =>
          rw [hstage] at hpoll
          exact pollStep_of_pollRegistry hstage hpoll
      | enter =>
          rw [hstage] at hpoll
          cases hpoll
          exact pollStep_of_pollEnter hstage
      | fast =>
          rw [hstage] at hpoll
          exact pollStep_of_pollFast hstage hpoll
      | slow =>
          rw [hstage] at hpoll
          exact pollStep_of_pollSlow hstage hpoll
      | creating =>
          rw [hstage] at hpoll
          exact pollStep_of_pollCreating hstage hpoll
      | reading =>
          rw [hstage] at hpoll
          cases hpoll
          exact .moves (by simp [hstage, Stage.Special]) .finish
      | paging received =>
          rw [hstage] at hpoll
          cases hpoll
          exact .moves (by simp [hstage, Stage.Special]) (.go (by trivial))
      | tailing received =>
          rw [hstage] at hpoll
          exact pollStep_of_pollTailing hstage hpoll
      | submitting =>
          rw [hstage] at hpoll
          exact pollStep_of_pollSubmitting hstage hpoll
      | awaiting idx =>
          rw [hstage] at hpoll
          exact pollStep_of_pollAwaiting hstage hpoll
      | draining =>
          rw [hstage] at hpoll
          exact pollStep_of_pollDraining hstage hpoll
      | joining writers =>
          rw [hstage] at hpoll
          exact pollStep_of_pollJoining hstage hpoll
      | finished results => simp [hstage] at hpoll

theorem call_cases {op : Op} (hcall : store.step (.call id op) = some next) :
    store.calls.lookup id = none ∧ next = store.setCall id (.new op) := by
  unfold step at hcall
  dsimp only at hcall
  split at hcall
  · cases hcall
  · next habsent => exact ⟨Finmap.lookup_eq_none.2 habsent, (Option.some.inj hcall).symm⟩

theorem cancel_cases (hcancel : store.cancel id = some next) :
    ∃ call, store.calls.lookup id = some call ∧
      next = { store.setCall id (call.finish []) with
        booksWriter := if store.booksWriter = some id then none else store.booksWriter
        registryWriter :=
          if store.registryWriter = some id then none else store.registryWriter } := by
  unfold cancel at hcancel
  cases hcall : store.calls.lookup id with
  | none => simp [hcall] at hcancel
  | some call =>
      rw [hcall] at hcancel
      exact ⟨call, rfl, (Option.some.inj hcancel).symm⟩

end Polls

/-! ## Writers -/

section Writers

variable {store next : LogTaleaStore} {writer : ℕ}

theorem live_eq_some {task : WriterTask} :
    store.live writer = some task ↔ store.writers[writer]? = some task ∧ task.exited = false := by
  simp [live, Option.filter_eq_some_iff]

theorem take_cases {count : ℕ} (htake : store.take writer count = some next) :
    next = { store with jobs := takeJobs writer count store.jobs } ∧
      ∀ sent ∈ store.jobs, ¬ sent.isTaken writer ∧ ¬ sent.isWritten writer := by
  obtain ⟨task, -, hnext⟩ := Option.bind_eq_some_iff.1 htake
  split at hnext
  · next henabled => exact ⟨(Option.some.inj hnext).symm, henabled.2.2.2⟩
  · cases hnext

/-- A batch that is classified can be applied, so a writer dies in one only
before anything of it is written. -/
theorem write_cases {io : WriteIo} (hwrite : store.write writer io = some next) :
    ∃ task, store.live writer = some task ∧ (∃ sent ∈ store.jobs, sent.isTaken writer) ∧
      (next = store.kill writer task [] ∨
        ∃ batch state,
          classify task.state io.resolved io.startNow (store.batchJobs writer io) = .ok batch ∧
          applyStaged task.state batch.staged = .ok state ∧
          next = { (store.append task.dir batch.wires).setWriter writer
              { task with state, unpublished := batch.staged.length } with
            jobs := writeJobs writer store.jobs
              (batchAnswers io (store.batchJobs writer io) batch) }) := by
  obtain ⟨task, hlive, hnext⟩ := Option.bind_eq_some_iff.1 hwrite
  dsimp only at hnext
  split at hnext
  · next htaken =>
    refine ⟨task, hlive, htaken, ?_⟩
    cases hbatch : classify task.state io.resolved io.startNow (store.batchJobs writer io) with
    | error message =>
        rw [hbatch] at hnext
        exact Or.inl (Option.some.inj hnext).symm
    | ok batch =>
        obtain ⟨state, happly, -⟩ := (applies_classify hbatch).applied
        rw [hbatch] at hnext
        dsimp only at hnext
        rw [happly] at hnext
        exact Or.inr ⟨batch, state, rfl, happly, (Option.some.inj hnext).symm⟩
  · cases hnext

theorem fail_cases {io : WriteIo} {kept : ℕ} (hfail : store.fail writer io kept = some next) :
    ∃ task wires, store.live writer = some task ∧ (∃ sent ∈ store.jobs, sent.isTaken writer) ∧
      next = store.kill writer task wires ∧
      (wires = [] ∨ ∃ batch,
        classify task.state io.resolved io.startNow (store.batchJobs writer io) = .ok batch ∧
        wires = batch.wires.take kept) := by
  obtain ⟨task, hlive, hnext⟩ := Option.bind_eq_some_iff.1 hfail
  split at hnext
  · next htaken =>
    cases hbatch : classify task.state io.resolved io.startNow (store.batchJobs writer io) with
    | error message =>
        rw [hbatch] at hnext
        exact ⟨task, [], hlive, htaken, (Option.some.inj hnext).symm, Or.inl rfl⟩
    | ok batch =>
        rw [hbatch] at hnext
        exact ⟨task, _, hlive, htaken, (Option.some.inj hnext).symm,
          Or.inr ⟨batch, hbatch, rfl⟩⟩
  · cases hnext

theorem answer_cases (hanswer : store.answer writer = some next) :
    ∃ task, store.live writer = some task ∧
      next = { store.setWriter writer
          { task with published := task.published + task.unpublished, unpublished := 0 } with
        jobs := store.jobs.map (answerJob writer) } := by
  obtain ⟨task, hlive, hnext⟩ := Option.bind_eq_some_iff.1 hanswer
  refine ⟨task, hlive, ?_⟩
  split at hnext
  · exact (Option.some.inj hnext).symm
  · cases hnext

theorem exit_cases (hexit : store.exit writer = some next) :
    ∃ task, store.live writer = some task ∧ store.Idle writer ∧ ¬ store.HasSender writer ∧
      next = store.setWriter writer { task with exited := true } := by
  obtain ⟨task, hlive, hnext⟩ := Option.bind_eq_some_iff.1 hexit
  split at hnext
  · next henabled =>
      exact ⟨task, hlive, henabled.1, henabled.2, (Option.some.inj hnext).symm⟩
  · cases hnext

end Writers

/-! ## Opening -/

section Opening

variable {store final : LogTaleaStore} {skipped : String → ℕ} {order : List String}

/-- The task that `openBook` starts for a directory. -/
def StartsOn (store : LogTaleaStore) (dir : String) (task : WriterTask) : Prop :=
  ∃ state, BookState.initial.replay ((store.log dir).map fun wire => (wire, (0, 0))) = .ok state ∧
    task = .spawn dir state

theorem map_dir_of_startsOn {tasks : List WriterTask}
    (htasks : List.Forall₂ (StartsOn store) order tasks) : tasks.map WriterTask.dir = order := by
  induction htasks with
  | nil => rfl
  | cons hhead hrest ih =>
      obtain ⟨state, -, rfl⟩ := hhead
      rw [List.map_cons, ih]
      rfl

theorem startsOn_of_mem {tasks : List WriterTask}
    (htasks : List.Forall₂ (StartsOn store) order tasks) {task : WriterTask}
    (hmem : task ∈ tasks) : StartsOn store task.dir task := by
  induction htasks with
  | nil => cases hmem
  | @cons dir head order tasks hhead hrest ih =>
      rcases List.mem_cons.1 hmem with rfl | hlater
      · obtain ⟨state, hstate, rfl⟩ := hhead
        exact ⟨state, hstate, rfl⟩
      · exact ih hlater

/-- The registry behind the opening of directories in turn. -/
def registryOf (store : LogTaleaStore) (skipped : String → ℕ) (order : List String) :
    HashMap AssetId AssetDef :=
  order.foldl
    (fun registry dir => register registry (registrations ((store.log dir).drop (skipped dir))))
    store.registry

theorem openBooks_cases
    (hopen : order.foldlM (openBook · skipped) store = .ok final) :
    ∃ tasks books,
      final = { store with
        books
        writers := store.writers ++ tasks
        registry := registryOf store skipped order } ∧
      List.Forall₂ (StartsOn store) order tasks ∧
      (∀ dir, dir ∈ store.books ∨ dir ∈ order → dir ∈ books) ∧
      ∀ book writer, books.lookup book = some writer →
        store.books.lookup book = some writer ∨
          ∃ idx, order[idx]? = some book ∧ writer = store.writers.length + idx := by
  induction order generalizing store with
  | nil =>
      cases hopen
      exact ⟨[], final.books, by simp [registryOf], .nil, fun _ h => h.resolve_right nofun,
        fun _ _ h => Or.inl h⟩
  | cons dir order ih =>
      rw [List.foldlM_cons, Except.bind_eq_ok] at hopen
      obtain ⟨mid, hdir, hrest⟩ := hopen
      obtain ⟨state, hstate, rfl⟩ := Except.map_eq_ok.1 hdir
      obtain ⟨tasks, books, hfinal, htasks, hnames, hbooks⟩ := ih hrest
      refine ⟨.spawn dir state :: tasks, books, ?_, .cons ⟨state, hstate, rfl⟩ htasks, ?_, ?_⟩
      · rw [hfinal, registryOf, registryOf, List.foldl_cons]
        simp only [List.append_assoc, List.singleton_append]
        rfl
      · intro name hname
        refine hnames name ?_
        rcases hname with hbefore | hin
        · exact Or.inl (Finmap.mem_insert.2 (Or.inr hbefore))
        · exact (List.mem_cons.1 hin).imp (fun heq => Finmap.mem_insert.2 (Or.inl heq)) fun h => h
      · intro book writer hlookup
        rcases hbooks book writer hlookup with hbefore | ⟨idx, hidx, hwriter⟩
        · rw [HashMap.lookup_insert_ite] at hbefore
          split at hbefore
          · next heq =>
              cases hbefore
              exact Or.inr ⟨0, by rw [heq]; rfl, rfl⟩
          · exact Or.inl hbefore
        · refine Or.inr ⟨idx + 1, hidx, ?_⟩
          rw [hwriter, List.length_append, List.length_singleton]
          omega

theorem restart_cases (hrestart : store.restart order skipped = some final) :
    ∃ tasks books, order.Nodup ∧ order.toFinset = store.logs.keys.erase "" ∧
      final = { onLogs store.logs with
        books
        writers := tasks
        registry := registryOf (onLogs store.logs) skipped order } ∧
      List.Forall₂ (StartsOn store) order tasks ∧ (∀ dir ∈ order, dir ∈ books) ∧
      ∀ book writer, books.lookup book = some writer → order[writer]? = some book := by
  unfold restart at hrestart
  split at hrestart
  · next horder =>
      cases hopen : order.foldlM (openBook · skipped) (onLogs store.logs) with
      | error message => simp [hopen, Except.toOption] at hrestart
      | ok opened =>
          rw [hopen] at hrestart
          cases hrestart
          obtain ⟨tasks, books, hfinal, htasks, hnames, hbooks⟩ := openBooks_cases hopen
          refine ⟨tasks, books, horder.1, horder.2, hfinal, htasks,
            fun dir hin => hnames dir (Or.inr hin), fun book writer hlookup => ?_⟩
          rcases hbooks book writer hlookup with hnone | ⟨idx, hidx, hwriter⟩
          · simp [onLogs] at hnone
          · rw [hwriter]
            simpa [onLogs] using hidx
  · cases hrestart

end Opening

end Talea.Log
