import Talea.Log.Reopening

/-!
# The invariant of runs

Every action keeps the invariant of the book, and with it what the outside has
seen: an answered commit and a published event are in the log, and stay there.
A background snapshot may be written long after its state was current, into the
directory of a book that was reopened meanwhile.
-/

namespace Talea.Log

variable {rt : Runtime} {saved : List BookState}

/-! ## Books with and without a writer -/

def Status.Inv (rt : Runtime) (saved : List BookState) : Status → Prop
  | .live writer => WriterInv rt writer saved
  | .stopped disk => DiskInv rt disk saved disk.runs.HasAny

theorem Status.Inv.diskInv {status : Status} (hinv : status.Inv rt saved) :
    DiskInv rt status.disk saved status.disk.runs.HasAny := by
  cases status with
  | live writer => exact WriterInv.diskInv hinv
  | stopped disk => exact hinv

theorem DiskInv.withSnaps {disk : Disk} {has : String × Committed → Prop}
    (hinv : DiskInv rt disk saved has) {snaps : SnapDir}
    (hsnaps : snaps.Valid (logEvents rt disk.segments) has) :
    DiskInv rt ⟨disk.segments, disk.runs, snaps⟩ saved has :=
  ⟨hinv.stored, hinv.log_valid, hinv.runs_hold, hsnaps, hinv.saved_valid⟩

/-- Writing the snapshot of a state that was saved earlier. -/
theorem DiskInv.writeSnapshot {disk : Disk} {has : String × Committed → Prop}
    (hinv : DiskInv rt disk saved has) {task : SnapshotTask} (hsaved : task.state ∈ saved)
    (hseq : task.seq = task.state.nextSeq - 1) (io : SnapIo) :
    DiskInv rt ⟨disk.segments, disk.runs, (writeSnapshot io disk.snaps task.state task.seq).2⟩
      saved has := by
  obtain ⟨count, hcount⟩ := hinv.saved_valid task.state hsaved
  refine hinv.withSnaps (hinv.snaps_valid.writeSnapshot hcount io ?_)
  rw [hseq, hcount.nextSeq_eq]
  ring

theorem Status.Inv.writeSnapshot {status : Status} (hinv : status.Inv rt saved)
    {task : SnapshotTask} (hsaved : task.state ∈ saved)
    (hseq : task.seq = task.state.nextSeq - 1) (io : SnapIo) :
    (status.withSnaps (Log.writeSnapshot io status.disk.snaps task.state task.seq).2).Inv rt
      saved := by
  cases status with
  | live writer =>
      have hwriter : WriterInv rt writer saved := hinv
      exact ⟨hwriter.disk.writeSnapshot hsaved hseq io, hwriter.holds, hwriter.ledger,
        hwriter.index⟩
  | stopped disk => exact DiskInv.writeSnapshot hinv hsaved hseq io

theorem Status.Inv.clearInflight {status : Status} (hinv : status.Inv rt saved) :
    status.clearInflight.Inv rt saved := by
  cases status with
  | live writer =>
      have hwriter : WriterInv rt writer saved := hinv
      exact ⟨hwriter.disk, hwriter.holds, hwriter.ledger, hwriter.index⟩
  | stopped disk => exact hinv

@[simp]
theorem Status.disk_clearInflight (status : Status) : status.clearInflight.disk = status.disk := by
  cases status <;> rfl

@[simp]
theorem Status.disk_withSnaps (status : Status) (snaps : SnapDir) :
    (status.withSnaps snaps).disk = ⟨status.disk.segments, status.disk.runs, snaps⟩ := by
  cases status <;> rfl

/-! ## The invariant -/

structure RunInv (rt : Runtime) (run : Run) : Prop where
  book : run.status.Inv rt run.boundaries
  tasks : ∀ task ∈ run.tasks,
    task.1.state ∈ run.boundaries ∧ task.1.seq = task.1.state.nextSeq - 1
  answered : ∀ pair ∈ run.answered, pair ∈ logCommits (run.log rt)
  published : ∀ ev ∈ run.published, ev ∈ run.events rt

variable {run : Run}

theorem RunInv.logValid (hinv : RunInv rt run) : LogValid (run.log rt) :=
  hinv.book.diskInv.log_valid

/-- A step that only adds to the log keeps what the outside has seen true. -/
def Run.Grows (rt : Runtime) (run next : Run) : Prop :=
  run.log rt <+: next.log rt

theorem Run.Grows.refl (run : Run) : run.Grows rt run :=
  List.prefix_rfl

theorem Run.Grows.of_log_eq {next : Run} (heq : next.log rt = run.log rt) :
    run.Grows rt next := by
  rw [Run.Grows, heq]

theorem Run.Grows.commits {next : Run} (hgrows : run.Grows rt next)
    {pair : String × Committed} (hpair : pair ∈ logCommits (run.log rt)) :
    pair ∈ logCommits (next.log rt) := by
  obtain ⟨extra, hextra⟩ := hgrows
  rw [← hextra, logCommits_append]
  exact List.mem_append_left _ hpair

theorem Run.Grows.events {next : Run} (hgrows : run.Grows rt next)
    {ev : WireEvent} (hev : ev ∈ run.events rt) : ev ∈ next.events rt := by
  obtain ⟨extra, hextra⟩ := hgrows
  unfold Run.events at hev ⊢
  rw [← hextra, List.map_append]
  exact List.mem_append_left _ hev

/-- A step that answers and publishes nothing. -/
theorem RunInv.of_silent {next : Run} (hinv : RunInv rt run) (hgrows : run.Grows rt next)
    (hbook : next.status.Inv rt next.boundaries) (hboundaries : next.boundaries = run.boundaries)
    (htasks : ∀ task ∈ next.tasks, ∃ own, (task.1, own) ∈ run.tasks)
    (hanswered : next.answered = run.answered) (hpublished : next.published = run.published) :
    RunInv rt next where
  book := hbook
  tasks task htask := by
    obtain ⟨own, hown⟩ := htasks task htask
    rw [hboundaries]
    exact hinv.tasks (task.1, own) hown
  answered := by
    rw [hanswered]
    exact fun pair hpair => hgrows.commits (hinv.answered pair hpair)
  published := by
    rw [hpublished]
    exact fun ev hev => hgrows.events (hinv.published ev hev)

/-! ## One step for each action -/

theorem RunInv.stop (hinv : RunInv rt run) {writer : Writer} (hlive : run.status = .live writer)
    {left : SegmentSet} (hleft : Killed rt writer run.boundaries left) :
    RunInv rt (run.stop writer left) ∧ run.Grows rt (run.stop writer left) := by
  have hgrows : run.Grows rt (run.stop writer left) := by
    obtain ⟨extra, hextra⟩ := hleft.log_eq
    refine ⟨extra, ?_⟩
    rw [Run.log, hlive]
    exact hextra.symm
  exact ⟨hinv.of_silent hgrows hleft.inv rfl (fun task htask => ⟨task.2, htask⟩) rfl rfl, hgrows⟩

/-- The end of a batch, however its jobs were classified. -/
theorem RunInv.conclude (hinv : RunInv rt run) {writer : Writer}
    (hlive : run.status = .live writer) {input : BatchInput} {batch : BatchResult}
    (hspec : match batch with
      | .killed left => Killed rt writer run.boundaries left
      | .done result => ∃ placed, result.Spec rt writer run.boundaries input.jobs placed) :
    RunInv rt (run.conclude writer input batch) ∧
      run.Grows rt (run.conclude writer input batch) := by
  cases batch with
  | killed left => exact hinv.stop hlive hspec
  | done result =>
  obtain ⟨placed, hresult⟩ := hspec
  have hlog : run.log rt = logEvents rt writer.segments.files := by
    rw [Run.log, hlive]
    rfl
  have hgrows : run.Grows rt (run.conclude writer input (.done result)) := by
    refine ⟨placed, ?_⟩
    rw [hlog]
    exact hresult.log_eq.symm
  refine ⟨⟨hresult.inv, ?_, ?_, ?_⟩, hgrows⟩
  · intro task htask
    rcases List.mem_append.1 htask with hold | hnew
    · obtain ⟨hmem, hseq⟩ := hinv.tasks task hold
      exact ⟨List.mem_append_left _ hmem, hseq⟩
    · obtain ⟨started, hstarted, rfl⟩ := List.mem_map.1 hnew
      obtain ⟨hstate, hseq⟩ := hresult.task started (by simpa using hstarted)
      exact ⟨List.mem_append_right _ (by simp [hstate]), by rw [hseq, hstate]⟩
  · intro pair hpair
    rcases List.mem_append.1 hpair with hold | hnew
    · exact hgrows.commits (hinv.answered pair hold)
    · exact hresult.answered pair hnew
  · intro ev hev
    rcases List.mem_append.1 hev with hold | hnew
    · exact hgrows.events (hinv.published ev hold)
    · have hplaced := hresult.published ev hnew
      change ev ∈ (logEvents rt result.writer.segments.files).map Prod.fst
      rw [hresult.log_eq, List.map_append]
      exact List.mem_append_right _ hplaced

theorem RunInv.batch (hinv : RunInv rt run) (input : BatchInput) :
    RunInv rt (run.batch rt input) ∧ run.Grows rt (run.batch rt input) := by
  rw [Run.batch_eq_conclude]
  split
  · exact ⟨hinv, .refl run⟩
  next writer hlive =>
  have hwriter : WriterInv rt writer run.boundaries := by
    have hbook := hinv.book
    rwa [hlive] at hbook
  exact hinv.conclude hlive (hwriter.batch input)

theorem RunInv.failStop (hinv : RunInv rt run) (input : BatchInput) (point : ℕ) :
    RunInv rt (run.failStop rt input point) ∧ run.Grows rt (run.failStop rt input point) := by
  unfold Run.failStop
  split
  · exact ⟨hinv, .refl run⟩
  next writer hlive =>
  split
  · exact ⟨hinv, .refl run⟩
  next left hleft =>
  have hwriter : WriterInv rt writer run.boundaries := by
    have hbook := hinv.book
    rwa [hlive] at hbook
  exact hinv.stop hlive (hwriter.batchTrace (List.mem_of_getElem? hleft))

theorem RunInv.land (hinv : RunInv rt run) (idx : ℕ) (io : SnapIo) :
    RunInv rt (run.land idx io) ∧ run.Grows rt (run.land idx io) := by
  unfold Run.land
  split
  · exact ⟨hinv, .refl run⟩
  next task own htask =>
  obtain ⟨hsaved, hseq⟩ := hinv.tasks _ (List.mem_of_getElem? htask)
  have hbook := hinv.book.writeSnapshot hsaved hseq io
  have htasks : ∀ other ∈ run.tasks.eraseIdx idx, ∃ own, (other.1, own) ∈ run.tasks :=
    fun other hother => ⟨other.2, List.mem_of_mem_eraseIdx hother⟩
  cases own with
  | false =>
      have hgrows : run.Grows rt { run with
          status := run.status.withSnaps
            (writeSnapshot io run.status.disk.snaps task.state task.seq).2
          tasks := run.tasks.eraseIdx idx } := .of_log_eq (by simp [Run.log])
      exact ⟨hinv.of_silent hgrows hbook rfl htasks rfl rfl, hgrows⟩
  | true =>
      have hgrows : run.Grows rt { run with
          status := (run.status.withSnaps
            (writeSnapshot io run.status.disk.snaps task.state task.seq).2).clearInflight
          tasks := run.tasks.eraseIdx idx } := .of_log_eq (by simp [Run.log])
      exact ⟨hinv.of_silent hgrows hbook.clearInflight rfl htasks rfl rfl, hgrows⟩

theorem RunInv.reopen (hinv : RunInv rt run) (opts : LogStoreOptions) (io : SpillIo) :
    RunInv rt (run.reopen rt opts io) ∧ run.Grows rt (run.reopen rt opts io) := by
  obtain ⟨opened, hopen, hspec⟩ := hinv.book.diskInv.openBook opts io
  unfold Run.reopen
  rw [hopen]
  have hgrows : run.Grows rt
      { run with
        status := .live opened.writer
        tasks := run.tasks.map fun task => (task.1, false) } := .of_log_eq hspec.log_eq
  refine ⟨hinv.of_silent hgrows hspec.inv rfl (fun task htask => ?_) rfl rfl, hgrows⟩
  obtain ⟨old, hold, rfl⟩ := List.mem_map.1 htask
  exact ⟨old.2, hold⟩

/-- Every action keeps the invariant and the log. -/
theorem RunInv.step (hinv : RunInv rt run) (action : Action) :
    RunInv rt (run.step rt action) ∧ run.Grows rt (run.step rt action) := by
  cases action with
  | batch input => exact hinv.batch input
  | failStop input point => exact hinv.failStop input point
  | land task io => exact hinv.land task io
  | reopen opts io => exact hinv.reopen opts io

/-! ## Whole runs -/

theorem Run.status_create (rt : Runtime) (opts : LogStoreOptions) (io : SpillIo) :
    ∃ writer, (Run.create rt opts io).status = .live writer ∧ WriterInv rt writer [] ∧
      logEvents rt writer.segments.files = [] ∧ writer.segments.Synced := by
  obtain ⟨writer, hcreate, hspec⟩ := createBook_spec rt opts io
  exact ⟨writer, by rw [Run.create, hcreate], hspec⟩

theorem RunInv.create (rt : Runtime) (opts : LogStoreOptions) (io : SpillIo) :
    RunInv rt (Run.create rt opts io) := by
  obtain ⟨writer, hlive, hinv, -⟩ := Run.status_create rt opts io
  refine ⟨?_, ?_, ?_, ?_⟩
  · rw [hlive]
    exact hinv
  all_goals simp [Run.create]

/-- The steps of a run, one after the other. -/
theorem RunInv.foldl (hinv : RunInv rt run) (actions : List Action) :
    RunInv rt (actions.foldl (Run.step rt) run) ∧
      run.log rt <+: (actions.foldl (Run.step rt) run).log rt := by
  induction actions generalizing run with
  | nil => exact ⟨hinv, List.prefix_rfl⟩
  | cons action actions ih =>
      obtain ⟨hnext, hgrows⟩ := hinv.step action
      obtain ⟨hlast, hrest⟩ := ih hnext
      exact ⟨hlast, hgrows.trans hrest⟩

/-- Every run of a book keeps the invariant. -/
theorem RunInv.exec (rt : Runtime) (opts : LogStoreOptions) (io : SpillIo)
    (actions : List Action) : RunInv rt (Run.exec rt opts io actions) :=
  ((RunInv.create rt opts io).foldl actions).1

end Talea.Log
