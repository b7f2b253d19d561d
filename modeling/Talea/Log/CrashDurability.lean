import Talea.Log.Crash
import Talea.Log.ExactlyOnce
import Talea.Log.SnapshotReplay

/-!
# Durability across crashes

Between two batches every byte of the log is synced, so a crash can only take
events away that nobody was told about.  What it leaves is a first part of the
log that was written, with everything acknowledged in it, and the book opens
again from there.
-/

namespace Talea.Log

variable {rt : Runtime} {saved : List BookState}

def Disk.Synced (disk : Disk) : Prop :=
  ∀ segment ∈ disk.segments, segment.synced = segment.bytes.length

/-! ## What a crash leaves -/

/-- The files after a crash: the invariant, every byte on disk, and between the
old log and the one that was written. -/
structure Survived (rt : Runtime) (saved : List BookState) (old written : Disk)
    (left : Disk) : Prop where
  inv : DiskInv rt left saved left.runs.HasAny
  synced : left.Synced
  old_isPrefix : logEvents rt old.segments <+: logEvents rt left.segments
  prefix_written : logEvents rt left.segments <+: logEvents rt written.segments

theorem DiskInv.of_subset {disk : Disk} {fewer : List BookState} {has : String × Committed → Prop}
    (hinv : DiskInv rt disk saved has) (hsub : ∀ state ∈ fewer, state ∈ saved) :
    DiskInv rt disk fewer has :=
  ⟨hinv.stored, hinv.log_valid, hinv.runs_hold, hinv.snaps_valid,
    fun state hstate => hinv.saved_valid state (hsub state hstate)⟩

/-- An interrupted batch of a writer whose log was synced. -/
theorem Killed.survive {writer : Writer} (hinv : WriterInv rt writer saved)
    (hsynced : writer.segments.Synced) {left : SegmentSet}
    (hkilled : Killed rt writer saved left) (keep : Int → ℕ) :
    Survived rt saved writer.disk ⟨left.files, writer.runs, writer.snaps⟩
      (Disk.survive keep ⟨left.files, writer.runs, writer.snaps⟩) := by
  have hdurable := hkilled.durable _ (hinv.holds.durable_of_synced hsynced)
  rw [Disk.survive_segments hdurable]
  obtain ⟨events, tail, before, last, -, hstored⟩ :
      ∃ events tail before last, before ++ last = events ∧
        Stored rt left.sealed left.active before last tail := by
    obtain ⟨events, tail, hholds⟩ := hkilled.stored
    obtain ⟨before, last, hevents, hstored⟩ := hholds.stored
    exact ⟨events, tail, before, last, hevents, hstored⟩
  obtain ⟨kept, rest, -, hsurvive⟩ := hstored.survive keep
  obtain ⟨extra, hextra⟩ := hkilled.log_eq
  change logEvents rt (left.sealed ++ [left.active]) = _ at hextra
  have hwritten := hstored.logEvents_survive_isPrefix keep
  have hacked := hdurable.survive keep
  -- the old log survives with its positions, as both are first parts of what was written
  have hold : logEvents rt writer.segments.files <+:
      logEvents rt (left.sealed ++ [left.active.survive keep]) := by
    refine List.prefix_of_prefix_length_le ?_ hwritten ?_
    · rw [hextra]
      exact List.prefix_append _ _
    · simpa using hacked.length_le
  obtain ⟨more, hmore⟩ := hold
  have hvalid : LogValid (logEvents rt (left.sealed ++ [left.active.survive keep])) :=
    hkilled.inv.log_valid.of_isPrefix (hwritten.map Prod.fst)
  constructor
  · refine hinv.diskInv.extend hsurvive hmore.symm hvalid ?_ fun _ h => h
    refine hinv.disk.runs_hold.mono fun pair hpair => ?_
    rw [← hmore, logCommits_append]
    exact List.mem_append_left _ hpair
  · intro segment hmem
    rcases List.mem_append.1 hmem with hsealed | hactive
    · exact hdurable.sealed_synced segment hsealed
    · rw [List.mem_singleton.1 hactive]
      exact Segment.synced_survive _ _
  · exact ⟨more, hmore⟩
  · exact hwritten

/-- Every crash point of a writer whose log was synced before its batch. -/
theorem WriterInv.survive {writer : Writer} (hinv : WriterInv rt writer saved)
    (hsynced : writer.segments.Synced) (point : CrashPoint) (keep : Int → ℕ) :
    Survived rt saved writer.disk (writer.diskAt rt point)
      ((writer.diskAt rt point).survive keep) := by
  cases point with
  | idle => exact (Killed.refl hinv).survive hinv hsynced keep
  | writing input point =>
      unfold Writer.diskAt
      dsimp only
      cases hleft : (writer.batchTrace rt allReadable input)[point]? with
      | none => exact (Killed.refl hinv).survive hinv hsynced keep
      | some left =>
          exact (hinv.batchTrace (List.mem_of_getElem? hleft)).survive hinv hsynced keep
  | replying input =>
      have hspec := hinv.batch input
      unfold Writer.diskAt
      dsimp only
      split
      · next left hkilled =>
          rw [hkilled] at hspec
          exact hspec.survive hinv hsynced keep
      next result hdone =>
      rw [hdone] at hspec
      obtain ⟨placed, hresult⟩ := hspec
      have hleft := (Killed.refl hresult.inv).survive hresult.inv (hresult.synced hsynced) keep
      refine ⟨hleft.inv.of_subset fun state hstate => List.mem_append_left _ hstate, hleft.synced,
        List.IsPrefix.trans ⟨placed, hresult.log_eq.symm⟩ hleft.old_isPrefix, hleft.prefix_written⟩

/-! ## Runs with crashes -/

/-- The invariant of runs with crashes.  `writer` is the live writer, or the one
that an I/O error has stopped in a batch; its log is synced, and all that was
acknowledged is in it. -/
structure CrashInv (rt : Runtime) (run : Run) (writer : Writer) : Prop where
  inv : WriterInv rt writer run.boundaries
  synced : writer.segments.Synced
  status : run.status = .live writer ∨ ∃ left, Killed rt writer run.boundaries left ∧
    run.status = .stopped ⟨left.files, writer.runs, writer.snaps⟩
  tasks : ∀ task ∈ run.tasks,
    task.1.state ∈ run.boundaries ∧ task.1.seq = task.1.state.nextSeq - 1
  answered : ∀ pair ∈ run.answered, pair ∈ logCommits (logEvents rt writer.segments.files)
  published : ∀ ev ∈ run.published,
    ev ∈ (logEvents rt writer.segments.files).map Prod.fst

variable {run : Run} {writer : Writer}

theorem CrashInv.prefix_log (hinv : CrashInv rt run writer) :
    logEvents rt writer.segments.files <+: run.log rt := by
  unfold Run.log
  rcases hinv.status with hlive | ⟨left, hkilled, hstopped⟩
  · rw [hlive]
    exact List.prefix_rfl
  · rw [hstopped]
    obtain ⟨extra, hextra⟩ := hkilled.log_eq
    exact ⟨extra, hextra.symm⟩

theorem CrashInv.runInv (hinv : CrashInv rt run writer) : RunInv rt run where
  book := by
    rcases hinv.status with hlive | ⟨left, hkilled, hstopped⟩
    · rw [hlive]
      exact hinv.inv
    · rw [hstopped]
      exact hkilled.inv
  tasks := hinv.tasks
  answered pair hpair := by
    obtain ⟨extra, hextra⟩ := hinv.prefix_log
    rw [← hextra, logCommits_append]
    exact List.mem_append_left _ (hinv.answered pair hpair)
  published ev hev :=
    (hinv.prefix_log.map Prod.fst).subset (hinv.published ev hev)

/-- What a crash of the run leaves. -/
theorem CrashInv.survive (hinv : CrashInv rt run writer) (point : CrashPoint) (keep : Int → ℕ) :
    Survived rt run.boundaries writer.disk (run.status.diskAt rt point)
      ((run.status.diskAt rt point).survive keep) := by
  rcases hinv.status with hlive | ⟨left, hkilled, hstopped⟩
  · rw [hlive]
    exact hinv.inv.survive hinv.synced point keep
  · rw [hstopped]
    exact hkilled.survive hinv.inv hinv.synced keep

/-- A book that is opened from files between the old log and a longer one. -/
theorem CrashInv.of_opened (hinv : CrashInv rt run writer) {next : Run} {disk : Disk}
    {opened : Opened} (hspec : opened.Spec rt disk run.boundaries) (hdisk : disk.Synced)
    (hpre : logEvents rt writer.segments.files <+: logEvents rt disk.segments)
    (hlive : next.status = .live opened.writer) (hboundaries : next.boundaries = run.boundaries)
    (htasks : ∀ task ∈ next.tasks, ∃ own, (task.1, own) ∈ run.tasks)
    (hanswered : next.answered = run.answered) (hpublished : next.published = run.published) :
    CrashInv rt next opened.writer where
  inv := by
    rw [hboundaries]
    exact hspec.inv
  synced := hspec.synced hdisk
  status := Or.inl hlive
  tasks task htask := by
    obtain ⟨own, hown⟩ := htasks task htask
    rw [hboundaries]
    exact hinv.tasks (task.1, own) hown
  answered pair hpair := by
    rw [hanswered] at hpair
    obtain ⟨extra, hextra⟩ := hpre
    rw [hspec.log_eq, ← hextra, logCommits_append]
    exact List.mem_append_left _ (hinv.answered pair hpair)
  published ev hev := by
    rw [hpublished] at hev
    rw [hspec.log_eq]
    exact (hpre.map Prod.fst).subset (hinv.published ev hev)

/-- A crash and the reopening after it. -/
theorem CrashInv.crash (hinv : CrashInv rt run writer) (point : CrashPoint) (keep : Int → ℕ)
    (opts : LogStoreOptions) (io : SpillIo) :
    ∃ opened : Opened, (run.crash rt point keep opts io).status = .live opened.writer ∧
      opened.Spec rt ((run.status.diskAt rt point).survive keep) run.boundaries ∧
      CrashInv rt (run.crash rt point keep opts io) opened.writer := by
  have hsurvived := hinv.survive point keep
  obtain ⟨opened, hopen, hspec⟩ := hsurvived.inv.openBook opts io
  have hcrash : run.crash rt point keep opts io =
      { run with status := .live opened.writer, tasks := [] } := by
    rw [Run.crash, Run.reopen]
    simp only [Status.disk, hopen, List.map_nil]
  refine ⟨opened, by rw [hcrash], hspec, ?_⟩
  rw [hcrash]
  exact hinv.of_opened hspec hsurvived.synced hsurvived.old_isPrefix rfl rfl (by simp) rfl rfl

theorem CrashInv.restart (hinv : CrashInv rt run writer) (opts : LogStoreOptions)
    (io : SpillIo) : ∃ writer, CrashInv rt (run.restart rt opts io) writer := by
  unfold Run.restart
  rcases hinv.status with hlive | ⟨left, -, hstopped⟩
  · obtain ⟨opened, hopen, hspec⟩ := hinv.inv.diskInv.openBook opts io
    rw [hlive]
    refine ⟨opened.writer, hinv.of_opened hspec hinv.synced List.prefix_rfl ?_ ?_ ?_ ?_ ?_⟩
    all_goals simp only [Run.reopen, hlive, Status.disk, hopen]
    intro task htask
    obtain ⟨old, hold, rfl⟩ := List.mem_map.1 htask
    exact ⟨old.2, hold⟩
  · rw [hstopped]
    exact ⟨writer, hinv⟩

theorem CrashInv.batch (hinv : CrashInv rt run writer) (input : BatchInput) :
    ∃ writer, CrashInv rt (run.batch rt input) writer := by
  unfold Run.batch
  rcases hinv.status with hlive | ⟨left, -, hstopped⟩
  swap
  · rw [hstopped]
    exact ⟨writer, hinv⟩
  have hspec := hinv.inv.batch input
  have hrun := (hinv.runInv.batch input).1
  unfold Run.batch at hrun
  rw [hlive] at hrun ⊢
  dsimp only at hrun ⊢
  cases hbatch : writer.batch rt allReadable input with
  | killed left =>
      rw [hbatch] at hspec
      exact ⟨writer, hinv.inv, hinv.synced, Or.inr ⟨left, hspec, rfl⟩, hinv.tasks, hinv.answered,
        hinv.published⟩
  | done result =>
      rw [hbatch] at hspec hrun
      obtain ⟨placed, hresult⟩ := hspec
      exact ⟨result.writer, hresult.inv, hresult.synced hinv.synced, Or.inl rfl, hrun.tasks,
        hrun.answered, hrun.published⟩

theorem Killed.writeSnapshot {left : SegmentSet} (hkilled : Killed rt writer saved left)
    {task : SnapshotTask} (hsaved : task.state ∈ saved)
    (hseq : task.seq = task.state.nextSeq - 1) (io : SnapIo) :
    Killed rt { writer with
      snaps := (writeSnapshot io writer.snaps task.state task.seq).2 } saved left :=
  ⟨hkilled.inv.writeSnapshot hsaved hseq io, hkilled.log_eq, hkilled.durable, hkilled.stored⟩

theorem CrashInv.land (hinv : CrashInv rt run writer) (idx : ℕ) (io : SnapIo) :
    ∃ writer, CrashInv rt (run.land idx io) writer := by
  unfold Run.land
  split
  · exact ⟨writer, hinv⟩
  next task own htask =>
  obtain ⟨hsaved, hseq⟩ := hinv.tasks _ (List.mem_of_getElem? htask)
  have htasks : ∀ other ∈ run.tasks.eraseIdx idx,
      other.1.state ∈ run.boundaries ∧ other.1.seq = other.1.state.nextSeq - 1 :=
    fun other hother => hinv.tasks other (List.mem_of_mem_eraseIdx hother)
  dsimp only
  set snaps := (writeSnapshot io run.status.disk.snaps task.state task.seq).2 with hsnaps
  -- the snapshot reaches the directory of the writer, live or stopped
  have hwritten : snaps = (writeSnapshot io writer.snaps task.state task.seq).2 := by
    rcases hinv.status with hlive | ⟨left, -, hstopped⟩
    · rw [hsnaps, hlive]
      rfl
    · rw [hsnaps, hstopped]
      rfl
  have hbook : ∀ inflight : Bool,
      WriterInv rt { writer with snaps, snapInflight := inflight } run.boundaries := by
    intro inflight
    rw [hwritten]
    exact ⟨hinv.inv.disk.writeSnapshot hsaved hseq io, hinv.inv.holds, hinv.inv.ledger,
      hinv.inv.index⟩
  rcases hinv.status with hlive | ⟨left, hkilled, hstopped⟩
  · rw [hlive]
    cases own with
    | false => exact ⟨{ writer with snaps }, hbook _, hinv.synced, Or.inl rfl, htasks,
        hinv.answered, hinv.published⟩
    | true => exact ⟨{ writer with snaps, snapInflight := false }, hbook _, hinv.synced,
        Or.inl rfl, htasks, hinv.answered, hinv.published⟩
  · have hleft := hkilled.writeSnapshot hsaved hseq io
    rw [← hwritten] at hleft
    rw [hstopped]
    refine ⟨{ writer with snaps }, hbook _, hinv.synced, Or.inr ⟨left, hleft, ?_⟩, htasks,
      hinv.answered, hinv.published⟩
    cases own <;> rfl

theorem CrashInv.crashStep (hinv : CrashInv rt run writer) (action : CrashAction) :
    ∃ writer, CrashInv rt (run.crashStep rt action) writer := by
  cases action with
  | batch input => exact hinv.batch input
  | land task io => exact hinv.land task io
  | restart opts io => exact hinv.restart opts io
  | crash point keep opts io =>
      obtain ⟨opened, -, -, hnext⟩ := hinv.crash point keep opts io
      exact ⟨opened.writer, hnext⟩

theorem CrashInv.foldl (hinv : CrashInv rt run writer) (actions : List CrashAction) :
    ∃ writer, CrashInv rt (actions.foldl (Run.crashStep rt) run) writer := by
  induction actions generalizing run writer with
  | nil => exact ⟨writer, hinv⟩
  | cons action actions ih =>
      obtain ⟨next, hnext⟩ := hinv.crashStep action
      exact ih hnext

theorem CrashInv.crashExec (rt : Runtime) (opts : LogStoreOptions) (io : SpillIo)
    (actions : List CrashAction) :
    ∃ writer, CrashInv rt (Run.crashExec rt opts io actions) writer := by
  obtain ⟨writer, hlive, hwriter, -, hsynced⟩ := Run.status_create rt opts io
  have hcreate : CrashInv rt (Run.create rt opts io) writer :=
    ⟨hwriter, hsynced, Or.inl hlive, by simp [Run.create], by simp [Run.create],
      by simp [Run.create]⟩
  exact hcreate.foldl actions

/-! ## Answers are never taken back -/

theorem Run.answered_subset_crashStep (run : Run) (action : CrashAction) :
    run.answered ⊆ (run.crashStep rt action).answered := by
  have hreopen : ∀ (run : Run) (opts : LogStoreOptions) (io : SpillIo),
      (run.reopen rt opts io).answered = run.answered := by
    intro run opts io
    unfold Run.reopen
    split <;> rfl
  cases action with
  | batch input =>
      unfold Run.crashStep Run.batch
      dsimp only
      split
      · exact List.Subset.refl _
      · split
        · exact List.Subset.refl _
        · exact List.subset_append_left _ _
  | land task io =>
      unfold Run.crashStep Run.land
      dsimp only
      split <;> exact List.Subset.refl _
  | restart opts io =>
      unfold Run.crashStep Run.restart
      dsimp only
      split
      · rw [hreopen]
        exact List.Subset.refl _
      · exact List.Subset.refl _
  | crash point keep opts io =>
      unfold Run.crashStep Run.crash
      dsimp only
      rw [hreopen]
      exact List.Subset.refl _

theorem Run.answered_subset_foldl (run : Run) (actions : List CrashAction) :
    run.answered ⊆ (actions.foldl (Run.crashStep rt) run).answered := by
  induction actions generalizing run with
  | nil => exact List.Subset.refl _
  | cons action actions ih =>
      exact List.Subset.trans (run.answered_subset_crashStep action) (ih _)

/-! ## The result -/

/-- The book after a crash of `run` and the reopening, where `written` are the
files at the crash. -/
structure CrashRecovered (rt : Runtime) (run : Run) (written : Disk) (back : Run) : Prop where
  reopened : ∃ writer ledger, back.status = .live writer ∧
    BookState.initial.replay (back.log rt) = .ok ledger ∧
    Agree rt writer.state writer.runs ledger ∅
  recovered_isPrefix : back.events rt <+: (logEvents rt written.segments).map Prod.fst
  acknowledged : ∀ ev ∈ run.published, ev ∈ back.events rt
  answered : ∀ pair ∈ run.answered, pair ∈ logCommits (back.log rt)

theorem CrashInv.crashRecovered (hinv : CrashInv rt run writer) (point : CrashPoint)
    (keep : Int → ℕ) (opts : LogStoreOptions) (io : SpillIo) :
    CrashRecovered rt run (run.status.diskAt rt point) (run.crash rt point keep opts io) := by
  obtain ⟨opened, hlive, hspec, hback⟩ := hinv.crash point keep opts io
  have hlog : (run.crash rt point keep opts io).log rt =
      logEvents rt opened.writer.segments.files := by
    rw [Run.log, hlive]
    rfl
  have hsame : (run.crash rt point keep opts io).answered = run.answered ∧
      (run.crash rt point keep opts io).published = run.published := by
    unfold Run.crash Run.reopen
    split <;> exact ⟨rfl, rfl⟩
  constructor
  · obtain ⟨ledger, hreplay, hforget⟩ := hspec.inv.ledger
    exact ⟨opened.writer, ledger, hlive, by rw [hlog, hreplay],
      .of_forgetIdem hforget hspec.inv.keys_nodup hspec.inv.index
        (LogValid.indexes_replay hreplay)⟩
  · rw [Run.events, hlog, hspec.log_eq]
    exact (hinv.survive point keep).prefix_written.map Prod.fst
  · rw [← hsame.2]
    exact hback.runInv.published
  · rw [← hsame.1]
    exact hback.runInv.answered

/-- Wherever in a run a crash strikes, and whatever bytes survive behind the
synced ones: the book opens again; what it recovers is a first part of what was
written, with everything acknowledged in it; its state is the replay of that;
and in whatever happens later every `Ok` under a key speaks of the one
transaction of the key, the one told about before the crash if there was
one. -/
theorem crash_durability (rt : Runtime) (opts : LogStoreOptions) (io : SpillIo)
    (actions : List CrashAction) (point : CrashPoint) (keep : Int → ℕ)
    (opts' : LogStoreOptions) (io' : SpillIo) (more : List CrashAction) :
    let run := Run.crashExec rt opts io actions
    let back := run.crash rt point keep opts' io'
    let later := more.foldl (Run.crashStep rt) back
    CrashRecovered rt run (run.status.diskAt rt point) back ∧
      ∀ answer ∈ later.answered,
        (∃ ev tx, (later.events rt).filter (WireEvent.posts answer.1) = [ev] ∧
          ev.event = .transactionPosted tx ∧ answer.2 = ⟨tx.id, ev.seq, ev.at'⟩) ∧
        ∀ earlier ∈ run.answered, earlier.1 = answer.1 → earlier.2 = answer.2 := by
  intro run back later
  obtain ⟨writer, hinv⟩ : ∃ writer, CrashInv rt run writer :=
    CrashInv.crashExec rt opts io actions
  obtain ⟨opened, -, -, hback⟩ := hinv.crash point keep opts' io'
  obtain ⟨last, hlater⟩ : ∃ last, CrashInv rt later last := hback.foldl more
  refine ⟨hinv.crashRecovered point keep opts' io', fun answer hanswer => ⟨?_, ?_⟩⟩
  · exact hlater.runInv.filter_posts_of_answered hanswer
  · rintro ⟨key, committed⟩ hearlier rfl
    have hkept : (answer.1, committed) ∈ later.answered :=
      Run.answered_subset_foldl back more
        (Run.answered_subset_crashStep run (.crash point keep opts' io') hearlier)
    obtain ⟨ev, tx, honly, hevent, hanswered⟩ := hlater.runInv.filter_posts_of_answered hanswer
    obtain ⟨ev', tx', honly', hevent', hkept'⟩ := hlater.runInv.filter_posts_of_answered hkept
    obtain rfl : ev = ev' := by
      rw [honly] at honly'
      exact List.head_eq_of_cons_eq honly'
    obtain rfl : tx = tx' := by
      rw [hevent] at hevent'
      cases hevent'
      rfl
    exact hkept'.trans hanswered.symm

end Talea.Log
