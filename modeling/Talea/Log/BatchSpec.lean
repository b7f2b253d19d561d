import Talea.Log.Invariant
import Talea.Log.Replies

/-!
# One batch

A batch that runs to its end adds the events it has accepted to the log and
keeps the invariant of the book; its answers and the events it publishes are in
the log it leaves.  A batch that is interrupted leaves a book without a writer.
-/

namespace Talea.Log

variable {rt : Runtime}

/-! ## The write phase -/

/-- What the files and the entries are like after phases 3 and 4. -/
structure Written (rt : Runtime) (segments : SegmentSet) (events : List WireEvent)
    (staged : List Staged) (written : SegmentSet) (placed : List Staged) : Prop where
  holds : written.Holds rt (events ++ staged.map Staged.wire) []
  log_eq : logEvents rt written.files =
    logEvents rt segments.files ++ placed.map fun entry => (entry.wire, entry.pos)
  same : SameEntries placed staged
  synced : segments.Synced → written.Synced

theorem writePhase_spec {segments : SegmentSet} {events : List WireEvent} {staged : List Staged}
    (hholds : segments.Holds rt events [])
    (hnumbered : Numbered (1 + events.length) (staged.map Staged.wire)) :
    match writePhase rt segments staged with
    | .error left => Interrupted rt segments events (staged.map Staged.wire) left
    | .ok (written, placed) => Written rt segments events staged written placed := by
  unfold writePhase
  cases staged with
  | nil => exact ⟨by simpa using hholds, by simp, rfl, fun h => h⟩
  | cons entry rest =>
      rw [if_neg (by simp)]
      have hspec := writeStaged_spec hholds hnumbered
      cases hwrite : writeStaged rt segments (entry :: rest) with
      | error left =>
          rw [hwrite] at hspec
          exact hspec
      | ok written =>
          obtain ⟨written, placed⟩ := written
          rw [hwrite] at hspec
          obtain ⟨hwritten, hlog, hplaced, hdurable⟩ := hspec
          refine ⟨hwritten.sync, by rw [SegmentSet.logEvents_sync, hlog], hplaced, fun hsynced => ?_⟩
          have hsealed := (hdurable events (hholds.durable_of_synced hsynced)).sealed_synced
          exact SegmentSet.synced_iff.2 ⟨hsealed, rfl⟩

/-! ## Flushing and snapshots -/

theorem BookState.flushIdem_spec {state : BookState} {dir : RunDir}
    {pairs : List (String × Committed)} (hindex : state.idem.Indexes rt dir pairs)
    (hnodup : (pairs.map Prod.fst).Nodup) (io : SpillIo) :
    (flushIdem state rt io dir).1.forgetIdem = state.forgetIdem ∧
      TieredIdem.Maintains rt pairs (state.idem, dir)
        ((flushIdem state rt io dir).1.idem, (flushIdem state rt io dir).2) := by
  unfold flushIdem
  split
  · exact ⟨rfl, hindex.flushSpill hnodup io⟩
  · exact ⟨rfl, .refl hindex⟩

theorem SnapDir.lookup_pruneOld {dir : SnapDir} {removes : Int → Bool} {seq : Int}
    {file : SnapFile} (hlookup : (dir.pruneOld removes).lookup seq = some file) :
    dir.lookup seq = some file := by
  unfold SnapDir.pruneOld at hlookup
  generalize dir.newestFirst.drop 2 = old at hlookup
  induction old generalizing dir with
  | nil => exact hlookup
  | cons other old ih =>
      rw [List.foldl_cons] at hlookup
      have hrest := ih hlookup
      split at hrest
      · by_cases hsame : seq = other
        · rw [hsame, AList.lookup_erase] at hrest
          simp at hrest
        · rwa [AList.lookup_erase_ne hsame] at hrest
      · exact hrest

/-- Writing a snapshot of a saved state keeps the snapshots valid, whatever
happens to the I/O. -/
theorem SnapDir.Valid.writeSnapshot {dir : SnapDir} {items : List (WireEvent × FramePos)}
    {has : String × Committed → Prop} (hvalid : dir.Valid items has) {state : BookState}
    {count : ℕ} (hstate : StateAt items has state count) (io : SnapIo) {seq : Int}
    (hseq : seq = count) : (writeSnapshot io dir state seq).2.Valid items has := by
  have hinsert : SnapDir.Valid (dir.insert seq (.intact state.serialize)) items has := by
    intro other json hlookup
    by_cases hsame : other = seq
    · rw [hsame, AList.lookup_insert] at hlookup
      cases hlookup
      exact ⟨state, count, rfl, hsame.trans hseq, hstate⟩
    · rw [AList.lookup_insert_ne hsame] at hlookup
      exact hvalid other json hlookup
  unfold Log.writeSnapshot
  dsimp only
  split
  · exact hvalid
  · exact hinsert
  · exact fun other json hlookup => hinsert other json (SnapDir.lookup_pruneOld hlookup)

/-- The state of a live writer is the state after its whole log. -/
theorem WriterInv.stateAt {writer : Writer} {saved : List BookState}
    (hinv : WriterInv rt writer saved) :
    StateAt (logEvents rt writer.segments.files) (writer.runs.Has writer.state.idem.runNs)
      writer.state (logEvents rt writer.segments.files).length where
  count_le := le_rfl
  nextSeq_eq := by
    rw [hinv.nextSeq_eq, List.length_map]
    ring
  ledger := by
    rw [List.take_length]
    exact hinv.ledger
  hot_holds := by
    rw [List.take_length]
    exact hinv.index.hot_holds
  covers := by
    rw [List.take_length]
    exact hinv.index.covers

theorem WriterInv.keys_nodup {writer : Writer} {saved : List BookState}
    (hinv : WriterInv rt writer saved) :
    ((logCommits (logEvents rt writer.segments.files)).map Prod.fst).Nodup :=
  hinv.logValid.keys_nodup

/-! ## The whole batch -/

/-- What a batch that runs to its end does; `placed` are its events. -/
structure BatchDone.Spec (rt : Runtime) (writer : Writer) (saved : List BookState)
    (jobs : List (Job × Int)) (placed : List (WireEvent × FramePos)) (result : BatchDone) :
    Prop where
  inv : WriterInv rt result.writer (saved ++ [result.writer.state])
  log_eq : logEvents rt result.writer.segments.files =
    logEvents rt writer.segments.files ++ placed
  applied : ∃ applied, writer.state.replay placed = .ok applied
  published : ∀ ev ∈ result.published, ev ∈ placed.map Prod.fst
  answered : ∀ pair ∈ okAnswers jobs result.sends,
    pair ∈ logCommits (logEvents rt result.writer.segments.files)
  task : ∀ task ∈ result.task, task.state = result.writer.state ∧
    task.seq = result.writer.state.nextSeq - 1
  synced : writer.segments.Synced → result.writer.segments.Synced

/-- What an interrupted batch leaves. -/
structure Killed (rt : Runtime) (writer : Writer) (saved : List BookState)
    (left : SegmentSet) : Prop where
  inv : DiskInv rt ⟨left.files, writer.runs, writer.snaps⟩ saved writer.runs.HasAny
  log_eq : ∃ extra, logEvents rt left.files = logEvents rt writer.segments.files ++ extra
  durable : ∀ acked, writer.segments.Durable rt acked → left.Durable rt acked
  stored : ∃ events tail, left.Holds rt events tail

variable {writer : Writer} {saved : List BookState}

theorem WriterInv.classified (hinv : WriterInv rt writer saved) {input : BatchInput}
    {batch : Classified}
    (hbatch : classify writer.state
      (resolveKeys rt allReadable writer.state.idem writer.runs (input.jobs.map Prod.fst))
      input.startNow input.jobs = .ok batch) :
    batch.Sound input.jobs writer.state (logCommits (logEvents rt writer.segments.files))
      (max input.startNow (writer.state.lastAt.getD Classified.unixEpoch)) := by
  refine Classified.sound_classify hinv.keys_nodup (fun job hjob key hkey => ?_) hbatch
  rw [lookup_resolveKeys allReadable writer.state.idem writer.runs hjob hkey]
  exact hinv.index.get_eq hinv.keys_nodup key

theorem Killed.of_interrupted (hinv : WriterInv rt writer saved)
    {items : List (WireEvent × FramePos)}
    (hvalid : LogValid (logEvents rt writer.segments.files ++ items)) {left : SegmentSet}
    (hleft : Interrupted rt writer.segments ((logEvents rt writer.segments.files).map Prod.fst)
      (items.map Prod.fst) left) : Killed rt writer saved left where
  inv := hinv.interrupted hvalid hleft
  log_eq := hleft.log_eq
  durable := hleft.durable
  stored := by
    obtain ⟨count, tail, hholds⟩ := hleft.holds
    exact ⟨_, tail, hholds⟩

theorem Killed.refl (hinv : WriterInv rt writer saved) :
    Killed rt writer saved writer.segments := by
  have hvalid : LogValid (logEvents rt writer.segments.files ++ []) := by
    simpa using hinv.logValid
  exact .of_interrupted hinv hvalid (.refl hinv.holds _)

theorem Classified.map_fst_items (batch : Classified) :
    batch.items.map Prod.fst = batch.staged.map Staged.wire := by
  simp [Classified.items]

theorem WriterInv.numbered_staged (hinv : WriterInv rt writer saved) {input : BatchInput}
    {batch : Classified} {start : Int}
    (hsound : batch.Sound input.jobs writer.state
      (logCommits (logEvents rt writer.segments.files)) start) :
    Numbered (1 + ((logEvents rt writer.segments.files).map Prod.fst).length)
      (batch.staged.map Staged.wire) := by
  have hnumbered := hsound.numbered
  rwa [hinv.nextSeq_eq] at hnumbered

section Finish

variable {input : BatchInput} {batch : Classified} {written : SegmentSet} {placed : List Staged}

theorem Written.logCommits_eq {segments : SegmentSet} {events : List WireEvent}
    {staged : List Staged} (hwritten : Written rt segments events staged written placed) :
    logCommits (logEvents rt written.files) =
      logCommits (logEvents rt segments.files) ++ commitsOf (placed.map Staged.wire) := by
  rw [hwritten.log_eq, logCommits_append]
  congr 1
  rw [logCommits, Staged.map_fst_items]

/-- The book after the apply phase and the flush. -/
theorem WriterInv.flushed (hinv : WriterInv rt writer saved)
    (hsound : batch.Sound input.jobs writer.state
      (logCommits (logEvents rt writer.segments.files))
      (max input.startNow (writer.state.lastAt.getD Classified.unixEpoch)))
    (hwritten : Written rt writer.segments
      ((logEvents rt writer.segments.files).map Prod.fst) batch.staged written placed)
    {applied : BookState} (happlied : applyStaged writer.state placed = .ok applied)
    (io : SpillIo) :
    WriterInv rt { writer with
      segments := written
      state := (flushIdem applied rt io writer.runs).1
      runs := (flushIdem applied rt io writer.runs).2 } saved := by
  have hwires := Staged.map_fst_items placed
  have hvalid : LogValid (logEvents rt written.files) := by
    refine (hinv.logValid_staged hsound).of_isPrefix ?_
    rw [hwritten.log_eq, List.map_append, List.map_append, hwires, hwritten.same.wires,
      Classified.map_fst_items]
  have hindex : applied.idem.Indexes rt writer.runs (logCommits (logEvents rt written.files)) := by
    rw [hwritten.logCommits_eq, ← hwires, BookState.idem_of_replay happlied]
    exact hinv.index.foldl_record _
  have hrunNs : applied.idem.runNs = writer.state.idem.runNs := by
    rw [BookState.idem_of_replay happlied, TieredIdem.runNs,
      (TieredIdem.runs_foldl_record writer.state.idem _).1, TieredIdem.runNs]
  obtain ⟨hforget, hmaintains⟩ := BookState.flushIdem_spec hindex hvalid.keys_nodup io
  have hledger : ∃ ledger, BookState.initial.replay (logEvents rt written.files) = .ok ledger ∧
      (flushIdem applied rt io writer.runs).1.forgetIdem = ledger.forgetIdem := by
    obtain ⟨before, hbefore, hstate⟩ := hinv.ledger
    obtain ⟨final, hfinal, hsame⟩ := BookState.replay_forgetIdem hstate happlied
    refine ⟨final, ?_, hforget.trans hsame.symm⟩
    rw [hwritten.log_eq]
    exact BookState.replay_append_eq_ok.2 ⟨before, hbefore, hfinal⟩
  refine ⟨?_, ?_, hledger, hmaintains.indexes⟩
  · obtain ⟨before, last, -, hstored⟩ := hwritten.holds.stored
    exact hinv.disk.extend hstored hwritten.log_eq hvalid hmaintains.indexes.dir_holds
      fun pair hhas => hmaintains.keeps pair (hrunNs ▸ hhas)
  · have hevents := hwritten.holds
    rwa [← hevents.map_fst_logEvents] at hevents

/-- The state at the end of a batch may be saved, and a job may ask for its
snapshot in the loop. -/
theorem WriterInv.withSnapshot (hinv : WriterInv rt writer saved) (io : SnapIo) (asked : Bool)
    (since : ℕ) (inflight : Bool) :
    WriterInv rt { writer with
      snaps := (explicitSnapshot io writer.snaps writer.state asked).2
      eventsSinceSnap := since
      snapInflight := inflight } (saved ++ [writer.state]) where
  disk :=
    { stored := hinv.disk.stored
      log_valid := hinv.disk.log_valid
      runs_hold := hinv.disk.runs_hold
      snaps_valid := by
        change SnapDir.Valid (explicitSnapshot io writer.snaps writer.state asked).2 _ _
        unfold explicitSnapshot
        dsimp only
        split
        · refine hinv.disk.snaps_valid.writeSnapshot hinv.stateAt _ ?_
          rw [hinv.stateAt.nextSeq_eq]
          ring
        · exact hinv.disk.snaps_valid
      saved_valid := by
        intro other hother
        rcases List.mem_append.1 hother with hold | hnew
        · exact hinv.disk.saved_valid other hold
        · rw [List.mem_singleton.1 hnew]
          exact ⟨_, hinv.stateAt⟩ }
  holds := hinv.holds
  ledger := hinv.ledger
  index := hinv.index

/-- Phases 5 to 6.5 on top of a written batch. -/
theorem WriterInv.finishBatch (hinv : WriterInv rt writer saved)
    (hsound : batch.Sound input.jobs writer.state
      (logCommits (logEvents rt writer.segments.files))
      (max input.startNow (writer.state.lastAt.getD Classified.unixEpoch)))
    (hwritten : Written rt writer.segments
      ((logEvents rt writer.segments.files).map Prod.fst) batch.staged written placed)
    {applied : BookState} (happlied : applyStaged writer.state placed = .ok applied) :
    (finishBatch rt writer input batch written placed applied).Spec rt writer saved input.jobs
      (placed.map fun entry => (entry.wire, entry.pos)) where
  inv := (hinv.flushed hsound hwritten happlied input.spill).withSnapshot _ _ _ _
  log_eq := hwritten.log_eq
  applied := ⟨applied, happlied⟩
  published ev hev := by
    rw [Staged.map_fst_items]
    exact mem_publishedEvents hev
  answered := by
    change ∀ pair ∈ _, pair ∈ logCommits (logEvents rt written.files)
    rw [hwritten.logCommits_eq]
    refine okAnswers_subset fun sent hsent => ?_
    rcases List.mem_append.1 hsent with hreply | hsnap
    · exact sendReplies_truthful hsound.justified hsound.matching hwritten.same
        (Slots.of_jobs input.jobs) sent hreply
    · exact sendSnapshotReplies_truthful _ _ _ sent hsnap
  task task htask := by
    simp only [Log.finishBatch, Option.mem_def, Option.ite_none_right_eq_some,
      Option.some.injEq] at htask
    obtain ⟨-, rfl⟩ := htask
    exact ⟨rfl, rfl⟩
  synced := hwritten.synced

end Finish

section Resolved

variable {input : BatchInput} {resolved : HashMap String CommittedRec}

/-- A batch on a book with a writer, whatever phase 2b has resolved, if the
classification that follows is sound. -/
theorem WriterInv.batchResolved (hinv : WriterInv rt writer saved)
    (hsound : ∀ batch, classify writer.state resolved input.startNow input.jobs = .ok batch →
      batch.Sound input.jobs writer.state (logCommits (logEvents rt writer.segments.files))
        (max input.startNow (writer.state.lastAt.getD Classified.unixEpoch))) :
    match writer.batchResolved rt input resolved with
    | .killed left => Killed rt writer saved left
    | .done result => ∃ placed, result.Spec rt writer saved input.jobs placed := by
  unfold Writer.batchResolved
  cases hbatch : classify writer.state resolved input.startNow input.jobs with
  | error message =>
      exact .refl hinv
  | ok batch =>
      have hsound := hsound batch hbatch
      have hspec := writePhase_spec hinv.holds (hinv.numbered_staged hsound)
      dsimp only
      cases hwrite : writePhase rt writer.segments batch.staged with
      | error left =>
          rw [hwrite, ← Classified.map_fst_items] at hspec
          exact .of_interrupted hinv (hinv.logValid_staged hsound) hspec
      | ok phase =>
          obtain ⟨written, placed⟩ := phase
          rw [hwrite] at hspec
          dsimp only at hspec ⊢
          have happlied : ∃ applied, applyStaged writer.state placed = .ok applied := by
            obtain ⟨applied, hreplay, -⟩ := hsound.applied
            refine BookState.replay_isOk_of_same_events ?_ hreplay
            rw [Staged.map_fst_items, Classified.map_fst_items, hspec.same.wires]
          obtain ⟨applied, happlied⟩ := happlied
          rw [happlied]
          exact ⟨_, hinv.finishBatch hsound hspec happlied⟩

/-- Every point at which its write phase can be interrupted. -/
theorem WriterInv.traceResolved (hinv : WriterInv rt writer saved)
    (hsound : ∀ batch, classify writer.state resolved input.startNow input.jobs = .ok batch →
      batch.Sound input.jobs writer.state (logCommits (logEvents rt writer.segments.files))
        (max input.startNow (writer.state.lastAt.getD Classified.unixEpoch)))
    {left : SegmentSet} (hmem : left ∈ writer.traceResolved rt input resolved) :
    Killed rt writer saved left := by
  have hrefl : Killed rt writer saved writer.segments := .refl hinv
  unfold Writer.traceResolved at hmem
  cases hbatch : classify writer.state resolved input.startNow input.jobs with
  | error message =>
      rw [hbatch] at hmem
      rwa [List.mem_singleton.1 hmem]
  | ok batch =>
      rw [hbatch] at hmem
      dsimp only at hmem
      split at hmem
      · rwa [List.mem_singleton.1 hmem]
      · have hsound := hsound batch hbatch
        have hspec := interrupted_of_mem_writeTrace hinv.holds (hinv.numbered_staged hsound) hmem
        rw [← Classified.map_fst_items] at hspec
        exact .of_interrupted hinv (hinv.logValid_staged hsound) hspec

end Resolved

/-- Every batch on a book with a writer. -/
theorem WriterInv.batch (hinv : WriterInv rt writer saved) (input : BatchInput) :
    match writer.batch rt allReadable input with
    | .killed left => Killed rt writer saved left
    | .done result => ∃ placed, result.Spec rt writer saved input.jobs placed := by
  rw [Writer.batch_eq_batchResolved]
  exact hinv.batchResolved fun _ hbatch => hinv.classified hbatch

/-- Every point at which the write phase of a batch can be interrupted. -/
theorem WriterInv.batchTrace (hinv : WriterInv rt writer saved) {input : BatchInput}
    {left : SegmentSet} (hmem : left ∈ writer.batchTrace rt allReadable input) :
    Killed rt writer saved left := by
  rw [Writer.batchTrace_eq_traceResolved] at hmem
  exact hinv.traceResolved (fun _ hbatch => hinv.classified hbatch) hmem

end Talea.Log
