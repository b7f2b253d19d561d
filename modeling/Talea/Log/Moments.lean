import Talea.Log.Handles

/-!
# Moments of a living writer

Whatever a writer does, the handles of its book see files that only grow, a
state that is the one after a first part of the log, and broadcasts that have
reached some point below that.
-/

namespace Talea.Log

variable {rt : Runtime}

/-! ## What a batch publishes -/

/-- The staged event a reply announces. -/
def Reply.slot : Reply → Option ℕ
  | .staged slot => some slot
  | _ => none

/-- The staged events are announced in order, each once. -/
theorem Classified.slots_classify {state : BookState} {resolved : HashMap String CommittedRec}
    {startNow : Int} {jobs : List (Job × Int)} {batch : Classified}
    (hbatch : classify state resolved startNow jobs = .ok batch) :
    batch.replies.filterMap Reply.slot = List.range batch.staged.length := by
  have hquiet : ∀ (acc : Classified) (reply : Reply), reply.slot = none →
      acc.replies.filterMap Reply.slot = List.range acc.staged.length →
      (acc.replies ++ [reply]).filterMap Reply.slot = List.range acc.staged.length := by
    intro acc reply hnone hacc
    rw [List.filterMap_append, hacc]
    simp [hnone]
  have hstage : ∀ (acc : Classified) (idx : ℕ) (now : Int) (event : LedgerEvent),
      acc.replies.filterMap Reply.slot = List.range acc.staged.length →
      (acc.stageEvent idx now event).replies.filterMap Reply.slot =
        List.range (acc.stageEvent idx now event).staged.length := by
    intro acc idx now event hacc
    simp [Classified.stageEvent, List.filterMap_append, hacc, Reply.slot, List.range_succ]
  refine classify_invariant
    (fun _ acc => acc.replies.filterMap Reply.slot = List.range acc.staged.length) rfl ?_ hbatch
  intro idx job now acc next _ hacc hstep
  cases hstep with
  | dup hseen => exact hquiet acc _ rfl hacc
  | dupInBatch hseen hslot => exact hquiet acc _ rfl hacc
  | reject hseen hnew herr => exact hquiet acc _ rfl hacc
  | commit hseen hnew hok hscratch => exact hstage _ idx now _ hacc
  | openExists hopen hsame => exact hquiet acc _ rfl hacc
  | openConflict hopen hdiffer => exact hquiet acc _ rfl hacc
  | openAccount hnew => exact hstage acc idx now _ hacc
  | registerAsset => exact hstage acc idx now _ hacc
  | snapshot => exact hacc

theorem filterMap_getElem?_range {α : Type} (items : List α) :
    (List.range items.length).filterMap (fun idx => items[idx]?) = items := by
  induction items using List.reverseRecOn with
  | nil => rfl
  | append_singleton items item ih =>
      rw [List.length_append, List.length_singleton, List.range_succ, List.filterMap_append]
      have hfirst : (List.range items.length).filterMap (fun idx => (items ++ [item])[idx]?) =
          (List.range items.length).filterMap fun idx => items[idx]? := by
        refine List.filterMap_congr fun idx hidx => ?_
        rw [List.getElem?_append_left (List.mem_range.1 hidx)]
      rw [hfirst, ih]
      simp

/-- A batch publishes what it has placed, in order. -/
theorem publishedEvents_eq {placed : List Staged} {replies : List Reply}
    (hslots : replies.filterMap Reply.slot = List.range placed.length) :
    publishedEvents placed replies = placed.map Staged.wire := by
  have hpublished : publishedEvents placed replies =
      ((replies.filterMap Reply.slot).filterMap fun slot => placed[slot]?).map Staged.wire := by
    rw [publishedEvents, List.filterMap_filterMap, List.map_filterMap]
    refine List.filterMap_congr fun reply _ => ?_
    cases reply <;> rfl
  rw [hpublished, hslots, filterMap_getElem?_range]

/-! ## The moments of a batch -/

variable {writer : Writer} {saved : List BookState} {input : BatchInput}

theorem BookState.forgetIdem_flushIdem (state : BookState) (io : SpillIo) (dir : RunDir) :
    (flushIdem state rt io dir).1.forgetIdem = state.forgetIdem := by
  unfold flushIdem
  split <;> rfl

/-- What a batch that runs to its end has applied and published. -/
theorem WriterInv.batch_applied (hinv : WriterInv rt writer saved) {result : BatchDone}
    (hdone : writer.batch rt allReadable input = .done result) :
    ∃ items applied, writer.appliedState rt input = some applied ∧
      writer.state.replay items = .ok applied ∧
      result.writer.state.forgetIdem = applied.forgetIdem ∧
      logEvents rt result.writer.segments.files =
        logEvents rt writer.segments.files ++ items ∧
      result.published = items.map Prod.fst := by
  unfold Writer.batch at hdone
  unfold Writer.appliedState
  dsimp only at hdone
  cases hbatch : classify writer.state
      (resolveKeys rt allReadable writer.state.idem writer.runs (input.jobs.map Prod.fst))
      input.startNow input.jobs with
  | error message => simp [hbatch] at hdone
  | ok batch =>
      have hsound := hinv.classified hbatch
      have hspec := writePhase_spec hinv.holds (hinv.numbered_staged hsound)
      rw [hbatch] at hdone
      dsimp only at hdone ⊢
      cases hwrite : writePhase rt writer.segments batch.staged with
      | error left => simp [hwrite] at hdone
      | ok phase =>
          obtain ⟨written, placed⟩ := phase
          rw [hwrite] at hspec hdone
          dsimp only at hspec hdone ⊢
          cases happlied : applyStaged writer.state placed with
          | error message => simp [happlied] at hdone
          | ok applied =>
              rw [happlied] at hdone
              cases hdone
              have hslots : batch.replies.filterMap Reply.slot = List.range placed.length := by
                rw [Classified.slots_classify hbatch]
                have hlen := congrArg List.length hspec.same.wires
                rw [List.length_map, List.length_map] at hlen
                rw [hlen]
              refine ⟨placed.map fun entry : Staged => (entry.wire, entry.pos), applied, rfl, happlied,
                BookState.forgetIdem_flushIdem applied input.spill writer.runs, hspec.log_eq, ?_⟩
              rw [Staged.map_fst_items]
              exact publishedEvents_eq hslots

section Sound

variable {start : ℕ} {shared : Shared}

/-- Broadcasts that have reached a point of the log. -/
theorem Shared.Sound.of_sent {segments : SegmentSet} {state : BookState}
    {sent : List WireEvent} (hholds : ∃ events tail, segments.Holds rt events tail)
    (hvalid : LogValid (logEvents rt segments.files)) (count : ℕ) {ledger : BookState}
    (hcount : count ≤ (logEvents rt segments.files).length)
    (hnextSeq : state.nextSeq = count + 1)
    (hledger : BookState.initial.replay ((logEvents rt segments.files).take count) = .ok ledger)
    (hstate : state.forgetIdem = ledger.forgetIdem)
    (hsent : sent <+: ((logEvents rt segments.files).map Prod.fst).drop start)
    (hlen : start + sent.length ≤ count) : (⟨segments, state, sent⟩ : Shared).Sound rt start where
  holds := hholds
  valid := hvalid
  state := ⟨count, ledger, hcount, hnextSeq, hledger, hstate⟩
  sent := hsent
  sent_applied := by
    rw [hnextSeq]
    push_cast
    omega

/-- The moments at which a batch is being written: the files have the old log
in front, the state is the old one. -/
theorem WriterInv.sound_writing (hinv : WriterInv rt writer saved) {left : SegmentSet}
    (hleft : Killed rt writer saved left)
    (hstart : start ≤ (logEvents rt writer.segments.files).length) :
    (⟨left, writer.state, ((logEvents rt writer.segments.files).map Prod.fst).drop start⟩ :
      Shared).Sound rt start := by
  obtain ⟨extra, hextra⟩ := hleft.log_eq
  obtain ⟨ledger, hledger, hsame⟩ := hinv.ledger
  refine .of_sent hleft.stored hleft.inv.log_valid
    (logEvents rt writer.segments.files).length ?_ ?_ ?_ hsame ?_ ?_
  · rw [hextra, List.length_append]
    exact Nat.le_add_right _ _
  · rw [hinv.nextSeq_eq, List.length_map]
    ring
  · rw [hextra, List.take_left]
    exact hledger
  · rw [hextra, List.map_append, List.drop_append_of_le_length (by simpa using hstart)]
    exact List.prefix_append ..
  · rw [List.length_drop, List.length_map]
    omega

/-- The moments behind the apply phase. -/
theorem WriterInv.sound_applied (hinv : WriterInv rt writer saved) {segments : SegmentSet}
    {items : List (WireEvent × FramePos)} {applied state : BookState}
    (hholds : ∃ events tail, segments.Holds rt events tail)
    (hvalid : LogValid (logEvents rt segments.files))
    (hlog : logEvents rt segments.files = logEvents rt writer.segments.files ++ items)
    (happlied : writer.state.replay items = .ok applied)
    (hstate : state.forgetIdem = applied.forgetIdem)
    (hstart : start ≤ (logEvents rt writer.segments.files).length) (count : ℕ) :
    (⟨segments, state, ((logEvents rt writer.segments.files).map Prod.fst).drop start ++
      (items.map Prod.fst).take count⟩ : Shared).Sound rt start := by
  obtain ⟨ledger, hledger, hsame⟩ := hinv.ledger
  obtain ⟨final, hfinal, hforget⟩ := BookState.replay_forgetIdem hsame happlied
  have hreplay : BookState.initial.replay (logEvents rt segments.files) = .ok final := by
    rw [hlog]
    exact BookState.replay_append_eq_ok.2 ⟨ledger, hledger, hfinal⟩
  have hsame' : state.forgetIdem = final.forgetIdem := hstate.trans hforget.symm
  refine .of_sent hholds hvalid (logEvents rt segments.files).length le_rfl ?_ ?_ hsame' ?_ ?_
  · rw [(BookState.same_of_forgetIdem hsame').1,
      BookState.nextSeq_of_replay_initial hvalid.numbered hreplay]
  · rw [List.take_length]
    exact hreplay
  · rw [hlog, List.map_append, List.drop_append_of_le_length (by simpa using hstart)]
    exact (List.prefix_append_right_inj _).2 (List.take_prefix _ _)
  · have hlen : ((items.map Prod.fst).take count).length ≤ items.length := by
      rw [List.length_take, List.length_map]
      exact min_le_right _ _
    rw [hlog, List.length_append, List.length_append, List.length_drop, List.length_map]
    omega

end Sound

/-! ## Turns -/

theorem path_shared {earlier later : SegmentSet} {stops : List SegmentSet}
    (hpath : Path SegmentSet.Extends earlier stops later) (state : BookState)
    (sent : List WireEvent) :
    Path Shared.Extends ⟨earlier, state, sent⟩
      (stops.map fun segments => ⟨segments, state, sent⟩) ⟨later, state, sent⟩ :=
  Path.map (S := Shared.Extends) (f := fun segments => ⟨segments, state, sent⟩)
    (fun _ _ hrel => ⟨hrel, le_rfl, List.prefix_rfl⟩) hpath

theorem path_sending (segments : SegmentSet) (state : BookState)
    (sent published : List WireEvent) :
    Path Shared.Extends ⟨segments, state, sent⟩
      ((List.range (published.length + 1)).map fun count =>
        ⟨segments, state, sent ++ published.take count⟩)
      ⟨segments, state, sent ++ published⟩ := by
  have hpath := Path.of_range (R := Shared.Extends)
    (fun count => ⟨segments, state, sent ++ published.take count⟩) published.length
    fun count _ => ⟨Std.Refl.refl _, le_rfl, (List.prefix_append_right_inj _).2
      (List.take_prefix_take_left (Nat.le_succ count))⟩
  simpa using hpath

/-- What is known about a book and its handles; `start` events were in the log
when the writer was started.  Between its turns a live writer has broadcast
everything behind these. -/
structure Served.Inv (rt : Runtime) (start : ℕ) (served : Served) : Prop where
  run : RunInv rt served.run
  sound : served.shared.Sound rt start
  live : ∀ writer, served.run.status = .live writer →
    served.shared.segments = writer.segments ∧ served.shared.state = writer.state ∧
      served.shared.sent = (served.shared.events rt).drop start

namespace Served.Inv

variable {start : ℕ} {served : Served}

theorem start_le (hinv : served.Inv rt start) :
    start ≤ (logEvents rt served.shared.segments.files).length := by
  obtain ⟨count, ledger, hcount, hnextSeq, -⟩ := hinv.sound.state
  have happlied := hinv.sound.sent_applied
  omega

theorem writerInv (hinv : served.Inv rt start) (hlive : served.run.status = .live writer) :
    WriterInv rt writer served.run.boundaries := by
  have hbook := hinv.run.book
  rwa [hlive] at hbook

/-- What the handles of a live writer see between its turns. -/
theorem shared_eq (hinv : served.Inv rt start) (hlive : served.run.status = .live writer) :
    served.shared = ⟨writer.segments, writer.state,
      ((logEvents rt writer.segments.files).map Prod.fst).drop start⟩ := by
  obtain ⟨hsegments, hstate, hsent⟩ := hinv.live writer hlive
  rw [Shared.events, hsegments] at hsent
  rw [← hsent, ← hsegments, ← hstate]

/-- A turn in which nothing is seen to move. -/
theorem still (hinv : served.Inv rt start) {turn : Turn} (hnone : served.moments rt turn = [])
    (hlive : ∀ after, (served.run.step rt turn.action).status = .live after →
      ∃ before, served.run.status = .live before ∧ after.segments = before.segments ∧
        after.state = before.state) :
    (served.turn rt turn).Inv rt start ∧
      Path Shared.Extends served.shared (served.moments rt turn) (served.turn rt turn).shared ∧
      ∀ moment ∈ served.moments rt turn, moment.Sound rt start := by
  have hshared : (served.turn rt turn).shared = served.shared := by
    rw [Served.turn, hnone]
    rfl
  refine ⟨⟨(hinv.run.step _).1, hshared ▸ hinv.sound, fun after hafter => ?_⟩, ?_, ?_⟩
  · obtain ⟨before, hbefore, hsegments, hstate⟩ := hlive after hafter
    rw [hshared, hsegments, hstate]
    exact hinv.live before hbefore
  · rw [hnone, hshared]
    exact Std.Refl.refl _
  · rw [hnone]
    simp

/-- The moments of a write phase that goes up to some point. -/
theorem writing (hinv : served.Inv rt start) (hlive : served.run.status = .live writer)
    (input : BatchInput) (count : ℕ) :
    let moments := ((writer.batchTrace rt allReadable input).take count).map fun segments =>
      (⟨segments, writer.state, served.shared.sent⟩ : Shared)
    Path Shared.Extends served.shared moments (moments.getLast?.getD served.shared) ∧
      ∀ moment ∈ moments, moment.Sound rt start := by
  have hwriter := hinv.writerInv hlive
  have hshared := hinv.shared_eq hlive
  have hstart := hinv.start_le
  rw [hshared] at hstart ⊢
  constructor
  · have hpath : Path SegmentSet.Extends writer.segments
        (writer.batchTrace rt allReadable input) _ := writer.path_batchTrace allReadable input
    exact (path_shared (hpath.take count) _ _).toLast
  · intro moment hmoment
    obtain ⟨left, hleft, rfl⟩ := List.mem_map.1 hmoment
    exact hwriter.sound_writing (hwriter.batchTrace (List.mem_of_mem_take hleft)) hstart

/-- The moments of a batch that runs to its end. -/
theorem finished (hinv : served.Inv rt start) (hlive : served.run.status = .live writer)
    {input : BatchInput} {result : BatchDone}
    (hdone : writer.batch rt allReadable input = .done result) :
    Path Shared.Extends served.shared (writer.moments rt served.shared.sent input)
        ⟨result.writer.segments, result.writer.state,
          ((logEvents rt result.writer.segments.files).map Prod.fst).drop start⟩ ∧
      ∀ moment ∈ writer.moments rt served.shared.sent input, moment.Sound rt start := by
  have hwriter := hinv.writerInv hlive
  have hshared := hinv.shared_eq hlive
  have hstart := hinv.start_le
  rw [hshared] at hstart ⊢
  have hspec := hwriter.batch input
  rw [hdone] at hspec
  obtain ⟨placed, hresult⟩ := hspec
  obtain ⟨items, applied, happliedState, happlied, hstate, hlog, hpublished⟩ :=
    hwriter.batch_applied hdone
  have hvalid := hresult.inv.logValid
  have hholds : ∃ events tail, result.writer.segments.Holds rt events tail :=
    ⟨_, _, hresult.inv.holds⟩
  have hnextSeq : writer.state.nextSeq ≤ applied.nextSeq := by
    rw [← (BookState.same_of_forgetIdem hstate).1, hwriter.nextSeq_eq, hresult.inv.nextSeq_eq,
      hlog, List.map_append, List.length_append]
    push_cast
    omega
  unfold Writer.moments
  rw [hdone, happliedState]
  dsimp only
  rw [hpublished]
  simp only [Option.toList_some, List.map_cons, List.map_nil, List.singleton_append]
  constructor
  · have htrace : Path SegmentSet.Extends writer.segments
        (writer.batchTrace rt allReadable input) _ := writer.path_batchTrace allReadable input
    rw [hdone] at htrace
    have hsend := path_sending result.writer.segments result.writer.state
      (((logEvents rt writer.segments.files).map Prod.fst).drop start) (items.map Prod.fst)
    rw [← List.drop_append_of_le_length (by simpa using hstart), ← List.map_append, ← hlog]
      at hsend
    refine (path_shared htrace _ _).append ⟨⟨Std.Refl.refl _, hnextSeq, List.prefix_rfl⟩,
      hsend.of_rel ?_⟩
    exact ⟨Std.Refl.refl _, (BookState.same_of_forgetIdem hstate).1.ge, List.prefix_rfl⟩
  · intro moment hmoment
    rcases List.mem_append.1 hmoment with hwriting | hafter
    · obtain ⟨left, hleft, rfl⟩ := List.mem_map.1 hwriting
      exact hwriter.sound_writing (hwriter.batchTrace hleft) hstart
    rcases List.mem_cons.1 hafter with rfl | hsending
    · have hsound := hwriter.sound_applied hholds hvalid hlog happlied rfl hstart 0
      simpa using hsound
    · obtain ⟨count, -, rfl⟩ := List.mem_map.1 hsending
      exact hwriter.sound_applied hholds hvalid hlog happlied hstate hstart count

/-- The writer of a book is the one before, if the step was not a batch. -/
theorem status_land {run : Run} {idx : ℕ} {io : SnapIo} {after : Writer}
    (hafter : (run.land idx io).status = .live after) :
    ∃ before, run.status = .live before ∧ after.segments = before.segments ∧
      after.state = before.state := by
  unfold Run.land at hafter
  cases htask : run.tasks[idx]? with
  | none =>
      rw [htask] at hafter
      exact ⟨after, hafter, rfl, rfl⟩
  | some task =>
      obtain ⟨task, own⟩ := task
      rw [htask] at hafter
      cases hstatus : run.status with
      | stopped disk => cases own <;> simp [hstatus, Status.withSnaps, Status.clearInflight] at hafter
      | live before =>
          refine ⟨before, rfl, ?_⟩
          cases own <;>
            (simp only [hstatus, Status.withSnaps, Status.clearInflight, if_true,
              Bool.false_eq_true, if_false, Status.live.injEq] at hafter
             rw [← hafter]
             exact ⟨rfl, rfl⟩)

/-- A turn whose moments are those of a write phase that ends the writer. -/
theorem stopping (hinv : served.Inv rt start) (hlive : served.run.status = .live writer)
    {turn : Turn} {input : BatchInput} {count : ℕ}
    (hmoments : served.moments rt turn = ((writer.batchTrace rt allReadable input).take count).map
      fun segments => ⟨segments, writer.state, served.shared.sent⟩)
    (hgone : ∀ after, (served.run.step rt turn.action).status ≠ .live after) :
    (served.turn rt turn).Inv rt start ∧
      Path Shared.Extends served.shared (served.moments rt turn) (served.turn rt turn).shared ∧
      ∀ moment ∈ served.moments rt turn, moment.Sound rt start := by
  obtain ⟨hpath, hsound⟩ := hinv.writing hlive input count
  rw [← hmoments] at hpath hsound
  have hlast : (served.turn rt turn).shared.Sound rt start := by
    rcases List.eq_nil_or_concat' (served.moments rt turn) with hnil | ⟨before, last, hconcat⟩
    · rw [Served.turn, hnil]
      exact hinv.sound
    · rw [Served.turn, hconcat, List.getLast?_concat, Option.getD_some]
      exact hsound last (hconcat ▸ List.mem_append_right _ (by simp))
  exact ⟨⟨(hinv.run.step turn.action).1, hlast, fun after hafter => absurd hafter (hgone after)⟩,
    hpath, hsound⟩

/-- What the handles see behind a batch that runs to its end. -/
theorem shared_finished (hlive : served.run.status = .live writer) {input : BatchInput}
    {result : BatchDone} (hdone : writer.batch rt allReadable input = .done result) :
    (served.turn rt (.batch input)).shared = ⟨result.writer.segments, result.writer.state,
      served.shared.sent ++ result.published⟩ := by
  simp [Served.turn, Served.moments, hlive, Writer.moments, hdone, List.range_succ]

/-- Every turn. -/
theorem turn (hinv : served.Inv rt start) (turn : Turn) :
    (served.turn rt turn).Inv rt start ∧
      Path Shared.Extends served.shared (served.moments rt turn) (served.turn rt turn).shared ∧
      ∀ moment ∈ served.moments rt turn, moment.Sound rt start := by
  cases hstatus : served.run.status with
  | stopped disk =>
      refine hinv.still (by simp [Served.moments, hstatus]) fun after hafter => ?_
      cases turn with
      | batch input => simp [Turn.action, Run.step, Run.batch, hstatus] at hafter
      | fail input point => simp [Turn.action, Run.step, Run.failStop, hstatus] at hafter
      | land task io => exact status_land hafter
  | live writer =>
  cases turn with
  | land task io =>
      exact hinv.still (by simp [Served.moments, hstatus]) fun after hafter => status_land hafter
  | fail input point =>
      by_cases hpoint : point < (writer.batchTrace rt allReadable input).length
      · have hmoments : served.moments rt (.fail input point) =
            ((writer.batchTrace rt allReadable input).take (point + 1)).map fun segments =>
              ⟨segments, writer.state, served.shared.sent⟩ := by
          simp [Served.moments, hstatus, hpoint]
        refine hinv.stopping hstatus hmoments fun after hafter => ?_
        simp [Turn.action, Run.step, Run.failStop, hstatus, Run.stop,
          List.getElem?_eq_getElem hpoint] at hafter
      · refine hinv.still (by simp [Served.moments, hstatus, hpoint]) fun after hafter => ?_
        refine ⟨after, ?_, rfl, rfl⟩
        simpa [Turn.action, Run.step, Run.failStop, hstatus,
          List.getElem?_eq_none (not_lt.1 hpoint)] using hafter
  | batch input =>
      cases hbatch : writer.batch rt allReadable input with
      | killed left =>
          have hmoments : served.moments rt (.batch input) =
              ((writer.batchTrace rt allReadable input).take
                (writer.batchTrace rt allReadable input).length).map fun segments =>
                ⟨segments, writer.state, served.shared.sent⟩ := by
            simp [Served.moments, hstatus, Writer.moments, hbatch]
          refine hinv.stopping hstatus hmoments fun after hafter => ?_
          simp [Turn.action, Run.step, Run.batch, hstatus, Run.stop, hbatch] at hafter
      | done result =>
          obtain ⟨hpath, hsound⟩ := hinv.finished hstatus hbatch
          have hmoments : served.moments rt (.batch input) =
              writer.moments rt served.shared.sent input := by
            simp [Served.moments, hstatus]
          rw [← hmoments] at hpath hsound
          have hshared := shared_finished hstatus hbatch
          have hlast : (served.turn rt (.batch input)).shared ∈
              served.moments rt (.batch input) := by
            rw [hshared, hmoments, Writer.moments, hbatch]
            simp [List.range_succ]
          have hsent : served.shared.sent ++ result.published =
              ((logEvents rt result.writer.segments.files).map Prod.fst).drop start := by
            obtain ⟨items, applied, -, -, -, hlog, hpublished⟩ :=
              (hinv.writerInv hstatus).batch_applied hbatch
            have hstart := hinv.start_le
            rw [hinv.shared_eq hstatus] at hstart ⊢
            rw [hpublished, hlog, List.map_append,
              List.drop_append_of_le_length (by simpa using hstart)]
          rw [hshared, hsent]
          refine ⟨⟨(hinv.run.step (.batch input)).1, hsound _ hlast, fun after hafter => ?_⟩,
            hpath, hsound⟩
          have hafter' : after = result.writer := by
            simpa [Served.turn, Turn.action, Run.step, Run.batch, hstatus, hbatch, eq_comm]
              using hafter
          rw [hafter', Shared.events, hshared]
          exact ⟨rfl, rfl, hsent⟩

end Served.Inv

/-! ## Lives -/

/-- The run behind a number of turns. -/
theorem Served.Inv.life {start : ℕ} {served : Served} (hinv : served.Inv rt start)
    (turns : List Turn) :
    Path Shared.Extends served.shared (served.life rt turns)
        (turns.foldl (Served.turn rt) served).shared ∧
      ∀ moment ∈ served.life rt turns, moment.Sound rt start := by
  induction turns generalizing served with
  | nil => exact ⟨Std.Refl.refl _, by simp [Served.life]⟩
  | cons turn turns ih =>
      obtain ⟨hnext, hpath, hsound⟩ := hinv.turn turn
      obtain ⟨hrest, hlater⟩ := ih hnext
      refine ⟨hpath.append hrest, fun moment hmoment => ?_⟩
      rcases List.mem_append.1 hmoment with hhere | hthere
      · exact hsound moment hhere
      · exact hlater moment hthere

/-- What the handles see, as a function of time. -/
structure Timeline (rt : Runtime) (start : ℕ) (shared : ℕ → Shared) : Prop where
  sound : ∀ time, (shared time).Sound rt start
  grows : ∀ time later, time ≤ later → (shared time).Extends (shared later)

/-- The handles of a living writer see a timeline. -/
theorem Served.Inv.timeline {start : ℕ} {served : Served} (hinv : served.Inv rt start)
    (turns : List Turn) : Timeline rt start (served.atTime rt turns) := by
  obtain ⟨hpath, hsound⟩ := hinv.life turns
  constructor
  · intro time
    rcases Path.atTime_mem served.shared (served.life rt turns) time with hstart | hmem
    · rw [Served.atTime, hstart]
      exact hinv.sound
    · exact hsound _ hmem
  · intro time later hle
    exact Nat.rel_of_forall_rel_succ_of_le Shared.Extends hpath.rel_atTime hle

/-- The handles of a writer that has just been started. -/
theorem RunInv.serve {run : Run} (hinv : RunInv rt run) {writer : Writer}
    (hlive : run.status = .live writer) :
    (run.serve writer).Inv rt (logEvents rt writer.segments.files).length := by
  have hwriter : WriterInv rt writer run.boundaries := by
    have hbook := hinv.book
    rwa [hlive] at hbook
  have hnone : ((logEvents rt writer.segments.files).map Prod.fst).drop
      (logEvents rt writer.segments.files).length = [] := by simp
  refine ⟨hinv, ?_, fun after hafter => ?_⟩
  · have hsound := hwriter.sound_writing (.refl hwriter) le_rfl
    rwa [hnone] at hsound
  · have hsame : run.status = .live after := hafter
    rw [hlive, Status.live.injEq] at hsame
    rw [← hsame]
    exact ⟨rfl, rfl, hnone.symm⟩

end Talea.Log
