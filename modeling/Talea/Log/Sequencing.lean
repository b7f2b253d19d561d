import Talea.Log.RunInvariant

/-!
# Gapless sequence numbers and monotone time

Seqs and timestamps are handed out when an event is staged, before anything is
written, and applied after the sync.  In the log of every run the seqs are
1, 2, … in file order, timestamps do not step back, and every event is applied
by the writer, and by every later replay, to a state whose next seq it has.
-/

namespace Talea.Log

variable {rt : Runtime}

/-- Applying the events one after the other, each has the next seq of the state
it is applied to. -/
def BookState.InStep (state : BookState) : List (WireEvent × FramePos) → Prop
  | [] => True
  | item :: rest =>
      item.1.seq = state.nextSeq ∧ ∃ next, state.applyEvent item = .ok next ∧ next.InStep rest

theorem BookState.inStep_of_replay {state final : BookState}
    {items : List (WireEvent × FramePos)} (hnumbered : Numbered state.nextSeq (items.map Prod.fst))
    (hreplay : state.replay items = .ok final) : state.InStep items := by
  induction items generalizing state with
  | nil => trivial
  | cons item items ih =>
      rw [List.map_cons, numbered_cons] at hnumbered
      obtain ⟨next, happly, hrest⟩ := Except.bind_eq_ok.1 ((replay_cons ..).symm.trans hreplay)
      refine ⟨hnumbered.1, next, happly, ih ?_ hrest⟩
      rw [(nextSeq_of_applyEvent happly).1, hnumbered.1]
      exact hnumbered.2

theorem Numbered.map_seq {first : Int} {events : List WireEvent}
    (hnumbered : Numbered first events) :
    events.map WireEvent.seq = (List.range events.length).map fun idx : ℕ => first + idx := by
  refine List.ext_getElem (by simp) fun idx hleft hright => ?_
  rw [List.getElem_map, List.getElem_map, List.getElem_range]
  exact hnumbered.getElem (by simpa using hleft)

/-- What the writer applies in a batch that runs to its end. -/
def Status.AppliesInStep (rt : Runtime) (status : Status) (input : BatchInput) : Prop :=
  match status with
  | .stopped _ => True
  | .live writer =>
      match writer.batch rt allReadable input with
      | .killed _ => True
      | .done result =>
          ∃ placed, logEvents rt result.writer.segments.files =
            logEvents rt writer.segments.files ++ placed ∧ writer.state.InStep placed

/-- What opening the book replays. -/
def Status.ReplaysInStep (rt : Runtime) (status : Status) : Prop :=
  let (loaded, replayFrom) := replayStart status.disk.snaps
  match scanWithPos rt replayFrom status.disk.segments with
  | .error _ => False
  | .ok items => loaded.InStep items

theorem WriterInv.appliesInStep {writer : Writer} {saved : List BookState}
    (hinv : WriterInv rt writer saved) (input : BatchInput) :
    (Status.live writer).AppliesInStep rt input := by
  have hspec := hinv.batch input
  unfold Status.AppliesInStep
  dsimp only
  split
  · trivial
  next result hdone =>
  rw [hdone] at hspec
  obtain ⟨placed, hresult⟩ := hspec
  obtain ⟨applied, happlied⟩ := hresult.applied
  refine ⟨placed, hresult.log_eq, BookState.inStep_of_replay ?_ happlied⟩
  have hnumbered := hresult.inv.logValid.numbered
  rw [hresult.log_eq, List.map_append, numbered_append] at hnumbered
  rw [hinv.nextSeq_eq]
  exact hnumbered.2

theorem DiskInv.replaysInStep {status : Status} {saved : List BookState}
    (hinv : DiskInv rt status.disk saved status.disk.runs.HasAny) :
    status.ReplaysInStep rt := by
  obtain ⟨sealed, active, before, last, tail, hfiles, hstored⟩ := hinv.stored
  obtain ⟨count, hfrom, hstart⟩ := replayStart_valid hinv.snaps_valid
  obtain ⟨final, hreplay, -, -⟩ := hstart.replay_drop hinv.log_valid
  unfold Status.ReplaysInStep
  dsimp only
  rw [hfrom, hfiles, hstored.scanWithPos_succ, ← hfiles]
  refine BookState.inStep_of_replay ?_ hreplay
  have hnumbered := hinv.log_valid.numbered
  rw [← List.take_append_drop count (logEvents rt status.disk.segments), List.map_append,
    numbered_append, List.length_map, List.length_take_of_le hstart.count_le] at hnumbered
  rw [hstart.nextSeq_eq, add_comm]
  exact hnumbered.2

/-- In every run, the log has the seqs 1, 2, … in file order and timestamps
that do not step back; and whatever batch comes next, and whenever the book is
opened again, events are applied at the next seq of the state. -/
theorem gapless_and_monotone (rt : Runtime) (opts : LogStoreOptions) (io : SpillIo)
    (actions : List Action) (input : BatchInput) :
    let run := Run.exec rt opts io actions
    (run.events rt).map WireEvent.seq =
        (List.range (run.events rt).length).map (fun idx : ℕ => 1 + (idx : Int)) ∧
      (run.events rt).Pairwise (fun earlier later => earlier.at' ≤ later.at') ∧
      run.status.AppliesInStep rt input ∧ run.status.ReplaysInStep rt := by
  have hinv := RunInv.exec rt opts io actions
  refine ⟨hinv.logValid.numbered.map_seq, hinv.logValid.times, ?_,
    hinv.book.diskInv.replaysInStep⟩
  have hbook := hinv.book
  cases hstatus : (Run.exec rt opts io actions).status with
  | live writer =>
      rw [hstatus] at hbook
      exact WriterInv.appliesInStep hbook input
  | stopped disk => trivial

end Talea.Log
