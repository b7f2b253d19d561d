import Talea.Log.Classification
import Talea.Log.WriteAhead
import Talea.Log.Run

/-!
# The invariant of a book

The files of a book hold a log whose events continue each other in seq, time
and key, and which replays from the empty state.  Every snapshot, whether it is
on disk, with a background task or could still be taken of an earlier state, is
the state after some first part of that log, with the keys its hot map does not
hold in run files.  A live writer's state is the state after the whole log, and
its idempotency index holds the committed keys.
-/

namespace Talea.Log

variable {rt : Runtime}

/-! ## Saved states -/

/-- `state` is the state after a first part of the log, and the keys of that
part are in its hot map or among the pairs that `has` says the runs have. -/
structure StateAt (items : List (WireEvent × FramePos))
    (has : String × Committed → Prop) (state : BookState) (count : ℕ) : Prop where
  count_le : count ≤ items.length
  nextSeq_eq : state.nextSeq = count + 1
  ledger : ∃ ledger, BookState.initial.replay (items.take count) = .ok ledger ∧
    state.forgetIdem = ledger.forgetIdem
  hot_holds : state.idem.HotHolds (commitsOf ((items.take count).map Prod.fst))
  covers : ∀ pair ∈ commitsOf ((items.take count).map Prod.fst),
    pair.1 ∈ state.idem.hot ∨ has pair

theorem StateAt.mono_has {items : List (WireEvent × FramePos)}
    {has has' : String × Committed → Prop} {state : BookState} {count : ℕ}
    (hstate : StateAt items has state count) (hhas : ∀ pair, has pair → has' pair) :
    StateAt items has' state count :=
  ⟨hstate.count_le, hstate.nextSeq_eq, hstate.ledger, hstate.hot_holds,
    fun pair hpair => (hstate.covers pair hpair).imp_right (hhas pair)⟩

theorem StateAt.mono {items more : List (WireEvent × FramePos)}
    {has has' : String × Committed → Prop} {state : BookState} {count : ℕ}
    (hstate : StateAt items has state count) (hhas : ∀ pair, has pair → has' pair) :
    StateAt (items ++ more) has' state count := by
  have htake : (items ++ more).take count = items.take count :=
    List.take_append_of_le_length hstate.count_le
  refine ⟨by rw [List.length_append]; exact hstate.count_le.trans (Nat.le_add_right _ _),
    hstate.nextSeq_eq, ?_, ?_, ?_⟩
  · rw [htake]
    exact hstate.ledger
  · rw [htake]
    exact hstate.hot_holds
  · rw [htake]
    exact fun pair hpair => (hstate.covers pair hpair).imp_right (hhas pair)

/-! ## The history of a book -/

/-- The committed keys of a log. -/
def logCommits (items : List (WireEvent × FramePos)) : List (String × Committed) :=
  commitsOf (items.map Prod.fst)

@[simp]
theorem logCommits_append (left right : List (WireEvent × FramePos)) :
    logCommits (left ++ right) = logCommits left ++ logCommits right := by
  simp [logCommits]

/-- The log is numbered, monotone in time, free of duplicate keys, and
replays. -/
structure LogValid (items : List (WireEvent × FramePos)) : Prop where
  numbered : Numbered 1 (items.map Prod.fst)
  times : (items.map Prod.fst).Pairwise fun left right => left.at' ≤ right.at'
  keys_nodup : ((logCommits items).map Prod.fst).Nodup
  replays : ∃ ledger, BookState.initial.replay items = .ok ledger

/-- The snapshots of a directory are saved states of the log. -/
def SnapDir.Valid (snaps : SnapDir) (items : List (WireEvent × FramePos))
    (has : String × Committed → Prop) : Prop :=
  ∀ seq json, snaps.lookup seq = some (.intact json) →
    ∃ state, ∃ count : ℕ, json = state.serialize ∧ seq = count ∧ StateAt items has state count

/-- A book's files: the log in its segments, run files with committed keys, and
valid snapshots; `saved` are the states snapshots may still be taken of. -/
structure DiskInv (rt : Runtime) (disk : Disk) (saved : List BookState)
    (has : String × Committed → Prop) : Prop where
  stored : ∃ sealed active before last tail, disk.segments = sealed ++ [active] ∧
    Stored rt sealed active before last tail
  log_valid : LogValid (logEvents rt disk.segments)
  runs_hold : disk.runs.Holds (logCommits (logEvents rt disk.segments))
  snaps_valid : disk.snaps.Valid (logEvents rt disk.segments) has
  saved_valid : ∀ state ∈ saved, ∃ count, StateAt (logEvents rt disk.segments) has state count

/-- A book with a writer. -/
structure WriterInv (rt : Runtime) (writer : Writer) (saved : List BookState) : Prop where
  disk : DiskInv rt writer.disk saved (writer.runs.Has writer.state.idem.runNs)
  holds : writer.segments.Holds rt ((logEvents rt writer.segments.files).map Prod.fst) []
  ledger : ∃ ledger, BookState.initial.replay (logEvents rt writer.segments.files) = .ok ledger ∧
    writer.state.forgetIdem = ledger.forgetIdem
  index : writer.state.idem.Indexes rt writer.runs
    (logCommits (logEvents rt writer.segments.files))

theorem DiskInv.mono_has {disk : Disk} {saved : List BookState}
    {has has' : String × Committed → Prop} (hinv : DiskInv rt disk saved has)
    (hhas : ∀ pair, has pair → has' pair) : DiskInv rt disk saved has' where
  stored := hinv.stored
  log_valid := hinv.log_valid
  runs_hold := hinv.runs_hold
  snaps_valid seq json hlookup := by
    obtain ⟨state, count, hjson, hseq, hstate⟩ := hinv.snaps_valid seq json hlookup
    exact ⟨state, count, hjson, hseq, hstate.mono_has hhas⟩
  saved_valid state hstate := by
    obtain ⟨count, hcount⟩ := hinv.saved_valid state hstate
    exact ⟨count, hcount.mono_has hhas⟩

/-- What stays when the writer is gone. -/
theorem WriterInv.diskInv {writer : Writer} {saved : List BookState}
    (hinv : WriterInv rt writer saved) :
    DiskInv rt writer.disk saved writer.runs.HasAny :=
  hinv.disk.mono_has fun _ hhas => hhas.any

theorem WriterInv.logValid {writer : Writer} {saved : List BookState}
    (hinv : WriterInv rt writer saved) : LogValid (logEvents rt writer.segments.files) :=
  hinv.disk.log_valid

/-! ## Facts about the state after a log -/

/-- Events that carry on the seqs of a state move its next seq by their
number. -/
theorem BookState.nextSeq_of_replay_numbered {state final : BookState}
    {items : List (WireEvent × FramePos)}
    (hnumbered : Numbered state.nextSeq (items.map Prod.fst))
    (hreplay : state.replay items = .ok final) :
    final.nextSeq = state.nextSeq + items.length := by
  by_cases hne : items = []
  · subst hne
    cases hreplay
    simp
  · rw [(BookState.nextSeq_of_replay hreplay hne).1]
    have hpos : 0 < items.length := List.length_pos_iff.2 hne
    have hidx : items.length - 1 < (items.map Prod.fst).length := by
      rw [List.length_map]
      omega
    have hlast := hnumbered.getElem hidx
    rw [List.getElem_map] at hlast
    rw [List.getLast_eq_getElem, hlast]
    omega

theorem BookState.nextSeq_of_replay_initial {items : List (WireEvent × FramePos)}
    (hnumbered : Numbered 1 (items.map Prod.fst)) {ledger : BookState}
    (hreplay : BookState.initial.replay items = .ok ledger) :
    ledger.nextSeq = items.length + 1 := by
  rw [nextSeq_of_replay_numbered hnumbered hreplay, add_comm]
  rfl

theorem BookState.at_le_lastAt {items : List (WireEvent × FramePos)}
    (htimes : (items.map Prod.fst).Pairwise fun left right => left.at' ≤ right.at')
    {ledger : BookState} (hreplay : BookState.initial.replay items = .ok ledger)
    {ev : WireEvent} (hev : ev ∈ items.map Prod.fst) (fallback : Int) :
    ev.at' ≤ ledger.lastAt.getD fallback := by
  have hne : items ≠ [] := by
    rintro rfl
    simp at hev
  rw [(BookState.nextSeq_of_replay hreplay hne).2, Option.getD_some]
  have hsplit := List.dropLast_append_getLast hne
  rw [← hsplit, List.map_append, List.pairwise_append] at htimes
  rw [← hsplit, List.map_append] at hev
  rcases List.mem_append.1 hev with hbefore | hlast
  · exact htimes.2.2 ev hbefore _ (by simp)
  · rw [List.map_singleton, List.mem_singleton] at hlast
    rw [hlast]

theorem BookState.same_of_forgetIdem {left right : BookState}
    (hsame : left.forgetIdem = right.forgetIdem) :
    left.nextSeq = right.nextSeq ∧ left.lastAt = right.lastAt ∧
      left.accounts = right.accounts ∧ left.txids = right.txids ∧ left.sums = right.sums := by
  rw [BookState.forgetIdem_eq_iff.1 hsame]
  exact ⟨rfl, rfl, rfl, rfl, rfl⟩

/-- A log whose events are the first ones of a valid log is valid. -/
theorem LogValid.of_isPrefix {items whole : List (WireEvent × FramePos)} (hvalid : LogValid whole)
    (hpre : items.map Prod.fst <+: whole.map Prod.fst) : LogValid items := by
  have hevents : (whole.take items.length).map Prod.fst = items.map Prod.fst := by
    have htake := List.prefix_iff_eq_take.1 hpre
    rw [List.length_map] at htake
    rw [List.map_take, ← htake]
  refine ⟨hvalid.numbered.of_isPrefix hpre, hvalid.times.sublist hpre.sublist, ?_, ?_⟩
  · exact hvalid.keys_nodup.sublist ((hpre.sublist.filterMap _).map _)
  · obtain ⟨ledger, hreplay⟩ := hvalid.replays
    rw [← List.take_append_drop items.length whole, BookState.replay_append_eq_ok] at hreplay
    obtain ⟨mid, hmid, -⟩ := hreplay
    exact BookState.replay_isOk_of_same_events hevents hmid

theorem WriterInv.nextSeq_eq {writer : Writer} {saved : List BookState}
    (hinv : WriterInv rt writer saved) :
    writer.state.nextSeq = 1 + ((logEvents rt writer.segments.files).map Prod.fst).length := by
  obtain ⟨ledger, hreplay, hsame⟩ := hinv.ledger
  rw [(BookState.same_of_forgetIdem hsame).1,
    BookState.nextSeq_of_replay_initial hinv.logValid.numbered hreplay, List.length_map]
  ring

/-- The log with the events of a classified batch behind it is valid. -/
theorem WriterInv.logValid_staged {writer : Writer} {saved : List BookState}
    (hinv : WriterInv rt writer saved) {jobs : List (Job × Int)} {startNow : Int}
    {batch : Classified}
    (hsound : batch.Sound jobs writer.state (logCommits (logEvents rt writer.segments.files))
      (max startNow (writer.state.lastAt.getD Classified.unixEpoch))) :
    LogValid (logEvents rt writer.segments.files ++ batch.items) := by
  have hlog := hinv.logValid
  obtain ⟨ledger, hreplay, hsame⟩ := hinv.ledger
  have hwires : batch.items.map Prod.fst = batch.wires := by
    simp [Classified.items, Classified.wires]
  refine ⟨?_, ?_, ?_, ?_⟩
  · rw [List.map_append, numbered_append, hwires]
    exact ⟨hlog.numbered, hinv.nextSeq_eq ▸ hsound.numbered⟩
  · rw [List.map_append, List.pairwise_append, hwires]
    refine ⟨hlog.times, hsound.times, fun left hleft right hright => ?_⟩
    have hfloor := BookState.at_le_lastAt hlog.times hreplay hleft Classified.unixEpoch
    rw [← (BookState.same_of_forgetIdem hsame).2.1] at hfloor
    exact hfloor.trans ((le_max_right _ _).trans (hsound.time_bounds right hright).1)
  · have hcommits : logCommits batch.items = commitsOf batch.wires := by
      rw [logCommits, hwires]
    rw [logCommits_append, hcommits]
    exact hsound.keys_nodup
  · obtain ⟨applied, happlied, -⟩ := hsound.applied
    obtain ⟨final, hfinal, -⟩ := BookState.replay_forgetIdem hsame happlied
    exact ⟨final, BookState.replay_append_eq_ok.2 ⟨ledger, hreplay, hfinal⟩⟩

/-! ## Growing logs -/

theorem SnapDir.Valid.mono {snaps : SnapDir} {items more : List (WireEvent × FramePos)}
    {has has' : String × Committed → Prop} (hvalid : snaps.Valid items has)
    (hhas : ∀ pair, has pair → has' pair) : snaps.Valid (items ++ more) has' := by
  intro seq json hlookup
  obtain ⟨state, count, hjson, hseq, hstate⟩ := hvalid seq json hlookup
  exact ⟨state, count, hjson, hseq, hstate.mono hhas⟩

/-- More events in the segments, and run files that have at least what they
had. -/
theorem DiskInv.extend {disk : Disk} {saved : List BookState}
    {has has' : String × Committed → Prop} (hinv : DiskInv rt disk saved has)
    {sealed : List Segment} {active : Segment} {before last : List WireEvent}
    {tail : List UInt8} (hstored : Stored rt sealed active before last tail)
    {extra : List (WireEvent × FramePos)}
    (hlog : logEvents rt (sealed ++ [active]) = logEvents rt disk.segments ++ extra)
    (hvalid : LogValid (logEvents rt (sealed ++ [active]))) {runs : RunDir}
    (hruns : runs.Holds (logCommits (logEvents rt (sealed ++ [active]))))
    (hhas : ∀ pair, has pair → has' pair) :
    DiskInv rt ⟨sealed ++ [active], runs, disk.snaps⟩ saved has' where
  stored := ⟨sealed, active, before, last, tail, rfl, hstored⟩
  log_valid := hvalid
  runs_hold := hruns
  snaps_valid := by
    rw [hlog]
    exact hinv.snaps_valid.mono hhas
  saved_valid state hstate := by
    obtain ⟨count, hcount⟩ := hinv.saved_valid state hstate
    rw [hlog]
    exact ⟨count, hcount.mono hhas⟩

/-- What an interrupted write phase leaves is a book without a writer. -/
theorem WriterInv.interrupted {writer : Writer} {saved : List BookState}
    (hinv : WriterInv rt writer saved) {items : List (WireEvent × FramePos)}
    (hvalid : LogValid (logEvents rt writer.segments.files ++ items)) {left : SegmentSet}
    (hleft : Interrupted rt writer.segments ((logEvents rt writer.segments.files).map Prod.fst)
      (items.map Prod.fst) left) :
    DiskInv rt ⟨left.files, writer.runs, writer.snaps⟩ saved writer.runs.HasAny := by
  obtain ⟨count, tail, hholds⟩ := hleft.holds
  obtain ⟨before, last, -, hstored⟩ := hholds.stored
  obtain ⟨extra, hlog⟩ := hleft.log_eq
  change logEvents rt (left.sealed ++ [left.active]) = _ at hlog
  refine hinv.diskInv.extend hstored hlog (hvalid.of_isPrefix ?_) ?_ fun _ h => h
  · change (logEvents rt left.files).map Prod.fst <+: _
    rw [hholds.map_fst_logEvents, List.map_append]
    exact (List.prefix_append_right_inj _).2 (List.take_prefix _ _)
  · rw [hlog]
    refine hinv.disk.runs_hold.mono fun pair hpair => ?_
    rw [logCommits_append]
    exact List.mem_append_left _ hpair

end Talea.Log
