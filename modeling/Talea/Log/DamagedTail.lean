import Talea.Log.SnapshotReplay
import Talea.Log.Sequencing
import Talea.Log.BinaryRuntime

/-!
# A damaged final segment

The repair of the final segment and the choice of the snapshot know nothing of
each other.  When damage takes events away that the loaded snapshot or a run
file has, the book opens with a state that is ahead of its log; when it does
not, the state is the replay of what is left.
-/

namespace Talea.Log

open FrameScan

variable {rt : Runtime}

/-! ## Damage -/

/-- The first frames of the file are as they were; behind them the file ends,
or has bytes that do not decode. -/
structure TailDamage (rt : Runtime) where
  kept : ℕ
  rest : List UInt8
  torn : Torn (frameDecoder rt) rest

def Segment.damage (segment : Segment) (damage : TailDamage rt) : Segment :=
  let items := ((frameDecoder rt).scan segment.bytes).items.take damage.kept
  { segment with bytes := segment.bytes.take (items.map Prod.snd).sum ++ damage.rest }

/-- Damage the newest segment file of a closed book. -/
def Disk.damageTail (disk : Disk) (damage : TailDamage rt) : Disk :=
  { disk with
    segments := disk.segments.dropLast ++
      (disk.segments.getLast?.map fun segment => segment.damage damage).toList }

variable {disk : Disk} {sealed : List Segment} {active : Segment} {before last : List WireEvent}
  {tail : List UInt8}

theorem Disk.segments_damageTail (hfiles : disk.segments = sealed ++ [active])
    (damage : TailDamage rt) :
    (disk.damageTail damage).segments = sealed ++ [active.damage damage] := by
  simp [Disk.damageTail, hfiles]

theorem Stored.damage (hstored : Stored rt sealed active before last tail)
    (damage : TailDamage rt) :
    Stored rt sealed (active.damage damage) before (last.take damage.kept) damage.rest := by
  have hevents : before ++ last.take damage.kept <+: before ++ last :=
    (List.prefix_append_right_inj _).2 (List.take_prefix _ _)
  have hlast : ∀ ev ∈ last, FrameFits rt ev :=
    fun ev hev => hstored.fits ev (List.mem_append_right _ hev)
  have hitems : ((frameDecoder rt).scan active.bytes).items =
      last.map fun ev => (ev, (frameBytes rt ev).length) := by
    rw [hstored.bytes_eq, scan_frames_append (frameBytes_encodes rt) hlast, scan_torn hstored.torn,
      List.append_nil]
  have hgood : ((((frameDecoder rt).scan active.bytes).items.take damage.kept).map
      Prod.snd).sum = (frames (frameBytes rt) (last.take damage.kept)).length := by
    rw [hitems, ← List.map_take, List.map_map, ← sum_map_length_frames]
    rfl
  have hbytes : active.bytes = frames (frameBytes rt) (last.take damage.kept) ++
      (frames (frameBytes rt) (last.drop damage.kept) ++ tail) := by
    rw [hstored.bytes_eq, ← List.append_assoc, ← frames_append, List.take_append_drop]
  refine ⟨hstored.sealed_hold, hstored.base_eq, ?_, damage.torn,
    fun ev hev => hstored.fits ev (hevents.subset hev), hstored.numbered.of_isPrefix hevents⟩
  unfold Segment.damage
  dsimp only
  rw [hgood, hbytes, List.take_left]

/-- The surviving log is a first part of the log. -/
theorem Stored.logEvents_damage (hstored : Stored rt sealed active before last tail)
    (damage : TailDamage rt) :
    logEvents rt (sealed ++ [active.damage damage]) <+: logEvents rt (sealed ++ [active]) := by
  rw [logEvents_concat, logEvents_concat, (hstored.damage damage).active_events,
    hstored.active_events]
  refine (List.prefix_append_right_inj _).2 ?_
  rw [← List.take_append_drop damage.kept last, placeFrames_append]
  simp [Segment.damage]

/-- Truncating the file anywhere is such damage. -/
theorem Stored.exists_damage_eq_take (hstored : Stored rt sealed active before last tail)
    (len : ℕ) : ∃ damage : TailDamage rt,
      active.damage damage = { active with bytes := active.bytes.take len } := by
  have hlast : ∀ ev ∈ last, FrameFits rt ev :=
    fun ev hev => hstored.fits ev (List.mem_append_right _ hev)
  have hcut : active.bytes.take len <+: frames (frameBytes rt) last ++ tail := by
    rw [← hstored.bytes_eq]
    exact List.take_prefix _ _
  obtain ⟨kept, rest, hkept, hbytes, htorn⟩ :=
    prefix_frames (frameBytes_encodes rt) hlast hstored.torn hcut
  have hdamaged := (hstored.damage ⟨kept.length, rest, htorn⟩).bytes_eq
  refine ⟨⟨kept.length, rest, htorn⟩, ?_⟩
  have hsame : (active.damage ⟨kept.length, rest, htorn⟩).bytes = active.bytes.take len := by
    rw [hdamaged, hbytes, List.prefix_iff_eq_take.1 hkept, List.length_take,
      Nat.min_eq_left (hkept.length_le)]
  rw [← hsame]
  rfl

/-! ## The state and the log of an opened book -/

/-- The log on disk has exactly the seqs below the next one of the state, and
the state is its replay. -/
structure Opened.MatchesLog (rt : Runtime) (opened : Opened) : Prop where
  seqs : (logEvents rt opened.writer.segments.files).map (fun item => item.1.seq) =
    (List.range (logEvents rt opened.writer.segments.files).length).map
      fun idx : ℕ => 1 + (idx : Int)
  next_seq : opened.writer.state.nextSeq =
    1 + (logEvents rt opened.writer.segments.files).length
  replay : ∃ ledger,
    BookState.initial.replay (logEvents rt opened.writer.segments.files) = .ok ledger ∧
      Agree rt opened.writer.state opened.writer.runs ledger ∅

/-- Opening fails, or the state matches the log. -/
def OpensAtLog (rt : Runtime) (opts : LogStoreOptions) (io : SpillIo) (disk : Disk) : Prop :=
  match openBook rt opts io disk with
  | .error _ => True
  | .ok opened => opened.MatchesLog rt

/-- The log reaches the snapshot that is loaded and every record of the run
files. -/
structure Disk.LogReaches (rt : Runtime) (disk : Disk) : Prop where
  snapshot : (replayStart disk.snaps).2 ≤ 1 + (logEvents rt disk.segments).length
  runs : ∀ n pairs, disk.runs.lookup n = some (.intact pairs) →
    ∀ pair ∈ pairs, pair.2.seq ≤ (logEvents rt disk.segments).length

theorem WireEvent.seq_of_committed {ev : WireEvent} {pair : String × Committed}
    (hpair : ev.committed = some pair) : pair.2.seq = ev.seq := by
  obtain ⟨seq, time, event⟩ := ev
  cases event with
  | transactionPosted tx => cases hpair; rfl
  | assetRegistered asset => simp [WireEvent.committed, LedgerEvent.committedAs] at hpair
  | accountOpened account cfg => simp [WireEvent.committed, LedgerEvent.committedAs] at hpair

/-- In a first part of a numbered log a committed key is found by its seq. -/
theorem mem_logCommits_of_seq_le {items whole : List (WireEvent × FramePos)}
    (hnumbered : Numbered 1 (whole.map Prod.fst)) (hpre : items <+: whole)
    {pair : String × Committed} (hpair : pair ∈ logCommits whole) :
    pair ∈ logCommits items ↔ pair.2.seq ≤ items.length := by
  obtain ⟨more, rfl⟩ := hpre
  rw [List.map_append, numbered_append] at hnumbered
  constructor
  · intro hmem
    obtain ⟨ev, hev, hcommitted⟩ := List.mem_filterMap.1 hmem
    have hbounds := hnumbered.1.mem_bounds hev
    rw [List.length_map] at hbounds
    rw [WireEvent.seq_of_committed hcommitted]
    omega
  · intro hle
    rw [logCommits_append, List.mem_append] at hpair
    refine hpair.resolve_right fun hmore => ?_
    obtain ⟨ev, hev, hcommitted⟩ := List.mem_filterMap.1 hmore
    have hbounds := hnumbered.2.mem_bounds hev
    rw [List.length_map] at hbounds
    rw [WireEvent.seq_of_committed hcommitted] at hle
    omega

/-- A saved state of a log is one of every first part that reaches it. -/
theorem StateAt.of_isPrefix {items whole : List (WireEvent × FramePos)}
    {has : String × Committed → Prop} {state : BookState} {count : ℕ}
    (hstate : StateAt whole has state count) (hpre : items <+: whole)
    (hle : count ≤ items.length) : StateAt items has state count := by
  have htake : items.take count = whole.take count := by
    obtain ⟨more, rfl⟩ := hpre
    rw [List.take_append_of_le_length hle]
  refine ⟨hle, hstate.nextSeq_eq, ?_, ?_, ?_⟩
  · rw [htake]
    exact hstate.ledger
  · rw [htake]
    exact hstate.hot_holds
  · rw [htake]
    exact hstate.covers

/-! ## Lookups after attaching run files -/

/-- The runs of a directory keep to the pairs they are known to have. -/
theorem RunDir.Holds.of_hasAny {dir : RunDir} {pairs kept : List (String × CommittedRec)}
    (hdir : dir.Holds pairs) (hkept : ∀ pair ∈ pairs, dir.HasAny pair → pair ∈ kept) :
    dir.Holds kept := by
  intro n file hlookup
  obtain ⟨run, rfl, hrun⟩ := hdir n file hlookup
  exact ⟨run, rfl, hrun.ascending, hrun.ne_nil, fun pair hpair =>
    hkept pair (hrun.subset pair hpair) ⟨n, run, hlookup, hpair⟩⟩

variable (rt) in
/-- Hot keys and the records of the run files resolve, and nothing else. -/
theorem TieredIdem.get_attachDir_eq_some {idem : TieredIdem} {dir : RunDir}
    {pairs rebuild : List (String × CommittedRec)} (hhot : idem.HotHolds pairs)
    (hdir : dir.Holds pairs) (hnodup : (pairs.map Prod.fst).Nodup) (io : SpillIo)
    (hrebuild : ∀ pair ∈ rebuild, pair.1 ∈ idem.hot) {pair : String × CommittedRec} :
    (idem.attachDir rt io dir rebuild).1.get rt allReadable
        (idem.attachDir rt io dir rebuild).2 pair.1 = some pair.2 ↔
      pair ∈ pairs ∧ (pair.1 ∈ idem.hot ∨ dir.HasAny pair) := by
  classical
  set kept := pairs.filter fun pair => pair.1 ∈ idem.hot ∨ dir.HasAny pair with hkept
  have hmem : ∀ pair, pair ∈ kept ↔ pair ∈ pairs ∧ (pair.1 ∈ idem.hot ∨ dir.HasAny pair) :=
    fun pair => by simp [hkept]
  have hhotKept : idem.HotHolds kept := by
    refine ⟨fun key rec hlookup => ?_, hhot.order_nodup, hhot.mem_order⟩
    exact (hmem _).2 ⟨hhot.subset key rec hlookup,
      Or.inl (Finmap.lookup_isSome.1 (by simp [hlookup]))⟩
  have hdirKept : dir.Holds kept :=
    hdir.of_hasAny fun pair hpair hhas => (hmem pair).2 ⟨hpair, Or.inr hhas⟩
  obtain ⟨hindex, -, -⟩ := Indexes.of_attachDir rt hhotKept hdirKept io hrebuild
    fun pair hpair => ((hmem pair).1 hpair).2
  have hsub : (kept.map Prod.fst).Nodup := hnodup.sublist (List.filter_sublist.map _)
  rw [hindex.get_eq hsub, SortedPairs.search_eq_some hsub]
  exact hmem pair

/-! ## Opening the damaged book -/

section Open

variable {saved : List BookState} (hinv : DiskInv rt disk saved disk.runs.HasAny)
  (damage : TailDamage rt) (opts : LogStoreOptions) (io : SpillIo) {count : ℕ}
  {final : BookState}
include hinv

/-- The damaged log is a valid first part of the log. -/
theorem DiskInv.logValid_damageTail :
    logEvents rt (disk.damageTail damage).segments <+: logEvents rt disk.segments ∧
      LogValid (logEvents rt (disk.damageTail damage).segments) := by
  obtain ⟨sealed, active, before, last, tail, hfiles, hstored⟩ := hinv.stored
  have hpre : logEvents rt (disk.damageTail damage).segments <+: logEvents rt disk.segments := by
    rw [Disk.segments_damageTail hfiles, hfiles]
    exact hstored.logEvents_damage damage
  exact ⟨hpre, hinv.log_valid.of_isPrefix (hpre.map Prod.fst)⟩

/-- A log that reaches the snapshot is replayed to its end; then it is up to
the run files whether the state matches it. -/
theorem DiskInv.matchesLog_iff (hfiles : disk.segments = sealed ++ [active])
    (hstored : Stored rt sealed active before last tail)
    (hfinal : StateAt (logEvents rt (disk.damageTail damage).segments) disk.runs.HasAny final
      (logEvents rt (disk.damageTail damage).segments).length)
    (hrebuild : ∀ pair ∈ commitsOf
      (((logEvents rt (disk.damageTail damage).segments).drop count).map Prod.fst),
      pair.1 ∈ final.idem.hot) :
    (openedAt rt opts io (disk.damageTail damage) sealed (active.damage damage) count
        final).MatchesLog rt ↔
      ∀ n pairs, disk.runs.lookup n = some (.intact pairs) → ∀ pair ∈ pairs,
        pair.2.seq ≤ (logEvents rt (disk.damageTail damage).segments).length := by
  obtain ⟨hpre, hvalid⟩ := hinv.logValid_damageTail damage
  have hlog : logEvents rt (sealed ++ [(active.damage damage).repaired rt]) =
      logEvents rt (disk.damageTail damage).segments := by
    rw [(hstored.damage damage).logEvents_repaired, Disk.segments_damageTail hfiles]
  have hcovers := hfinal.covers
  have hhot := hfinal.hot_holds
  have hledger := hfinal.ledger
  rw [List.take_length] at hcovers hhot hledger
  rw [← filterMap_committed] at hrebuild
  have hmore : ∀ pair ∈ logCommits (logEvents rt (disk.damageTail damage).segments),
      pair ∈ logCommits (logEvents rt disk.segments) := by
    obtain ⟨more, hmore⟩ := hpre
    rw [← hmore, logCommits_append]
    exact fun pair hpair => List.mem_append_left _ hpair
  constructor
  · -- a record of an event that is lost would still answer
    intro hmatches n pairs hlookup pair hpair
    obtain ⟨run, hrun, hholds⟩ := hinv.runs_hold n _ hlookup
    cases hrun
    have hcommitted := hholds.subset pair hpair
    have hanswer := (TieredIdem.get_attachDir_eq_some rt (hhot.mono hmore) hinv.runs_hold
      hinv.log_valid.keys_nodup io hrebuild).2
      ⟨hcommitted, Or.inr ⟨n, pairs, hlookup, hpair⟩⟩
    obtain ⟨ledger, hreplay, hagree⟩ := hmatches.replay
    change BookState.initial.replay
      (logEvents rt (sealed ++ [(active.damage damage).repaired rt])) = _ at hreplay
    rw [hlog] at hreplay
    have hsame := hagree.lookup pair.1
    change TieredIdem.get rt _ _ _ _ = _ at hsame
    rw [(LogValid.indexes_replay hreplay).get_eq hvalid.keys_nodup] at hsame
    have hfound := (SortedPairs.search_eq_some hvalid.keys_nodup).1 (hsame.symm.trans hanswer)
    exact (mem_logCommits_of_seq_le hinv.log_valid.numbered hpre hcommitted).1 hfound
  · -- the run files hold nothing but keys of the damaged log
    intro hreaches
    have hruns : disk.runs.Holds
        (logCommits (logEvents rt (disk.damageTail damage).segments)) := by
      refine hinv.runs_hold.of_hasAny ?_
      rintro pair hpair ⟨n, run, hlookup, hmem⟩
      exact (mem_logCommits_of_seq_le hinv.log_valid.numbered hpre hpair).2
        (hreaches n run hlookup pair hmem)
    obtain ⟨hindex, -, -⟩ := TieredIdem.Indexes.of_attachDir rt hhot hruns io hrebuild hcovers
    obtain ⟨ledger, hreplay, hforget⟩ := hledger
    constructor
    · change (logEvents rt (sealed ++ [(active.damage damage).repaired rt])).map _ = _
      have hseqs := hvalid.numbered.map_seq
      rw [List.map_map, List.length_map] at hseqs
      simp only [openedAt, SegmentSet.files, hlog]
      exact hseqs
    · simp only [openedAt, SegmentSet.files, hlog]
      change final.nextSeq = _
      rw [hfinal.nextSeq_eq, add_comm]
    · simp only [openedAt, SegmentSet.files, hlog]
      exact ⟨ledger, hreplay, .of_forgetIdem hforget hvalid.keys_nodup hindex
        (LogValid.indexes_replay hreplay)⟩

/-- Opening a book with a damaged final segment. -/
theorem DiskInv.opensAtLog_iff :
    OpensAtLog rt opts io (disk.damageTail damage) ↔ (disk.damageTail damage).LogReaches rt := by
  obtain ⟨sealed, active, before, last, tail, hfiles, hstored⟩ := hinv.stored
  obtain ⟨hpre, hvalid⟩ := hinv.logValid_damageTail damage
  obtain ⟨count, hfrom, hstart⟩ := replayStart_valid hinv.snaps_valid
  have hopen : ∀ final, ((replayStart disk.snaps).1.withCap opts.idemHotCap).replay
      ((logEvents rt (disk.damageTail damage).segments).drop count) = .ok final →
      Log.openBook rt opts io (disk.damageTail damage) = .ok (openedAt rt opts io
        (disk.damageTail damage) sealed (active.damage damage) count final) :=
    fun final hreplay => openBook_eq (disk.damageTail damage)
      (Disk.segments_damageTail hfiles damage) (hstored.damage damage) hfrom hreplay io
  by_cases hle : count ≤ (logEvents rt (disk.damageTail damage).segments).length
  · obtain ⟨final, hreplay, hfinal, hrebuild⟩ :=
      ((hstart.of_isPrefix hpre hle).withCap opts.idemHotCap).replay_drop hvalid
    unfold OpensAtLog
    rw [hopen final hreplay]
    have hiff := hinv.matchesLog_iff damage opts io hfiles hstored hfinal hrebuild
    refine hiff.trans ⟨fun hruns => ⟨?_, hruns⟩, fun hreaches => hreaches.runs⟩
    change (replayStart disk.snaps).2 ≤ _
    rw [hfrom]
    omega
  · -- the snapshot is ahead: nothing is replayed, and the state keeps its seq
    have hnil : (logEvents rt (disk.damageTail damage).segments).drop count = [] :=
      List.drop_eq_nil_of_le (by omega)
    have hreplay : ((replayStart disk.snaps).1.withCap opts.idemHotCap).replay
        ((logEvents rt (disk.damageTail damage).segments).drop count) =
        .ok ((replayStart disk.snaps).1.withCap opts.idemHotCap) := by
      rw [hnil]
      rfl
    have hlog : logEvents rt (sealed ++ [(active.damage damage).repaired rt]) =
        logEvents rt (disk.damageTail damage).segments := by
      rw [(hstored.damage damage).logEvents_repaired, Disk.segments_damageTail hfiles]
    unfold OpensAtLog
    rw [hopen _ hreplay]
    constructor
    · intro hmatches
      have hseq := hmatches.next_seq
      simp only [openedAt, SegmentSet.files, hlog] at hseq
      change (replayStart disk.snaps).1.nextSeq = _ at hseq
      rw [hstart.nextSeq_eq] at hseq
      omega
    · intro hreaches
      have hsnapshot : (replayStart disk.snaps).2 ≤ _ := hreaches.snapshot
      rw [hfrom] at hsnapshot
      omega

end Open

/-- After any run and any damage to the final segment, opening the book fails
or its state matches its log if and only if what is left of the log reaches the
snapshot that is loaded and every record of the run files. -/
theorem opens_at_log_iff (rt : Runtime) (opts : LogStoreOptions) (io : SpillIo)
    (actions : List Action) (damage : TailDamage rt) (opts' : LogStoreOptions) (io' : SpillIo) :
    let disk := (Run.exec rt opts io actions).status.disk.damageTail damage
    OpensAtLog rt opts' io' disk ↔ disk.LogReaches rt :=
  (RunInv.exec rt opts io actions).book.diskInv.opensAtLog_iff damage opts' io'

/-! ## A snapshot ahead of the log -/

/-- Two accounts are opened and a snapshot is taken. -/
def snapshotAhead : List Action :=
  [.batch ⟨1, [(.openAccount ⟨⟨⟨"main"⟩, "cash"⟩, ⟨"EUR"⟩, .asset⟩ ⟨none, none⟩, 1),
    (.openAccount ⟨⟨⟨"main"⟩, "bank"⟩, ⟨"EUR"⟩, .asset⟩ ⟨none, none⟩, 1), (.snapshot, 1)],
    .ok, .ok⟩]

/-- The final segment is truncated to nothing. -/
def truncatedToNothing : TailDamage binaryRuntime :=
  ⟨0, [], Or.inl rfl⟩

set_option maxRecDepth 20000 in
/-- Not every damaged book opens with a state that matches its log. -/
theorem not_opens_at_log : ¬ ∀ (rt : Runtime) (opts : LogStoreOptions) (io : SpillIo)
    (actions : List Action) (damage : TailDamage rt) (opts' : LogStoreOptions) (io' : SpillIo),
    OpensAtLog rt opts' io' ((Run.exec rt opts io actions).status.disk.damageTail damage) := by
  intro hopens
  have hopen := hopens binaryRuntime ⟨1000000, 0, defaultSegmentMax⟩ .ok snapshotAhead
    truncatedToNothing ⟨1000000, 0, defaultSegmentMax⟩ .ok
  rw [(RunInv.exec _ _ _ _).book.diskInv.opensAtLog_iff] at hopen
  have hahead : ¬ (replayStart (Disk.damageTail (Run.exec binaryRuntime
      ⟨1000000, 0, defaultSegmentMax⟩ .ok snapshotAhead).status.disk truncatedToNothing).snaps).2 ≤
      1 + (logEvents binaryRuntime (Disk.damageTail (Run.exec binaryRuntime
        ⟨1000000, 0, defaultSegmentMax⟩ .ok snapshotAhead).status.disk
          truncatedToNothing).segments).length := by
    decide +kernel
  exact hahead hopen.snapshot

end Talea.Log
