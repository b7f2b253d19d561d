import Talea.Log.BatchSpec

/-!
# Reopening a book

Opening the files of a book repairs a torn tail, starts from a saved state or
from nothing, replays the rest of the log and attaches the run files.  As long
as the run files are intact this always succeeds, and the writer it makes has
the invariant again: where the replay starts does not show in its state.
-/

namespace Talea.Log

variable {rt : Runtime}

/-! ## A snapshot reads back -/

namespace PostingIndex

theorem flat_push (index : PostingIndex) (entry : PostingEntry) :
    (index.push entry).flat = index.flat ++ [entry] := by
  unfold push
  split <;> simp [flat]

theorem flat_foldl_push (entries : List PostingEntry) (index : PostingIndex) :
    (entries.foldl push index).flat = index.flat ++ entries := by
  induction entries generalizing index with
  | nil => simp
  | cons entry entries ih => rw [List.foldl_cons, ih, flat_push, List.append_assoc]; rfl

theorem flat_ofFlat (entries : List PostingEntry) : (ofFlat entries).flat = entries := by
  rw [ofFlat, flat_foldl_push]
  rfl

/-- The chunks of a history are determined by its entries. -/
theorem chunks_unique {sealed sealed' : List (List PostingEntry)} {tail tail' : List PostingEntry}
    (hsealed : ∀ chunk ∈ sealed, chunk.length = chunkLen)
    (hsealed' : ∀ chunk ∈ sealed', chunk.length = chunkLen)
    (htail : tail.length < chunkLen) (htail' : tail'.length < chunkLen)
    (hflat : sealed.flatten ++ tail = sealed'.flatten ++ tail') :
    sealed = sealed' ∧ tail = tail' := by
  induction sealed generalizing sealed' with
  | nil =>
      cases sealed' with
      | nil => exact ⟨rfl, by simpa using hflat⟩
      | cons chunk sealed' =>
          have hlen := congrArg List.length hflat
          have hchunk := hsealed' chunk List.mem_cons_self
          simp only [List.flatten_nil, List.nil_append, List.flatten_cons,
            List.length_append] at hlen
          omega
  | cons chunk sealed ih =>
      cases sealed' with
      | nil =>
          have hlen := congrArg List.length hflat
          have hchunk := hsealed chunk List.mem_cons_self
          simp only [List.flatten_nil, List.nil_append, List.flatten_cons,
            List.length_append] at hlen
          omega
      | cons chunk' sealed' =>
          rw [List.flatten_cons, List.flatten_cons, List.append_assoc, List.append_assoc] at hflat
          obtain ⟨rfl, hrest⟩ := List.append_inj hflat
            ((hsealed chunk List.mem_cons_self).trans (hsealed' chunk' List.mem_cons_self).symm)
          obtain ⟨rfl, rfl⟩ := ih (fun other hother => hsealed other (List.mem_cons_of_mem _ hother))
            (fun other hother => hsealed' other (List.mem_cons_of_mem _ hother)) hrest
          exact ⟨rfl, rfl⟩

theorem flat_injective : Function.Injective flat := by
  rintro ⟨sealed, tail, hsealed, htail⟩ ⟨sealed', tail', hsealed', htail'⟩ hflat
  obtain ⟨rfl, rfl⟩ := chunks_unique hsealed hsealed' htail htail' hflat
  rfl

/-- A history is cut into the same chunks again when it is loaded. -/
theorem ofFlat_flat (index : PostingIndex) : ofFlat index.flat = index :=
  flat_injective (flat_ofFlat index.flat)

end PostingIndex

theorem AccountState.deserialize_serialize (acct : AccountState) :
    acct.serialize.deserialize = acct := by
  simp only [serialize, AccountJson.deserialize, PostingIndex.ofFlat_flat]

/-- The index as a snapshot keeps it. -/
def TieredIdem.unattached (idem : TieredIdem) : TieredIdem :=
  { idem with runs := [], bloom := Bloom.new 1 }

/-- A snapshot reads back as the state it was taken of, but for the runs of the
idempotency index. -/
theorem BookState.deserialize_serialize (state : BookState) :
    state.serialize.deserialize = state.withIdem state.idem.unattached := by
  simp only [serialize, StateJson.deserialize, withIdem, TieredIdem.unattached,
    HashMap.mapVals_mapVals_of_leftInverse AccountState.deserialize_serialize]

/-! ## Where a replay starts -/

theorem TieredIdem.HotHolds.of_same {idem other : TieredIdem} {pairs : List (String × Committed)}
    (hhot : idem.HotHolds pairs) (hmap : other.hot = idem.hot) (horder : other.order = idem.order) :
    other.HotHolds pairs where
  subset := by
    rw [hmap]
    exact hhot.subset
  order_nodup := by
    rw [horder]
    exact hhot.order_nodup
  mem_order := by
    rw [hmap, horder]
    exact hhot.mem_order

section Start

variable {items : List (WireEvent × FramePos)} {has : String × Committed → Prop}

/-- Capacity, runs and filter of the index do not matter for a saved state. -/
theorem StateAt.withIdem {state : BookState} {count : ℕ} (hstate : StateAt items has state count)
    {idem : TieredIdem} (hmap : idem.hot = state.idem.hot)
    (horder : idem.order = state.idem.order) : StateAt items has (state.withIdem idem) count where
  count_le := hstate.count_le
  nextSeq_eq := hstate.nextSeq_eq
  ledger := hstate.ledger
  hot_holds := hstate.hot_holds.of_same hmap horder
  covers := by
    rw [BookState.idem_withIdem, hmap]
    exact hstate.covers

theorem StateAt.withCap {state : BookState} {count : ℕ} (hstate : StateAt items has state count)
    (cap : ℕ) : StateAt items has (state.withCap cap) count :=
  hstate.withIdem rfl rfl

theorem StateAt.initial (items : List (WireEvent × FramePos)) (has : String × Committed → Prop) :
    StateAt items has BookState.initial 0 where
  count_le := Nat.zero_le _
  nextSeq_eq := rfl
  ledger := ⟨BookState.initial, rfl, rfl⟩
  hot_holds := TieredIdem.hotHolds_withCap _ _
  covers := by simp [commitsOf]

theorem firstIntact_valid {snaps : SnapDir} (hvalid : snaps.Valid items has) {seqs : List Int}
    {loaded : BookState} {seq : Int} (hload : firstIntact snaps seqs = some (loaded, seq)) :
    ∃ count : ℕ, seq = count ∧ StateAt items has loaded count := by
  induction seqs with
  | nil => simp [firstIntact] at hload
  | cons newest older ih =>
      unfold firstIntact at hload
      split at hload
      · next json hjson =>
          cases hload
          obtain ⟨state, count, rfl, rfl, hstate⟩ := hvalid _ _ hjson
          rw [BookState.deserialize_serialize]
          exact ⟨count, rfl, hstate.withIdem rfl rfl⟩
      · exact ih hload

/-- A replay starts after a first part of the log, from a state saved there. -/
theorem replayStart_valid {snaps : SnapDir} (hvalid : snaps.Valid items has) :
    ∃ count : ℕ, (replayStart snaps).2 = count + 1 ∧
      StateAt items has (replayStart snaps).1 count := by
  unfold replayStart
  cases hload : loadLatest snaps with
  | none => exact ⟨0, rfl, .initial items has⟩
  | some loaded =>
      obtain ⟨loaded, seq⟩ := loaded
      obtain ⟨count, rfl, hstate⟩ := firstIntact_valid hvalid hload
      exact ⟨count, rfl, hstate⟩

theorem foldlM_replayItem {state final : BookState} {items : List (WireEvent × FramePos)}
    (hreplay : state.replay items = .ok final) : items.foldlM replayItem state = .ok final := by
  induction items generalizing state with
  | nil =>
      cases hreplay
      rfl
  | cons item items ih =>
      obtain ⟨next, happly, hrest⟩ := Except.bind_eq_ok.1 ((BookState.replay_cons ..).symm.trans hreplay)
      rw [List.foldlM_cons, replayItem, happly]
      exact ih hrest

/-- Replaying the tail of a valid log from a saved state. -/
theorem StateAt.replay_drop {state : BookState} {count : ℕ}
    (hstate : StateAt items has state count) (hvalid : LogValid items) :
    ∃ final, state.replay (items.drop count) = .ok final ∧ StateAt items has final items.length ∧
      ∀ pair ∈ commitsOf ((items.drop count).map Prod.fst), pair.1 ∈ final.idem.hot := by
  obtain ⟨start, hstart, hsame⟩ := hstate.ledger
  obtain ⟨ledger, hledger⟩ := hvalid.replays
  have hsplit := hledger
  rw [← List.take_append_drop count items, BookState.replay_append_eq_ok, hstart] at hsplit
  obtain ⟨mid, hmid, htail⟩ := hsplit
  cases hmid
  obtain ⟨final, hfinal, hforget⟩ := BookState.replay_forgetIdem hsame.symm htail
  have hidem := BookState.idem_of_replay hfinal
  have hcommits : commitsOf (items.map Prod.fst) =
      commitsOf ((items.take count).map Prod.fst) ++ commitsOf ((items.drop count).map Prod.fst) := by
    rw [← commitsOf_append, ← List.map_append, List.take_append_drop]
  refine ⟨final, hfinal, ?_, ?_⟩
  · constructor
    · exact le_rfl
    · rw [(BookState.same_of_forgetIdem hforget).1,
        BookState.nextSeq_of_replay_initial hvalid.numbered hledger]
    · rw [List.take_length]
      exact ⟨ledger, hledger, hforget⟩
    · rw [List.take_length, hidem, hcommits]
      exact (hstate.hot_holds.mono fun pair hpair => List.mem_append_left _ hpair).foldl_record
        fun pair hpair => List.mem_append_right _ hpair
    · rw [List.take_length, hidem, hcommits]
      intro pair hpair
      rw [TieredIdem.mem_hot_foldl_record_iff]
      rcases List.mem_append.1 hpair with hold | hnew
      · exact (hstate.covers pair hold).imp_left Or.inl
      · exact Or.inl (Or.inr ⟨pair, hnew, rfl⟩)
  · intro pair hpair
    rw [hidem, TieredIdem.mem_hot_foldl_record_iff]
    exact Or.inr ⟨pair, hpair, rfl⟩

end Start

/-! ## Opening -/

variable {disk : Disk} {sealed : List Segment} {active : Segment}
  {before last : List WireEvent} {tail : List UInt8}

/-- The book that is opened when the replay skips `count` events and ends in
`final`. -/
def openedAt (rt : Runtime) (opts : LogStoreOptions) (io : SpillIo) (disk : Disk)
    (sealed : List Segment) (active : Segment) (count : ℕ) (final : BookState) : Opened :=
  let items := (logEvents rt disk.segments).drop count
  let attached := final.idem.attachDir rt io disk.runs
    (items.filterMap fun item => item.1.committed)
  { writer :=
      { segments := ⟨sealed, active.repaired rt, (active.repaired rt).bytes.length,
          opts.segmentMax⟩
        state := final.withIdem attached.1
        runs := attached.2
        snaps := disk.snaps
        eventsSinceSnap := 0
        snapshotEvery := opts.snapshotEvery
        snapInflight := false }
    registered := items.filterMap fun item => item.1.registers }

theorem Stored.openWithMax_repaired (hstored : Stored rt sealed active before last tail)
    (segmentMax : ℕ) :
    SegmentSet.openWithMax rt segmentMax (sealed ++ [active.repaired rt]) =
      .ok ⟨sealed, active.repaired rt, (active.repaired rt).bytes.length, segmentMax⟩ := by
  have hagain := hstored.repaired.repaired_eq
  rw [if_pos rfl] at hagain
  rw [hstored.repaired.openWithMax, hagain]

/-- Opening files that hold a log, whatever is in the run files. -/
theorem openBook_eq (disk : Disk) (hfiles : disk.segments = sealed ++ [active])
    (hstored : Stored rt sealed active before last tail) {opts : LogStoreOptions} {count : ℕ}
    (hfrom : (replayStart disk.snaps).2 = count + 1) {final : BookState}
    (hreplay : ((replayStart disk.snaps).1.withCap opts.idemHotCap).replay
      ((logEvents rt disk.segments).drop count) = .ok final) (io : SpillIo) :
    openBook rt opts io disk = .ok (openedAt rt opts io disk sealed active count final) := by
  have hscan : scanWithPos rt (replayStart disk.snaps).2 (sealed ++ [active.repaired rt]) =
      .ok ((logEvents rt disk.segments).drop count) := by
    rw [hfrom, hstored.repaired.scanWithPos_succ, hstored.logEvents_repaired, hfiles]
  unfold Log.openBook
  rw [hfiles, hstored.openWithMax]
  change (scanWithPos rt (replayStart disk.snaps).2 (sealed ++ [active.repaired rt]) >>= _) = _
  rw [hscan]
  change (((logEvents rt disk.segments).drop count).foldlM replayItem
    ((replayStart disk.snaps).1.withCap opts.idemHotCap) >>= _) = _
  rw [foldlM_replayItem hreplay]
  change (SegmentSet.openWithMax rt opts.segmentMax (sealed ++ [active.repaired rt]) >>= _) = _
  rw [hstored.openWithMax_repaired, openedAt]
  rfl

/-- The pairs a rebuild of the run files is given. -/
theorem filterMap_committed (items : List (WireEvent × FramePos)) :
    items.filterMap (fun item => item.1.committed) = commitsOf (items.map Prod.fst) := by
  rw [commitsOf, List.filterMap_map]
  rfl

/-- What opening a book makes of its files. -/
structure Opened.Spec (rt : Runtime) (disk : Disk) (saved : List BookState) (opened : Opened) :
    Prop where
  inv : WriterInv rt opened.writer saved
  log_eq : logEvents rt opened.writer.segments.files = logEvents rt disk.segments
  runs_eq : opened.writer.runs = disk.runs
  snaps_eq : opened.writer.snaps = disk.snaps
  registered : ∃ count : ℕ, (replayStart disk.snaps).2 = count + 1 ∧
    opened.registered = ((logEvents rt disk.segments).drop count).filterMap fun item =>
      item.1.registers
  synced : (∀ segment ∈ disk.segments, segment.synced = segment.bytes.length) →
    opened.writer.segments.Synced

theorem Stored.synced_repaired (hstored : Stored rt sealed active before last tail)
    (hsynced : ∀ segment ∈ sealed ++ [active], segment.synced = segment.bytes.length) :
    ∀ segment ∈ sealed ++ [active.repaired rt], segment.synced = segment.bytes.length := by
  intro segment hmem
  rcases List.mem_append.1 hmem with hsealed | hlast
  · exact hsynced segment (List.mem_append_left _ hsealed)
  · rw [List.mem_singleton.1 hlast, hstored.repaired_eq]
    split
    · exact hsynced active (by simp)
    · rfl

theorem DiskInv.repaired {saved : List BookState} {has : String × Committed → Prop}
    (hinv : DiskInv rt disk saved has) (hfiles : disk.segments = sealed ++ [active])
    (hstored : Stored rt sealed active before last tail) :
    DiskInv rt ⟨sealed ++ [active.repaired rt], disk.runs, disk.snaps⟩ saved has := by
  have hlog : logEvents rt (sealed ++ [active.repaired rt]) = logEvents rt disk.segments := by
    rw [hstored.logEvents_repaired, hfiles]
  constructor
  · exact ⟨sealed, active.repaired rt, before, last, [], rfl, hstored.repaired⟩
  · rw [hlog]
    exact hinv.log_valid
  · rw [hlog]
    exact hinv.runs_hold
  · rw [hlog]
    exact hinv.snaps_valid
  · rw [hlog]
    exact hinv.saved_valid

/-- Opening a book whose run files are intact succeeds, whatever options it is
opened with. -/
theorem DiskInv.openBook {saved : List BookState} (hinv : DiskInv rt disk saved disk.runs.HasAny)
    (opts : LogStoreOptions) (io : SpillIo) :
    ∃ opened, openBook rt opts io disk = .ok opened ∧ opened.Spec rt disk saved := by
  obtain ⟨sealed, active, before, last, tail, hfiles, hstored⟩ := hinv.stored
  obtain ⟨count, hfrom, hstart⟩ := replayStart_valid hinv.snaps_valid
  obtain ⟨final, hreplay, hfinal, hrebuild⟩ :=
    (hstart.withCap opts.idemHotCap).replay_drop hinv.log_valid
  have hlog : logEvents rt (sealed ++ [active.repaired rt]) = logEvents rt disk.segments := by
    rw [hstored.logEvents_repaired, hfiles]
  have hcovers := hfinal.covers
  have hhot := hfinal.hot_holds
  have hledger := hfinal.ledger
  rw [List.take_length] at hcovers hhot hledger
  rw [← filterMap_committed] at hrebuild
  obtain ⟨hindex, hruns, hany⟩ :=
    TieredIdem.Indexes.of_attachDir rt hhot hinv.runs_hold io hrebuild hcovers
  refine ⟨_, openBook_eq disk hfiles hstored hfrom hreplay io, ?_⟩
  have hopened : (openedAt rt opts io disk sealed active count final).writer.segments.files =
    sealed ++ [active.repaired rt] := rfl
  constructor
  · constructor
    · simp only [openedAt, Writer.disk, SegmentSet.files, BookState.idem_withIdem]
      rw [hruns]
      exact (hinv.repaired hfiles hstored).mono_has hany
    · rw [hopened, hstored.repaired.map_fst_logEvents]
      exact ⟨rfl, before, last, rfl, hstored.repaired⟩
    · rw [hopened, hlog]
      exact hledger
    · rw [hopened, hlog]
      exact hindex
  · rw [hopened, hlog]
  · exact hruns
  · rfl
  · exact ⟨count, hfrom, rfl⟩
  · rw [hfiles]
    exact hstored.synced_repaired

/-- A new book. -/
theorem createBook_spec (rt : Runtime) (opts : LogStoreOptions) (io : SpillIo) :
    ∃ writer, createBook rt opts io Disk.empty = .ok writer ∧ WriterInv rt writer [] ∧
      logEvents rt writer.segments.files = [] ∧ writer.segments.Synced := by
  have hstored : Stored rt [] (Segment.create 1) [] [] [] :=
    ⟨rfl, rfl, by simp [Segment.create], Or.inl rfl, by simp, trivial⟩
  have hempty : logEvents rt [Segment.create 1] = [] := by
    simp [logEvents, Segment.events_create]
  have hhot := TieredIdem.hotHolds_withCap defaultIdemHotCap ([] : List (String × Committed))
  have hdir : RunDir.Holds ∅ ([] : List (String × Committed)) := by
    intro n file hlookup
    simp at hlookup
  have hrebuild : ∀ pair ∈ ([] : List (String × Committed)),
      pair.1 ∈ (TieredIdem.withCap defaultIdemHotCap).hot := by simp
  obtain ⟨hindex, hruns, hany⟩ :=
    TieredIdem.Indexes.of_attachDir rt hhot hdir io hrebuild (by simp)
  refine ⟨_, rfl, ?_, hempty, ?_⟩
  · constructor
    · constructor
      · exact ⟨[], Segment.create 1, [], [], [], rfl, hstored⟩
      · change LogValid (logEvents rt [Segment.create 1])
        rw [hempty]
        exact ⟨trivial, List.Pairwise.nil, List.nodup_nil, _, rfl⟩
      · change RunDir.Holds _ (logCommits (logEvents rt [Segment.create 1]))
        rw [hempty]
        exact hindex.dir_holds
      · intro seq json hlookup
        simp [Disk.empty, Writer.disk] at hlookup
      · simp
    · change SegmentSet.Holds rt _ ((logEvents rt [Segment.create 1]).map Prod.fst) []
      rw [hempty]
      exact ⟨rfl, [], [], rfl, hstored⟩
    · change ∃ ledger, BookState.initial.replay (logEvents rt [Segment.create 1]) = .ok ledger ∧ _
      rw [hempty]
      exact ⟨BookState.initial, rfl, rfl⟩
    · change TieredIdem.Indexes rt _ _ (logCommits (logEvents rt [Segment.create 1]))
      rw [hempty]
      exact hindex
  · intro segment hmem
    rw [List.mem_singleton.1 hmem]
    rfl

end Talea.Log
