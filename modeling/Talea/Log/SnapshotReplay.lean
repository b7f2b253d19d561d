import Talea.Log.RunInvariant

/-!
# A snapshot and the tail against the whole log

Take snapshots of any states at the ends of batches, damage any of the files,
and open the book: the state is the one that replaying the whole log gives, and
the one the writer had, whichever snapshot was loaded.  Only where the keys of
the idempotency index are kept differs; every lookup answers the same.
-/

namespace Talea.Log

variable {rt : Runtime}

/-! ## Snapshots of earlier batch boundaries -/

/-- Write a snapshot of each of the chosen states, in the given order. -/
def writeSnapshots (boundaries : List BookState) (picks : List (ℕ × SnapIo)) : SnapDir :=
  picks.foldl (fun dir pick =>
    match boundaries[pick.1]? with
    | none => dir
    | some state => (writeSnapshot pick.2 dir state (state.nextSeq - 1)).2) ∅

/-- Damage the snapshot files with the given seqs. -/
def SnapDir.damage (dir : SnapDir) (seqs : List Int) : SnapDir :=
  seqs.foldl (fun dir seq => if seq ∈ dir then dir.insert seq .corrupt else dir) dir

theorem SnapDir.Valid.damage {dir : SnapDir} {items : List (WireEvent × FramePos)}
    {has : String × Committed → Prop} (hvalid : dir.Valid items has) (seqs : List Int) :
    (dir.damage seqs).Valid items has := by
  unfold SnapDir.damage
  induction seqs generalizing dir with
  | nil => exact hvalid
  | cons seq seqs ih =>
      refine ih ?_
      dsimp only
      split
      · intro other json hlookup
        by_cases hsame : other = seq
        · rw [hsame, AList.lookup_insert] at hlookup
          simp at hlookup
        · rw [AList.lookup_insert_ne hsame] at hlookup
          exact hvalid other json hlookup
      · exact hvalid

theorem DiskInv.writeSnapshots_valid {disk : Disk} {saved : List BookState}
    {has : String × Committed → Prop} (hinv : DiskInv rt disk saved has)
    (picks : List (ℕ × SnapIo)) :
    (writeSnapshots saved picks).Valid (logEvents rt disk.segments) has := by
  have hempty : SnapDir.Valid ∅ (logEvents rt disk.segments) has := by
    intro seq json hlookup
    simp at hlookup
  unfold writeSnapshots
  generalize (∅ : SnapDir) = dir at hempty
  induction picks generalizing dir with
  | nil => exact hempty
  | cons pick picks ih =>
      refine ih _ ?_
      dsimp only
      split
      · exact hempty
      · next state hstate =>
          obtain ⟨count, hcount⟩ := hinv.saved_valid state (List.mem_of_getElem? hstate)
          refine hempty.writeSnapshot hcount pick.2 ?_
          rw [hcount.nextSeq_eq]
          ring

/-! ## Agreement of states -/

/-- Two book states agree on everything the book shows: the ledger, and the
answer to every key. -/
structure Agree (rt : Runtime) (left : BookState) (leftDir : RunDir) (right : BookState)
    (rightDir : RunDir) : Prop where
  accounts : left.accounts = right.accounts
  sums : left.sums = right.sums
  txids : left.txids = right.txids
  next_seq : left.nextSeq = right.nextSeq
  last_at : left.lastAt = right.lastAt
  lookup : ∀ key, left.idem.get rt allReadable leftDir key =
    right.idem.get rt allReadable rightDir key

theorem Agree.of_forgetIdem {left right : BookState} {leftDir rightDir : RunDir}
    {pairs : List (String × Committed)} (hsame : left.forgetIdem = right.forgetIdem)
    (hnodup : (pairs.map Prod.fst).Nodup) (hleft : left.idem.Indexes rt leftDir pairs)
    (hright : right.idem.Indexes rt rightDir pairs) : Agree rt left leftDir right rightDir where
  accounts := (BookState.same_of_forgetIdem hsame).2.2.1
  sums := (BookState.same_of_forgetIdem hsame).2.2.2.2
  txids := (BookState.same_of_forgetIdem hsame).2.2.2.1
  next_seq := (BookState.same_of_forgetIdem hsame).1
  last_at := (BookState.same_of_forgetIdem hsame).2.1
  lookup key := by rw [hleft.get_eq hnodup, hright.get_eq hnodup]

/-- A replay from nothing has every committed key in the hot map. -/
theorem LogValid.indexes_replay {items : List (WireEvent × FramePos)} {ledger : BookState}
    (hreplay : BookState.initial.replay items = .ok ledger) :
    ledger.idem.Indexes rt ∅ (logCommits items) := by
  have hidem := BookState.idem_of_replay hreplay
  have hempty : BookState.initial.idem.Indexes rt ∅ [] := by
    refine ⟨TieredIdem.hotHolds_withCap _ _, ?_, ?_, by simp⟩
    · intro n file hlookup
      simp at hlookup
    · intro info hinfo
      exact absurd hinfo List.not_mem_nil
  rw [hidem]
  exact hempty.foldl_record (items.map Prod.fst)

/-- The state a book is opened with, against the replay of its whole log and
the state of the writer it had. -/
structure Recovered (rt : Runtime) (status : Status) (opened : Opened) : Prop where
  log_eq : logEvents rt opened.writer.segments.files = logEvents rt status.disk.segments
  full_replay : ∃ ledger, BookState.initial.replay (logEvents rt status.disk.segments) =
    .ok ledger ∧ Agree rt opened.writer.state opened.writer.runs ledger ∅
  live : match status with
    | .live writer =>
        Agree rt opened.writer.state opened.writer.runs writer.state writer.runs
    | .stopped _ => True

theorem Opened.Spec.recovered {status : Status} {snaps : SnapDir} {saved : List BookState}
    {opened : Opened} (hspec : opened.Spec rt ⟨status.disk.segments, status.disk.runs, snaps⟩ saved)
    (hbook : status.Inv rt saved) : Recovered rt status opened := by
  have hnodup := hspec.inv.keys_nodup
  have hindex := hspec.inv.index
  obtain ⟨ledger, hreplay, hforget⟩ := hspec.inv.ledger
  rw [hspec.log_eq] at hreplay hnodup hindex
  refine ⟨hspec.log_eq, ⟨ledger, hreplay, ?_⟩, ?_⟩
  · exact .of_forgetIdem hforget hnodup hindex (LogValid.indexes_replay hreplay)
  · cases status with
    | stopped disk => trivial
    | live writer =>
        have hwriter : WriterInv rt writer saved := hbook
        obtain ⟨same, hsame, hlive⟩ := hwriter.ledger
        change BookState.initial.replay (logEvents rt writer.segments.files) = _ at hreplay
        rw [hreplay] at hsame
        cases hsame
        exact .of_forgetIdem (hforget.trans hlive.symm) hnodup hindex hwriter.index

/-- Opening the files of any run, with snapshots of any earlier states in place
of its own and any of them damaged, gives the state of a full replay and of the
writer at shutdown. -/
theorem snapshot_replay_eq_full_replay (rt : Runtime) (opts : LogStoreOptions) (io : SpillIo)
    (actions : List Action) (picks : List (ℕ × SnapIo)) (damaged : List Int)
    (opts' : LogStoreOptions) (io' : SpillIo) :
    let run := Run.exec rt opts io actions
    let snaps := (writeSnapshots run.boundaries picks).damage damaged
    ∃ opened, openBook rt opts' io' ⟨run.status.disk.segments, run.status.disk.runs, snaps⟩ =
        .ok opened ∧ Recovered rt run.status opened := by
  intro run snaps
  have hinv : RunInv rt run := RunInv.exec rt opts io actions
  have hdisk := hinv.book.diskInv
  have hsnaps := (hdisk.writeSnapshots_valid picks).damage damaged
  obtain ⟨opened, hopen, hspec⟩ := (hdisk.withSnaps hsnaps).openBook opts' io'
  exact ⟨opened, hopen, hspec.recovered hinv.book⟩

end Talea.Log
