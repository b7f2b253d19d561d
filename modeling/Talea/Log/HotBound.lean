import Talea.Log.LookupFailure

/-!
# How large the hot map gets

The capacity that decides about a flush is the one a book's state came with: the
default where the store has created the book, and the configured one only where
it was opened from disk.  One flush takes out half of the keys, however many
there are.
-/

namespace Talea.Log

variable {rt : Runtime}

/-! ## One flush -/

namespace TieredIdem

variable {idem : TieredIdem} {dir : RunDir} {pairs : List (String × CommittedRec)} {io : SpillIo}

/-- The order lists the hot keys, each once. -/
theorem HotHolds.card_eq (hhot : idem.HotHolds pairs) :
    idem.hot.keys.card = idem.order.length := by
  have hkeys : idem.hot.keys = idem.order.toFinset := by
    ext key
    rw [Finmap.mem_keys, List.mem_toFinset, hhot.mem_order]
  rw [hkeys, List.toFinset_card_of_nodup hhot.order_nodup]

theorem order_mergeRuns (io : SpillIo) (idem : TieredIdem) (dir : RunDir) :
    (idem.mergeRuns rt io dir).1.order = idem.order := by
  unfold mergeRuns
  split
  · rfl
  split
  · rfl
  dsimp only
  split
  · split <;> rfl
  · rfl

/-- A flush whose run is written drops the oldest half. -/
theorem order_flushSpill (hencodes : io.encodes = true) (hwrite : io.write = .written)
    (idem : TieredIdem) (dir : RunDir) :
    (idem.flushSpill rt io dir).1.order = idem.order.drop (idem.hot.keys.card / 2) := by
  have horder := (drain_general (idem.hot.keys.card / 2) idem.order idem.hot).1
  unfold flushSpill
  dsimp only
  by_cases hzero : idem.hot.keys.card / 2 = 0
  · rw [if_pos hzero, hzero, List.drop_zero]
  rw [if_neg hzero]
  by_cases hnone : (drain (idem.hot.keys.card / 2) idem.order idem.hot).1 = []
  · rw [if_pos hnone]
    exact horder
  rw [if_neg hnone, if_pos hencodes, hwrite]
  dsimp only
  split
  · rw [order_mergeRuns]
    exact horder
  · exact horder

theorem Indexes.card_flushSpill (hindex : idem.Indexes rt dir pairs)
    (hnodup : (pairs.map Prod.fst).Nodup) (hencodes : io.encodes = true)
    (hwrite : io.write = .written) :
    (idem.flushSpill rt io dir).1.hot.keys.card =
      idem.hot.keys.card - idem.hot.keys.card / 2 := by
  have hflushed := (hindex.flushSpill hnodup io).indexes.hot_holds
  rw [hflushed.card_eq, order_flushSpill hencodes hwrite, List.length_drop,
    ← hindex.hot_holds.card_eq]

/-- Recording new keys. -/
theorem card_foldl_record {events : List WireEvent}
    (hnodup : ((commitsOf events).map Prod.fst).Nodup)
    (hnew : ∀ pair ∈ commitsOf events, pair.1 ∉ idem.hot) :
    (events.foldl record idem).hot.keys.card =
      idem.hot.keys.card + (commitsOf events).length := by
  have hkeys : (events.foldl record idem).hot.keys =
      idem.hot.keys ∪ ((commitsOf events).map Prod.fst).toFinset := by
    ext key
    rw [Finset.mem_union, Finmap.mem_keys, Finmap.mem_keys, mem_hot_foldl_record_iff,
      List.mem_toFinset, List.mem_map]
  have hdisjoint : Disjoint idem.hot.keys ((commitsOf events).map Prod.fst).toFinset := by
    rw [Finset.disjoint_right]
    intro key hkey
    obtain ⟨pair, hpair, rfl⟩ := List.mem_map.1 (List.mem_toFinset.1 hkey)
    rw [Finmap.mem_keys]
    exact hnew pair hpair
  rw [hkeys, Finset.card_union_of_disjoint hdisjoint, List.toFinset_card_of_nodup hnodup,
    List.length_map]

end TieredIdem

/-! ## One batch -/

variable {writer : Writer} {saved : List BookState} {input : BatchInput} {result : BatchDone}
  {reads : ℕ → Bool}

/-- What a batch that ran to its end was made of. -/
theorem Writer.batch_done_cases (hdone : writer.batch rt reads input = .done result) :
    ∃ (batch : Classified) (placed : List Staged) (applied : BookState),
      classify writer.state
        (resolveKeys rt reads writer.state.idem writer.runs (input.jobs.map Prod.fst))
        input.startNow input.jobs = .ok batch ∧
      placed.map Staged.wire = batch.wires ∧ applyStaged writer.state placed = .ok applied ∧
      result.writer.state = (flushIdem applied rt input.spill writer.runs).1 := by
  unfold Writer.batch at hdone
  dsimp only at hdone
  cases hbatch : classify writer.state
      (resolveKeys rt reads writer.state.idem writer.runs (input.jobs.map Prod.fst))
      input.startNow input.jobs with
  | error message => simp [hbatch] at hdone
  | ok batch =>
      rw [hbatch] at hdone
      dsimp only at hdone
      have hcases := writePhase_cases rt writer.segments batch.staged
      cases hwrite : writePhase rt writer.segments batch.staged with
      | error left => simp [hwrite] at hdone
      | ok phase =>
          obtain ⟨written, placed⟩ := phase
          rw [hwrite] at hdone hcases
          dsimp only at hdone hcases
          cases happlied : applyStaged writer.state placed with
          | error message => simp [happlied] at hdone
          | ok applied =>
              rw [happlied] at hdone
              cases hdone
              exact ⟨batch, placed, applied, rfl, hcases.wires, happlied, rfl⟩

/-- The state that a batch is applied to, before the flush. -/
theorem WriterInv.applied_index (hinv : WriterInv rt writer saved)
    (hdone : writer.batch rt allReadable input = .done result) :
    ∃ (applied : BookState) (pairs : List (String × Committed)),
      applied.idem.Indexes rt writer.runs pairs ∧ (pairs.map Prod.fst).Nodup ∧
      applied.idem.cap = writer.state.idem.cap ∧
      applied.idem.hot.keys.card =
        writer.state.idem.hot.keys.card + (commitsOf (writer.stagedWires rt input)).length ∧
      result.writer.state = (flushIdem applied rt input.spill writer.runs).1 := by
  obtain ⟨batch, placed, applied, hbatch, hwires, happlied, hstate⟩ :=
    Writer.batch_done_cases hdone
  have hsound := hinv.classified hbatch
  have hstaged : writer.stagedWires rt input = batch.wires := by
    rw [Writer.stagedWires, hbatch]
  have hidem : applied.idem = batch.wires.foldl TieredIdem.record writer.state.idem := by
    rw [BookState.idem_of_replay happlied, Staged.map_fst_items, hwires]
  have hkeys := hsound.keys_nodup
  rw [List.map_append, List.nodup_append] at hkeys
  refine ⟨applied, _, ?_, hsound.keys_nodup, ?_, ?_, hstate⟩
  · rw [hidem]
    exact hinv.index.foldl_record _
  · rw [hidem, (TieredIdem.runs_foldl_record _ _).2.2]
  · rw [hidem, hstaged]
    refine TieredIdem.card_foldl_record hkeys.2.1 fun pair hpair hhot => ?_
    obtain ⟨rec, hrec⟩ := Finmap.mem_iff.1 hhot
    have hold := List.mem_map_of_mem (f := Prod.fst) (hinv.index.hot_holds.subset _ _ hrec)
    exact hkeys.2.2 _ hold _ (List.mem_map_of_mem hpair) rfl

/-- The number of hot keys behind the flush of a batch whose run is written. -/
theorem WriterInv.card_batch (hinv : WriterInv rt writer saved)
    (hdone : writer.batch rt allReadable input = .done result)
    (hencodes : input.spill.encodes = true) (hwrite : input.spill.write = .written) :
    let n := writer.state.idem.hot.keys.card + (commitsOf (writer.stagedWires rt input)).length
    result.writer.state.idem.hot.keys.card =
      if n ≤ writer.state.idem.cap then n else n - n / 2 := by
  obtain ⟨applied, pairs, hindex, hnodup, hcap, hcard, hstate⟩ := hinv.applied_index hdone
  intro n
  rw [hstate, flushIdem, TieredIdem.needsFlush, hcap, hcard]
  by_cases hfits : n ≤ writer.state.idem.cap
  · rw [if_pos hfits, if_neg (by simpa using hfits)]
    exact hcard
  · rw [if_neg hfits, if_pos (by simpa using hfits)]
    have hflushed := hindex.card_flushSpill hnodup hencodes hwrite
    rw [hcard] at hflushed
    exact hflushed

/-! ## The two capacities -/

/-- The capacity that an action starts a writer with. -/
def Action.cap : Action → Option ℕ
  | .reopen opts _ => some opts.idemHotCap
  | _ => none

/-- The capacity in the options of the store that has the book. -/
def configuredCap (opts : LogStoreOptions) (actions : List Action) : ℕ :=
  actions.foldl (fun cap action => action.cap.getD cap) opts.idemHotCap

/-- The one in the book's state: that of the options once the book was opened
from disk, and the default before. -/
def effectiveCap (actions : List Action) : ℕ :=
  actions.foldl (fun cap action => action.cap.getD cap) defaultIdemHotCap

theorem WriterInv.cap_batch (hinv : WriterInv rt writer saved)
    (hdone : writer.batch rt allReadable input = .done result) :
    result.writer.state.idem.cap = writer.state.idem.cap := by
  obtain ⟨applied, pairs, hindex, hnodup, hcap, -, hstate⟩ := hinv.applied_index hdone
  rw [hstate, ← hcap]
  exact (BookState.flushIdem_spec hindex hnodup input.spill).2.cap_eq

theorem DiskInv.cap_openBook {disk : Disk} (hinv : DiskInv rt disk saved disk.runs.HasAny)
    (opts : LogStoreOptions) (io : SpillIo) {opened : Opened}
    (hopen : Log.openBook rt opts io disk = .ok opened) :
    opened.writer.state.idem.cap = opts.idemHotCap := by
  obtain ⟨sealed, active, before, last, tail, hfiles, hstored⟩ := hinv.stored
  obtain ⟨count, hfrom, hstart⟩ := replayStart_valid hinv.snaps_valid
  obtain ⟨final, hreplay, -, -⟩ := (hstart.withCap opts.idemHotCap).replay_drop hinv.log_valid
  rw [openBook_eq disk hfiles hstored hfrom hreplay io] at hopen
  cases hopen
  change final.idem.cap = opts.idemHotCap
  rw [BookState.idem_of_replay hreplay, (TieredIdem.runs_foldl_record _ _).2.2]
  rfl

variable {run : Run}

/-- A writer that is live behind an action has the capacity it was started
with. -/
theorem RunInv.cap_step (hinv : RunInv rt run) {cap : ℕ}
    (hcap : ∀ writer, run.status = .live writer → writer.state.idem.cap = cap)
    (action : Action) (writer : Writer) (hlive : (run.step rt action).status = .live writer) :
    writer.state.idem.cap = action.cap.getD cap := by
  cases action with
  | batch input =>
      change (run.batch rt input).status = .live writer at hlive
      rw [Run.batch_eq_conclude] at hlive
      cases hstatus : run.status with
      | stopped disk => simp [hstatus] at hlive
      | live before =>
          have hwriter : WriterInv rt before run.boundaries := by
            have hbook := hinv.book
            rwa [hstatus] at hbook
          rw [hstatus] at hlive
          dsimp only at hlive
          cases hresult : before.batch rt allReadable input with
          | killed left =>
              rw [hresult] at hlive
              cases hlive
          | done result =>
              rw [hresult] at hlive
              cases hlive
              exact (hwriter.cap_batch hresult).trans (hcap before hstatus)
  | failStop input point =>
      change (run.failStop rt input point).status = .live writer at hlive
      unfold Run.failStop at hlive
      split at hlive
      · exact hcap writer hlive
      · split at hlive
        · exact hcap writer hlive
        · cases hlive
  | land task io =>
      change (run.land task io).status = .live writer at hlive
      unfold Run.land at hlive
      split at hlive
      · exact hcap writer hlive
      · next task own _ =>
          cases hstatus : run.status with
          | stopped disk => cases own <;> simp [hstatus, Status.withSnaps, Status.clearInflight] at hlive
          | live before =>
              have hsame := hcap before hstatus
              cases own with
              | false =>
                  simp [hstatus, Status.withSnaps] at hlive
                  rw [← hlive]
                  exact hsame
              | true =>
                  simp [hstatus, Status.withSnaps, Status.clearInflight] at hlive
                  rw [← hlive]
                  exact hsame
  | reopen opts io =>
      change (run.reopen rt opts io).status = .live writer at hlive
      obtain ⟨opened, hopen, -⟩ := hinv.book.diskInv.openBook opts io
      unfold Run.reopen at hlive
      rw [hopen] at hlive
      cases hlive
      exact hinv.book.diskInv.cap_openBook opts io hopen

theorem RunInv.cap_foldl (hinv : RunInv rt run) {cap : ℕ}
    (hcap : ∀ writer, run.status = .live writer → writer.state.idem.cap = cap)
    (actions : List Action) (writer : Writer)
    (hlive : (actions.foldl (Run.step rt) run).status = .live writer) :
    writer.state.idem.cap = actions.foldl (fun cap action => action.cap.getD cap) cap := by
  induction actions generalizing run cap with
  | nil => exact hcap writer hlive
  | cons action actions ih => exact ih (hinv.step action).1 (hinv.cap_step hcap action) hlive

theorem Run.cap_create {opts : LogStoreOptions} {io : SpillIo} (writer : Writer)
    (hlive : (Run.create rt opts io).status = .live writer) :
    writer.state.idem.cap = defaultIdemHotCap := by
  cases hlive
  rfl

/-- Behind the flush of any batch of any run whose run file is written, the hot
map keeps to the configured capacity and one batch more exactly when it got there
without a flush, or half of what it had does. -/
theorem hot_bound_iff (rt : Runtime) (opts : LogStoreOptions) (io : SpillIo)
    (actions : List Action) {writer : Writer}
    (hlive : (Run.exec rt opts io actions).status = .live writer) {input : BatchInput}
    {result : BatchDone} (hdone : writer.batch rt allReadable input = .done result)
    (hencodes : input.spill.encodes = true) (hwrite : input.spill.write = .written)
    (batchMax : ℕ) :
    let bound := configuredCap opts actions + batchMax
    let n := writer.state.idem.hot.keys.card + (commitsOf (writer.stagedWires rt input)).length
    result.writer.state.idem.hot.keys.card ≤ bound ↔
      n ≤ bound ∨ effectiveCap actions < n ∧ n ≤ 2 * bound := by
  intro bound n
  have hinv := RunInv.exec rt opts io actions
  have hwriter : WriterInv rt writer (Run.exec rt opts io actions).boundaries := by
    have hbook := hinv.book
    rwa [hlive] at hbook
  have hcap : writer.state.idem.cap = effectiveCap actions :=
    (RunInv.create rt opts io).cap_foldl Run.cap_create actions writer hlive
  have hcard : result.writer.state.idem.hot.keys.card =
      if n ≤ effectiveCap actions then n else n - n / 2 := by
    rw [← hcap]
    exact hwriter.card_batch hdone hencodes hwrite
  rw [hcard]
  split <;> omega

/-! ## A book that was not opened from disk -/

namespace SmallCap

/-- The options of the store: room for two hot keys. -/
def opts : LogStoreOptions :=
  ⟨2, 0, defaultSegmentMax⟩

def key (n : ℕ) : String :=
  String.ofList (List.replicate n 'k')

/-- Five in and five out of the same account. -/
def transfer (n : ℕ) : Transaction :=
  { SpilledKey.transfer n (key n) with
    postings := [SpilledKey.posting "cash" .debit, SpilledKey.posting "cash" .credit] }

def oneTransfer (n : ℕ) : BatchInput :=
  ⟨2, [(.commit (transfer n), 2)], .ok, .ok⟩

/-- An account is opened, and then there is one commit a batch. -/
def actions (count : ℕ) : List Action :=
  .batch ⟨2, [(.openAccount (SpilledKey.account "cash") ⟨none, none⟩, 2)], .ok, .ok⟩ ::
    (List.range count).map fun n => .batch (oneTransfer n)

/-- The key of the account in the maps of the state. -/
def cash : String :=
  (SpilledKey.account "cash").id.toKey

structure Holds (state : BookState) (count : ℕ) : Prop where
  nextSeq : state.nextSeq = count + 2
  lastAt : state.lastAt = some 2
  account : ∃ acct, state.accounts.lookup cash = some acct ∧
    acct.account = SpilledKey.account "cash" ∧ acct.cfg = ⟨none, none⟩ ∧ acct.rawBalance = 0
  runs : state.idem.runs = []
  cap : state.idem.cap = defaultIdemHotCap
  hot : ∀ other, other ∈ state.idem.hot ↔ ∃ n < count, other = key n

theorem key_injective : Function.Injective key := by
  intro left right heq
  have hlist := congrArg (fun text => text.toList.length) heq
  simpa [key] using hlist

variable {state : BookState} {count : ℕ}

theorem Holds.card_eq (hstate : Holds state count) : state.idem.hot.keys.card = count := by
  have hkeys : state.idem.hot.keys = (Finset.range count).image key := by
    ext other
    simp only [Finmap.mem_keys, hstate.hot, Finset.mem_image, Finset.mem_range, eq_comm]
  rw [hkeys, Finset.card_image_of_injective _ key_injective, Finset.card_range]

/-- The transfer is accepted and leaves the balance as it was. -/
theorem Holds.validate (hstate : Holds state count) (n : ℕ) :
    (state.validate (transfer n) .initial).1 = .ok () := by
  obtain ⟨acct, hacct, haccount, hcfg, hraw⟩ := hstate.account
  have hbook : (transfer n).book.isReserved = false := by
    change Book.isReserved ⟨"main"⟩ = false
    decide +kernel
  have hkey : ∀ side, (SpilledKey.posting "cash" side).account.toKey = cash := fun _ => rfl
  have hcheck : ∀ side, state.checkPosting (SpilledKey.posting "cash" side) = .ok () := by
    intro side
    rw [BookState.checkPosting, hkey, hacct]
    simp [haccount, SpilledKey.account, SpilledKey.posting]
  have hmin : ∀ projected, state.checkMinBalance projected cash = .ok () := by
    intro projected
    rw [BookState.checkMinBalance, hacct]
    cases projected.lookup cash with
    | none => rfl
    | some raw => simp only [hcfg]
  have hside : ∀ posting ∈ (transfer n).postings, ∃ side, posting = SpilledKey.posting "cash" side := by
    intro posting hposting
    simp only [transfer, List.mem_cons, List.not_mem_nil, or_false] at hposting
    exact hposting.elim (fun h => ⟨_, h⟩) fun h => ⟨_, h⟩
  have hchecks : (transfer n).postings.forM state.checkPosting = .ok () :=
    Except.forM_eq_ok.2 fun posting hposting => by
      obtain ⟨side, rfl⟩ := hside posting hposting
      exact hcheck side
  have hmins : ∀ projected, ((transfer n).postings.forM fun posting =>
      state.checkMinBalance projected posting.account.toKey) = .ok () := fun projected =>
    Except.forM_eq_ok.2 fun posting hposting => by
      obtain ⟨side, rfl⟩ := hside posting hposting
      exact hmin projected
  have hproject : ∃ projected, (transfer n).postings.foldlM (BookState.projectPosting
      ((transfer n).postings.foldl state.seedPosting .initial)) ∅ = .ok projected := by
    have hknown : ∀ posting ∈ (transfer n).postings,
        posting.account.toKey ∈ state.accounts := fun posting hposting =>
      BookState.known_of_checkPosting (Except.forM_eq_ok.1 hchecks posting hposting)
    have hpaid : SpilledKey.posting "cash" .debit ∈ (transfer n).postings := List.mem_cons_self
    have hseeded := Overlay.lookup_foldl_seedPosting_initial hknown hpaid
    rw [hkey, hacct, Option.map_some, hraw] at hseeded
    generalize (transfer n).postings.foldl state.seedPosting .initial = scratch at hseeded ⊢
    have hdebit : BookState.projectPosting scratch ∅ (SpilledKey.posting "cash" .debit) =
        .ok (Finmap.insert cash 5 ∅) := by
      unfold BookState.projectPosting
      dsimp only
      rw [hkey, hseeded, Finmap.lookup_empty]
      rfl
    have hcredit : BookState.projectPosting scratch (Finmap.insert cash 5 ∅)
        (SpilledKey.posting "cash" .credit) =
        .ok (Finmap.insert cash 0 (Finmap.insert cash 5 ∅)) := by
      unfold BookState.projectPosting
      dsimp only
      rw [hkey, Finmap.lookup_insert]
      rfl
    refine ⟨Finmap.insert cash 0 (Finmap.insert cash 5 ∅), ?_⟩
    change [SpilledKey.posting "cash" .debit, SpilledKey.posting "cash" .credit].foldlM _ _ = _
    rw [List.foldlM_cons, hdebit]
    change (BookState.projectPosting scratch (Finmap.insert cash 5 ∅)
      (SpilledKey.posting "cash" .credit) >>= pure) = _
    rw [hcredit]
    rfl
  obtain ⟨projected, hproject⟩ := hproject
  rw [BookState.validate, hbook]
  simp only [Bool.false_eq_true, if_false, hchecks, hproject, hmins]

theorem length_encodeNat (value : ℕ) : (Codec.encodeNat value).length = value / 255 + 1 := by
  simp [Codec.encodeNat]

theorem length_encode_key (n : ℕ) :
    (Talea.Codec.string.encode (key n)).length = n / 255 + 1 + n := by
  have hchar : Talea.Codec.char.encode 'k' = [107] := by decide
  change (Codec.encodeNat (key n).toList.length ++
    (key n).toList.flatMap Talea.Codec.char.encode).length = _
  rw [List.length_append, length_encodeNat]
  simp [key, List.length_flatMap, hchar]

theorem fits {n m : ℕ} (hn : n ≤ 100000) (hm : m ≤ 100002) :
    FrameFits binaryRuntime ⟨m, 2, .transactionPosted (transfer n)⟩ := by
  have hpostings : (Codec.posting.list.encode (transfer 0).postings).length ≤ 100 := by
    decide +kernel
  have hrest : ((Talea.Codec.prod Codec.externalRef.list
      (Talea.Codec.prod Talea.Codec.string Talea.Codec.int)).encode ([], "{}", 0)).length ≤ 100 := by
    decide +kernel
  have hbook : (Codec.book.encode ⟨"main"⟩).length ≤ 100 := by
    decide +kernel
  change (((0 :: Codec.encodeNat m) ++ [0, 2]) ++ (0 :: ((Codec.encodeNat n ++ Codec.book.encode ⟨"main"⟩) ++
    ((Codec.posting.list.encode (transfer 0).postings ++ Talea.Codec.string.encode (key n)) ++
      (Talea.Codec.prod Codec.externalRef.list
      (Talea.Codec.prod Talea.Codec.string Talea.Codec.int)).encode ([], "{}", 0))))).length < 4294967296
  simp only [List.length_append, List.length_cons, length_encodeNat, length_encode_key, List.length_nil]
  omega
/-- One posting to the account. -/
theorem applyPosting_cash {tx : Transaction} {seq time : Int} {side : Direction}
    {next : BookState}
    (happly : BookState.applyPosting tx seq time state (SpilledKey.posting "cash" side) = .ok next)
    {acct : AccountState} (hacct : state.accounts.lookup cash = some acct) {raw : Int}
    (hmove : Direction.move side acct.rawBalance 5 = some raw) :
    next.idem = state.idem ∧ ∃ moved, next.accounts.lookup cash = some moved ∧
      moved.account = acct.account ∧ moved.cfg = acct.cfg ∧ moved.rawBalance = raw := by
  have hkey : (SpilledKey.posting "cash" side).account.toKey = cash := rfl
  have hlookup : state.accounts.lookup (SpilledKey.posting "cash" side).account.toKey =
      some acct := by rw [hkey, hacct]
  have hmoves : Direction.move (SpilledKey.posting "cash" side).direction acct.rawBalance
      (SpilledKey.posting "cash" side).amount.minor = some raw := hmove
  rw [BookState.applyPosting_of_lookup hlookup, hmoves, hkey] at happly
  cases happly
  exact ⟨rfl, _, Finmap.lookup_insert _, rfl, rfl, rfl⟩

/-- Applying the transfer. -/
theorem Holds.apply (hstate : Holds state count) {pos : FramePos} {applied : BookState}
    (happly : state.tryApplyTransaction (transfer count) (count + 2) 2 pos = .ok applied) :
    Holds applied (count + 1) := by
  obtain ⟨acct, hacct, haccount, hcfg, hraw⟩ := hstate.account
  obtain ⟨mid, hmid, rfl⟩ := BookState.tryApplyTransaction_eq_ok.1 happly
  have hpostings : (transfer count).postings =
      [SpilledKey.posting "cash" .debit, SpilledKey.posting "cash" .credit] := rfl
  rw [hpostings, List.foldlM_cons, Except.bind_eq_ok] at hmid
  obtain ⟨first, hfirst, hrest⟩ := hmid
  rw [List.foldlM_cons, Except.bind_eq_ok] at hrest
  obtain ⟨second, hsecond, hnil⟩ := hrest
  cases hnil
  have hdebit : Direction.move .debit acct.rawBalance 5 = some 5 := by
    rw [hraw]
    rfl
  obtain ⟨hidem, debited, hdebited, haccount', hcfg', hraw'⟩ :=
    applyPosting_cash hfirst hacct hdebit
  have hcredit : Direction.move .credit debited.rawBalance 5 = some 0 := by
    rw [hraw']
    rfl
  obtain ⟨hidem', credited, hcredited, haccount'', hcfg'', hraw''⟩ :=
    applyPosting_cash hsecond hdebited hcredit
  have hsame : mid.idem = state.idem := hidem'.trans hidem
  exact
    { nextSeq := by push_cast; ring
      lastAt := rfl
      account := ⟨credited, hcredited, haccount''.trans (haccount'.trans haccount),
        hcfg''.trans (hcfg'.trans hcfg), hraw''⟩
      runs := by
        change mid.idem.runs = []
        rw [hsame, hstate.runs]
      cap := by
        change mid.idem.cap = defaultIdemHotCap
        rw [hsame, hstate.cap]
      hot := fun other => by
        change other ∈ mid.idem.hot.insert (key count) _ ↔ _
        rw [hsame, Finmap.mem_insert, hstate.hot]
        constructor
        · rintro (rfl | ⟨n, hn, rfl⟩)
          · exact ⟨count, Nat.lt_succ_self count, rfl⟩
          · exact ⟨n, Nat.lt_succ_of_lt hn, rfl⟩
        · rintro ⟨n, hn, rfl⟩
          rcases Nat.lt_succ_iff_lt_or_eq.1 hn with hlt | rfl
          · exact Or.inr ⟨n, hlt, rfl⟩
          · exact Or.inl rfl }

theorem Holds.step {writer : Writer} (hstate : Holds writer.state count) (hcount : count < 100000) :
    ∃ result, writer.batch binaryRuntime allReadable (oneTransfer count) = .done result ∧
      Holds result.writer.state (count + 1) := by
  have hfresh : key count ∉ writer.state.idem.hot := by
    rw [hstate.hot]
    rintro ⟨n, hn, hsame⟩
    exact hn.ne (key_injective hsame).symm
  have hseen : seenRecord writer.state (resolveKeys binaryRuntime allReadable writer.state.idem
      writer.runs [.commit (transfer count)]) (key count) = none := by
    rw [seenRecord, lookup_resolveKeys allReadable _ _ List.mem_cons_self rfl,
      TieredIdem.get_of_no_runs hstate.runs]
    exact Finmap.lookup_eq_none.2 hfresh
  obtain ⟨batch, hbatch⟩ := classify_isOk writer.state (resolveKeys binaryRuntime allReadable
    writer.state.idem writer.runs [.commit (transfer count)]) 2 (oneTransfer count).jobs
  have hone : classifyJob writer.state (resolveKeys binaryRuntime allReadable writer.state.idem
      writer.runs [.commit (transfer count)]) (Classified.start writer.state 2)
      ((.commit (transfer count), 2), 0) = .ok batch := by
    obtain ⟨only, honly, hrest⟩ := Except.bind_eq_ok.1 hbatch
    cases hrest
    exact honly
  have hwires : batch.wires = [⟨count + 2, 2, .transactionPosted (transfer count)⟩] := by
    cases jobStep_of_classifyJob hone with
    | dup hsome => exact absurd (hsome.symm.trans hseen) (by simp)
    | dupInBatch _ hslot => cases hslot
    | reject _ _ herr =>
        have hok := hstate.validate count
        change (writer.state.validate (transfer count) .initial).1 = _ at herr
        rw [hok] at herr
        cases herr
    | commit hunseen hnew hok hstage =>
        simp [Classified.wires, Classified.stageEvent, Classified.start, hstate.nextSeq, hstate.lastAt]
  cases hresult : writer.batch binaryRuntime allReadable (oneTransfer count) with
  | killed left =>
      obtain ⟨entry, hentry, hbig⟩ := exists_not_fits_of_killed hbatch hresult
      have hwire := List.mem_map_of_mem (f := Staged.wire) hentry
      change entry.wire ∈ batch.wires at hwire
      rw [hwires, List.mem_singleton] at hwire
      rw [hwire] at hbig
      exact absurd (fits hcount.le (Nat.add_le_add_right hcount.le 2)) hbig
  | done result =>
      refine ⟨result, rfl, ?_⟩
      obtain ⟨again, placed, applied, hagain, hplaced, happlied, hflushed⟩ :=
        Writer.batch_done_cases hresult
      cases hbatch.symm.trans hagain
      rw [hwires] at hplaced
      obtain ⟨entry, rest, rfl, hentry, hrest⟩ := List.map_eq_cons_iff.1 hplaced
      obtain rfl := List.map_eq_nil_iff.1 hrest
      obtain ⟨only, honly, hnil⟩ := Except.bind_eq_ok.1 happlied
      cases hnil
      change writer.state.applyEvent (entry.wire, entry.pos) = .ok applied at honly
      rw [hentry] at honly
      have hnext := hstate.apply honly
      have hkept : (flushIdem applied binaryRuntime (oneTransfer count).spill writer.runs).1 = applied := by
        rw [flushIdem, if_neg]
        rw [TieredIdem.needsFlush, hnext.cap, hnext.card_eq]
        simp [defaultIdemHotCap]
        omega
      rw [hflushed, hkept]
      exact hnext

/-- All transfers. -/
theorem holds_exec {count : ℕ} (hcount : count ≤ 100000) :
    ∃ writer, (Run.exec binaryRuntime opts .ok (actions count)).status = .live writer ∧
      Holds writer.state count := by
  induction count with
  | zero =>
      have hopened : ((Run.exec binaryRuntime opts .ok (actions 0)).status.writer.map fun writer =>
          decide (writer.state.nextSeq = 2 ∧ writer.state.lastAt = some 2 ∧
            (writer.state.accounts.lookup cash).map
                (fun acct => (acct.account, acct.cfg, acct.rawBalance)) =
              some (SpilledKey.account "cash", ⟨none, none⟩, 0) ∧
            writer.state.idem.runs = [] ∧ writer.state.idem.cap = defaultIdemHotCap ∧
            writer.state.idem.hot.keys = ∅)) = some true := by
        decide +kernel
      obtain ⟨writer, hlive, hchecks⟩ := Option.map_eq_some_iff.1 hopened
      obtain ⟨hseq, hlast, hacct, hruns, hcap, hhot⟩ := of_decide_eq_true hchecks
      obtain ⟨acct, hlookup, hparts⟩ := Option.map_eq_some_iff.1 hacct
      simp only [Prod.mk.injEq] at hparts
      refine ⟨writer, Status.eq_live hlive, hseq, hlast, ⟨acct, hlookup, hparts⟩, hruns, hcap, ?_⟩
      intro other
      rw [← Finmap.mem_keys, hhot]
      simp
  | succ count ih =>
      obtain ⟨writer, hlive, hstate⟩ := ih (Nat.le_of_succ_le hcount)
      obtain ⟨result, hdone, hnext⟩ := hstate.step hcount
      refine ⟨result.writer, ?_, hnext⟩
      have hactions : actions (count + 1) = actions count ++ [.batch (oneTransfer count)] := by
        simp [actions, List.range_succ]
      rw [hactions, Run.exec, List.foldl_append, ← Run.exec]
      change (Run.batch binaryRuntime _ _).status = _
      rw [Run.batch_eq_conclude, hlive]
      dsimp only
      rw [hdone]
      rfl

end SmallCap

theorem hot_bound_iff_smallCap : ∃ writer result,
    (Run.exec binaryRuntime SmallCap.opts .ok (SmallCap.actions 1026)).status = .live writer ∧
      writer.batch binaryRuntime allReadable (SmallCap.oneTransfer 1026) = .done result ∧
      let bound := configuredCap SmallCap.opts (SmallCap.actions 1026) + 1024
      let n := writer.state.idem.hot.keys.card +
        (commitsOf (writer.stagedWires binaryRuntime (SmallCap.oneTransfer 1026))).length
      (result.writer.state.idem.hot.keys.card ≤ bound ↔
        n ≤ bound ∨ effectiveCap (SmallCap.actions 1026) < n ∧ n ≤ 2 * bound) := by
  obtain ⟨writer, hlive, hstate⟩ := SmallCap.holds_exec (by norm_num : 1026 ≤ 100000)
  obtain ⟨result, hdone, -⟩ := hstate.step (by norm_num)
  exact ⟨writer, result, hlive, hdone, hot_bound_iff binaryRuntime SmallCap.opts .ok
    (SmallCap.actions 1026) hlive hdone rfl rfl 1024⟩

/-- With an idempotency capacity of two and batches of at most 1024 jobs, a book
the store has created holds 1027 hot keys behind a flush. -/
theorem hot_map_outgrows : ¬ ∀ (rt : Runtime) (opts : LogStoreOptions) (io : SpillIo)
    (actions : List Action) (writer : Writer) (input : BatchInput) (result : BatchDone),
    2 ≤ opts.idemHotCap → (∀ action ∈ actions, ∀ other, action.input = some other →
      other.jobs.length ≤ 1024) → input.jobs.length ≤ 1024 →
    (Run.exec rt opts io actions).status = .live writer →
    writer.batch rt allReadable input = .done result →
    input.spill.encodes = true → input.spill.write = .written →
      result.writer.state.idem.hot.keys.card ≤ configuredCap opts actions + 1024 := by
  intro hbound
  obtain ⟨writer, hlive, hstate⟩ := SmallCap.holds_exec (by norm_num : 1026 ≤ 100000)
  obtain ⟨result, hdone, hnext⟩ := hstate.step (by norm_num)
  have hsmall := hbound binaryRuntime SmallCap.opts .ok (SmallCap.actions 1026) writer
    (SmallCap.oneTransfer 1026) result le_rfl ?_ (by decide) hlive hdone rfl rfl
  · have hconfigured : configuredCap SmallCap.opts (SmallCap.actions 1026) = 2 := by
      decide +kernel
    rw [hnext.card_eq, hconfigured] at hsmall
    omega
  · intro action haction other hother
    rcases List.mem_cons.1 haction with rfl | hlater
    · cases hother
      decide
    · obtain ⟨n, -, rfl⟩ := List.mem_map.1 hlater
      cases hother
      change 1 ≤ 1024
      norm_num

end Talea.Log
