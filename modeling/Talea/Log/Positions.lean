import Talea.Log.Admission
import Talea.Log.CrashDurability
import Talea.Log.Readers

/-!
# Reading a transaction back

A book's state maps the id of each transaction to the seq and the position of
its frame, and `transaction` reads the one frame there.  Positions are recorded
before the frame is written, come back with snapshots, and are computed anew by
a replay; what keeps them right is that a frame never moves: files are only
added to behind their frames, and a repair cuts nothing off in front of one.
-/

namespace Talea.Log

open FrameScan

/-! ## One frame -/

inductive ReadError
  | unknownBase (base : Int)
  | unexpectedEof
  | pastEnd (offset payloadLen : ℕ)
  | emptyFrame
  | decode (offset : ℕ) (err : FrameError)
  | wrongSeq (pos : FramePos) (got expected : Int)
  | notATransaction (seq : Int)
  deriving DecidableEq

variable (rt : Runtime)

/-- Decode the one frame at a position; `read` has the bytes of the files of
the catalog.  The end of the frame is checked against the length of the file
before the payload is read. -/
def readAt (read : Int → Option (List UInt8)) (pos : FramePos) (expectedSeq : Int) :
    Except ReadError WireEvent :=
  let (base, offset) := pos
  match read base with
  | none => .error (.unknownBase base)
  | some bytes =>
      let rest := bytes.drop offset
      if rest.length < headerLen then .error .unexpectedEof
      else
        let payloadLen := fromLeBytes rest
        if bytes.length < offset + (headerLen + payloadLen) then
          .error (.pastEnd offset payloadLen)
        else
          match decodeFrame rt (rest.take (headerLen + payloadLen)) with
          | .ok none => .error .emptyFrame
          | .error err => .error (.decode offset err)
          | .ok (some (ev, _)) =>
              if ev.seq ≠ expectedSeq then .error (.wrongSeq pos ev.seq expectedSeq)
              else .ok ev

variable {rt}

/-- A frame is decoded from its own bytes. -/
theorem decodeFrame_take {buf : List UInt8} {ev : WireEvent} {used : ℕ}
    (hdecode : decodeFrame rt buf = .ok (some (ev, used))) :
    used = headerLen + fromLeBytes buf ∧
      decodeFrame rt (buf.take used) = .ok (some (ev, used)) := by
  have hused : used = headerLen + fromLeBytes buf := by
    unfold decodeFrame at hdecode
    split at hdecode
    · simp at hdecode
    split at hdecode
    · simp at hdecode
    dsimp only at hdecode
    split at hdecode
    · simp at hdecode
    split at hdecode
    · simp at hdecode
    split at hdecode
    · simp at hdecode
    simp only [Except.ok.injEq, Option.some.injEq, Prod.mk.injEq] at hdecode
    exact hdecode.2.symm
  refine ⟨hused, ?_⟩
  obtain ⟨hheader, hlen⟩ := decodeFrame_consumed rt hdecode
  have hsplit : buf = buf.take used ++ buf.drop used := (List.take_append_drop used buf).symm
  have htake : (buf.take used).length = used := List.length_take_of_le hlen
  have hfour : 4 ≤ (buf.take used).length := by
    simp only [headerLen] at hheader
    omega
  have hsize : fromLeBytes (buf.take used) = fromLeBytes buf := by
    conv_rhs => rw [hsplit]
    exact (fromLeBytes_append hfour _).symm
  have hcrc : fromLeBytes ((buf.take used).drop 4) = fromLeBytes (buf.drop 4) := by
    simp only [headerLen] at hheader
    conv_rhs => rw [hsplit, List.drop_append_of_le_length (by omega)]
    exact (fromLeBytes_append (by rw [List.length_drop]; omega) _).symm
  have hbytes : ((buf.take used).drop headerLen).take (fromLeBytes buf) =
      (buf.drop headerLen).take (fromLeBytes buf) := by
    rw [List.drop_take, List.take_take, hused]
    congr 1
    omega
  unfold decodeFrame at hdecode ⊢
  split at hdecode
  · simp at hdecode
  rw [if_neg (by rintro hnil; rw [hnil] at htake; simp [headerLen] at htake hheader; omega)]
  split at hdecode
  · simp at hdecode
  rw [if_neg (by rw [htake]; omega)]
  dsimp only at hdecode ⊢
  split at hdecode
  · simp at hdecode
  rw [hsize, hcrc, hbytes, if_neg (by rw [htake]; omega)]
  exact hdecode

/-- Where a frame starts, `readAt` returns its event. -/
theorem readAt_of_decode {read : Int → Option (List UInt8)} {base : Int} {bytes : List UInt8}
    (hread : read base = some bytes) {offset : ℕ} {ev : WireEvent} {used : ℕ}
    (hdecode : decodeFrame rt (bytes.drop offset) = .ok (some (ev, used))) :
    readAt rt read (base, offset) ev.seq = .ok ev := by
  obtain ⟨hused, htake⟩ := decodeFrame_take hdecode
  obtain ⟨hheader, hlen⟩ := decodeFrame_consumed rt hdecode
  have hrest : (bytes.drop offset).length = bytes.length - offset := List.length_drop
  simp only [headerLen] at hheader hused
  unfold readAt
  dsimp only
  rw [hread]
  dsimp only
  rw [if_neg (by simp only [headerLen]; omega), if_neg (by simp only [headerLen]; omega),
    headerLen, ← hused, htake]
  simp

/-! ## The frames of a log -/

/-- The position of an event in a file is where its frame starts. -/
theorem decode_of_mem_placeItems {base : Int} {done buf : List UInt8}
    {item : WireEvent × FramePos}
    (hitem : item ∈ placeItems base done.length ((frameDecoder rt).scan buf).items) :
    item.2.1 = base ∧
      ∃ used, decodeFrame rt ((done ++ buf).drop item.2.2) = .ok (some (item.1, used)) := by
  induction hlen : buf.length using Nat.strong_induction_on generalizing done buf with
  | h len ih =>
      subst hlen
      match hdecode : (frameDecoder rt).decode buf with
      | .error err =>
          rw [scan_of_error _ hdecode] at hitem
          cases hitem
      | .ok none =>
          rw [scan_of_end _ hdecode] at hitem
          cases hitem
      | .ok (some (ev, used)) =>
          obtain ⟨hpos, hused⟩ := (frameDecoder rt).consumed hdecode
          rw [scan_of_item _ hdecode] at hitem
          rcases List.mem_cons.1 hitem with rfl | hlater
          · refine ⟨rfl, used, ?_⟩
            rw [List.drop_left]
            exact hdecode
          · have hdone : done.length + used = (done ++ buf.take used).length := by
              rw [List.length_append, List.length_take_of_le hused]
            rw [hdone] at hlater
            have hrest := ih _ (by rw [List.length_drop]; omega) hlater rfl
            rwa [List.append_assoc, List.take_append_drop] at hrest

theorem Segment.decode_of_mem_events {segment : Segment} {item : WireEvent × FramePos}
    (hitem : item ∈ segment.events rt) :
    item.2.1 = segment.base ∧
      ∃ used, decodeFrame rt (segment.bytes.drop item.2.2) = .ok (some (item.1, used)) := by
  have hplaced : item ∈ placeItems segment.base ([] : List UInt8).length
      ((frameDecoder rt).scan segment.bytes).items := hitem
  exact decode_of_mem_placeItems hplaced

/-- A frame of the log is read back at its position, then and at any later
moment. -/
theorem Shared.Extends.readAt {earlier later : Shared} {start : ℕ}
    (hext : earlier.Extends later) (hsound : later.Sound rt start)
    {item : WireEvent × FramePos} (hitem : item ∈ logEvents rt earlier.segments.files) :
    Log.readAt rt later.read item.2 item.1.seq = .ok item.1 := by
  obtain ⟨segment, hsegment, hevent⟩ := List.mem_flatMap.1 hitem
  obtain ⟨hbase, used, hdecode⟩ := Segment.decode_of_mem_events hevent
  -- the file is there with the same bytes, and maybe more behind them
  obtain ⟨grown, hgrown, hsame, rest, hbytes⟩ : ∃ grown ∈ later.segments.files,
      grown.base = segment.base ∧ segment.bytes <+: grown.bytes := by
    obtain ⟨grown, more, hfiles, hactive, hpre⟩ := hext.files
    rcases List.mem_append.1 hsegment with hsealed | hlast
    · exact ⟨segment, by simp [hfiles, hsealed], rfl, List.prefix_rfl⟩
    · rw [List.mem_singleton.1 hlast]
      exact ⟨grown, by simp [hfiles], hactive, hpre⟩
  have hread := hsound.read_eq hgrown
  rw [hsame, ← hbase] at hread
  have hinside : item.2.2 ≤ segment.bytes.length := by
    have hlen := (decodeFrame_consumed rt hdecode).2
    have hheader := (decodeFrame_consumed rt hdecode).1
    rw [List.length_drop] at hlen
    simp only [headerLen] at hheader
    omega
  have hstays : decodeFrame rt (grown.bytes.drop item.2.2) = .ok (some (item.1, used)) := by
    rw [← hbytes, List.drop_append_of_le_length hinside]
    exact decodeFrame_append rt hdecode rest
  exact readAt_of_decode hread hstays

/-! ## The map of positions -/

structure StoredTransaction where
  transaction : Transaction
  seq : Int
  at' : Int
  deriving DecidableEq

/-- The transaction an event posts under the given id. -/
def WireEvent.stored (uuid : ℕ) (ev : WireEvent) : Option StoredTransaction :=
  match ev.event with
  | .transactionPosted tx => if tx.id.uuid = uuid then some ⟨tx, ev.seq, ev.at'⟩ else none
  | _ => none

theorem WireEvent.stored_eq_some {uuid : ℕ} {ev : WireEvent} {stored : StoredTransaction} :
    ev.stored uuid = some stored ↔
      ev.event = .transactionPosted stored.transaction ∧ stored.transaction.id.uuid = uuid ∧
        stored.seq = ev.seq ∧ stored.at' = ev.at' := by
  unfold WireEvent.stored
  split
  · next tx hevent =>
      rw [hevent]
      obtain ⟨transaction, seq, time⟩ := stored
      simp only [Option.ite_none_right_eq_some, Option.some.injEq, StoredTransaction.mk.injEq,
        LedgerEvent.transactionPosted.injEq]
      constructor
      · rintro ⟨hid, rfl, rfl, rfl⟩
        exact ⟨rfl, hid, rfl, rfl⟩
      · rintro ⟨rfl, hid, rfl, rfl⟩
        exact ⟨hid, rfl, rfl, rfl⟩
  · next hother =>
      simp only [reduceCtorEq, false_iff]
      rintro ⟨hevent, -⟩
      exact hother _ hevent

/-- The transactions that a log posts under an id, with their positions. -/
def postedAs (uuid : ℕ) (items : List (WireEvent × FramePos)) :
    List (StoredTransaction × FramePos) :=
  items.filterMap fun item => (item.1.stored uuid).map fun stored => (stored, item.2)

theorem map_fst_postedAs (uuid : ℕ) (items : List (WireEvent × FramePos)) :
    (postedAs uuid items).map Prod.fst =
      (items.map Prod.fst).filterMap (WireEvent.stored uuid) := by
  rw [postedAs, List.map_filterMap, List.filterMap_map]
  refine List.filterMap_congr fun item _ => ?_
  rw [Function.comp_apply, Option.map_map]
  exact Option.map_id_apply

/-- The last transaction under an id. -/
def lastStored (uuid : ℕ) (events : List WireEvent) : Option StoredTransaction :=
  (events.filterMap (WireEvent.stored uuid)).getLast?

theorem BookState.txids_applyPostings {tx : Transaction} {seq time : Int}
    {state next : BookState} {postings : List Posting}
    (happly : postings.foldlM (applyPosting tx seq time) state = .ok next) :
    next.txids = state.txids := by
  have hstep : ∀ other posting after, posting ∈ postings → other.txids = state.txids →
      applyPosting tx seq time other posting = .ok after → after.txids = state.txids := by
    intro other posting after _ hother hposting
    unfold applyPosting at hposting
    dsimp only at hposting
    split at hposting
    · cases hposting
      exact hother
    · split at hposting
      · cases hposting
      · cases hposting
        exact hother
  exact foldlM_invariant hstep rfl happly

/-- Applying an event records the position of its transaction. -/
theorem BookState.lookup_txids_applyEvent {state next : BookState}
    {item : WireEvent × FramePos} (happly : state.applyEvent item = .ok next) (uuid : ℕ) :
    next.txids.lookup uuid =
      ((item.1.stored uuid).map fun stored => (stored.seq, item.2)).or
        (state.txids.lookup uuid) := by
  obtain ⟨⟨seq, time, event⟩, pos⟩ := item
  cases event with
  | assetRegistered asset =>
      cases happly
      rfl
  | accountOpened account cfg =>
      cases happly
      rfl
  | transactionPosted tx =>
      obtain ⟨mid, hmid, rfl⟩ := tryApplyTransaction_eq_ok.1 happly
      dsimp only [WireEvent.stored]
      rw [HashMap.lookup_insert_ite, txids_applyPostings hmid]
      by_cases hsame : uuid = tx.id.uuid
      · rw [if_pos hsame, if_pos hsame.symm]
        rfl
      · rw [if_neg hsame, if_neg (Ne.symm hsame)]
        rfl

theorem BookState.lookup_txids_replay {items : List (WireEvent × FramePos)} {ledger : BookState}
    (hreplay : BookState.initial.replay items = .ok ledger) (uuid : ℕ) :
    ledger.txids.lookup uuid =
      (postedAs uuid items).getLast?.map fun found => (found.1.seq, found.2) := by
  induction items using List.reverseRecOn generalizing ledger with
  | nil =>
      cases hreplay
      simp [BookState.initial, postedAs]
  | append_singleton items item ih =>
      obtain ⟨mid, hmid, happly⟩ := BookState.replay_concat_eq_ok.1 hreplay
      have hposted : postedAs uuid (items ++ [item]) =
          postedAs uuid items ++ postedAs uuid [item] := List.filterMap_append ..
      rw [lookup_txids_applyEvent happly, ih hmid, hposted, List.getLast?_append]
      cases hstored : item.1.stored uuid with
      | none => simp [hstored, postedAs]
      | some stored => simp [hstored, postedAs]

/-! ## What is looked up -/

/-- A book as `transaction` sees it: its state at one look, its files at a later
one. -/
structure BookHandle where
  state : BookState
  read : Int → Option (List UInt8)

/-- The transaction with the given id, from the first book that has it. -/
def transaction (rt : Runtime) (uuid : ℕ) :
    List BookHandle → Except ReadError (Option StoredTransaction)
  | [] => .ok none
  | book :: rest =>
      match book.state.txids.lookup uuid with
      | none => transaction rt uuid rest
      | some (seq, pos) =>
          match readAt rt book.read pos seq with
          | .error err => .error err
          | .ok wire =>
              match wire.event with
              | .transactionPosted tx => .ok (some ⟨tx, wire.seq, wire.at'⟩)
              | _ => .error (.notATransaction seq)

/-- The handle has the transactions of `events`: every recorded position
resolves to the transaction that was recorded, and everything posted is
recorded. -/
def BookHandle.Resolves (rt : Runtime) (events : List WireEvent) (book : BookHandle) : Prop :=
  ∀ uuid, match book.state.txids.lookup uuid with
    | none => ∀ ev ∈ events, ev.stored uuid = none
    | some (seq, pos) => ∃ ev ∈ events, ∃ stored, readAt rt book.read pos seq = .ok ev ∧
        ev.seq = seq ∧ ev.stored uuid = some stored ∧ lastStored uuid events = some stored

theorem lastStored_eq_none {uuid : ℕ} {events : List WireEvent} :
    lastStored uuid events = none ↔ ∀ ev ∈ events, ev.stored uuid = none := by
  simp [lastStored]

theorem mem_postedAs {uuid : ℕ} {items : List (WireEvent × FramePos)}
    {found : StoredTransaction × FramePos} :
    found ∈ postedAs uuid items ↔
      ∃ item ∈ items, item.1.stored uuid = some found.1 ∧ item.2 = found.2 := by
  simp only [postedAs, List.mem_filterMap, Option.map_eq_some_iff]
  constructor
  · rintro ⟨item, hitem, stored, hstored, rfl⟩
    exact ⟨item, hitem, hstored, rfl⟩
  · rintro ⟨item, hitem, hstored, hpos⟩
    exact ⟨item, hitem, found.1, hstored, by rw [hpos]⟩

/-- A moment of a book and a later one of its files. -/
theorem Timeline.resolves {start : ℕ} {shared : ℕ → Shared} (htimeline : Timeline rt start shared)
    {time later : ℕ} (hle : time ≤ later) :
    BookHandle.Resolves rt ((shared time).applied rt)
      ⟨(shared time).state, (shared later).read⟩ := by
  obtain ⟨count, ledger, hcount, hnextSeq, hreplay, hsame⟩ := (htimeline.sound time).state
  have hnow : Numbered 1 ((shared time).events rt) := (htimeline.sound time).valid.numbered
  have happlied : (shared time).applied rt =
      ((logEvents rt (shared time).segments.files).take count).map Prod.fst := by
    rw [Shared.applied, hnextSeq, add_comm, hnow.filter_lt_eq_take count, List.map_take]
    rfl
  intro uuid
  have hlookup := BookState.lookup_txids_replay hreplay uuid
  rw [← (BookState.same_of_forgetIdem hsame).2.2.2.1] at hlookup
  have hlast : lastStored uuid ((shared time).applied rt) =
      (postedAs uuid ((logEvents rt (shared time).segments.files).take count)).getLast?.map
        Prod.fst := by
    rw [lastStored, happlied, ← map_fst_postedAs, List.getLast?_map]
  dsimp only
  rw [hlookup]
  cases hfound : (postedAs uuid
      ((logEvents rt (shared time).segments.files).take count)).getLast? with
  | none =>
      rw [hfound] at hlast
      exact lastStored_eq_none.1 hlast
  | some found =>
      rw [hfound] at hlast
      obtain ⟨item, hitem, hstored, hpos⟩ := mem_postedAs.1 (List.mem_of_getLast? hfound)
      have hseq : found.1.seq = item.1.seq := (WireEvent.stored_eq_some.1 hstored).2.2.1
      have hread := (htimeline.grows time later hle).readAt (htimeline.sound later)
        (List.mem_of_mem_take hitem)
      refine ⟨item.1, ?_, found.1, ?_, hseq.symm, hstored, hlast⟩
      · rw [happlied]
        exact List.mem_map_of_mem hitem
      · rw [hseq, ← hpos]
        exact hread

/-- Looking up in books that resolve their positions. -/
theorem transaction_eq {α : Type} (uuid : ℕ) {books : List α} {handle : α → BookHandle}
    {events : α → List WireEvent}
    (hbooks : ∀ book ∈ books, (handle book).Resolves rt (events book)) :
    transaction rt uuid (books.map handle) =
      .ok (books.findSome? fun book => lastStored uuid (events book)) := by
  induction books with
  | nil => rfl
  | cons book books ih =>
      have hrest := ih fun other hother => hbooks other (List.mem_cons_of_mem _ hother)
      have hhere := hbooks book List.mem_cons_self uuid
      rw [List.map_cons, List.findSome?_cons, transaction]
      cases hlookup : (handle book).state.txids.lookup uuid with
      | none =>
          rw [hlookup] at hhere
          rw [lastStored_eq_none.2 hhere]
          exact hrest
      | some found =>
          obtain ⟨seq, pos⟩ := found
          rw [hlookup] at hhere
          obtain ⟨ev, -, stored, hread, hseq, hstored, hlast⟩ := hhere
          obtain ⟨hevent, -, hseq', htime⟩ := WireEvent.stored_eq_some.1 hstored
          dsimp only
          rw [hread, hlast]
          dsimp only
          rw [hevent, ← hseq', ← htime]

/-! ## Reachable books -/

/-- What happened to a book before its present writer was started: a run with
interrupted write phases, or one with crashes. -/
inductive Past
  | interrupted (actions : List Action)
  | crashed (actions : List CrashAction)

/-- A look at a book: its past, the turns of its present writer, and the moments
at which its state and then its files are read. -/
structure BookLook where
  opts : LogStoreOptions
  io : SpillIo
  past : Past
  turns : List Turn
  stateAt : ℕ
  fileAt : ℕ
  state_le : stateAt ≤ fileAt

namespace BookLook

def run (rt : Runtime) (look : BookLook) : Run :=
  match look.past with
  | .interrupted actions => Run.exec rt look.opts look.io actions
  | .crashed actions => Run.crashExec rt look.opts look.io actions

/-- What the look finds, and the events that are committed at that time. -/
def view (rt : Runtime) (look : BookLook) : Option (BookHandle × List WireEvent) :=
  match (look.run rt).status with
  | .stopped _ => none
  | .live writer =>
      let shared := ((look.run rt).serve writer).atTime rt look.turns
      some (⟨(shared look.stateAt).state, (shared look.fileAt).read⟩,
        (shared look.stateAt).applied rt)

theorem runInv (rt : Runtime) (look : BookLook) : RunInv rt (look.run rt) := by
  unfold run
  cases look.past with
  | interrupted actions => exact RunInv.exec rt look.opts look.io actions
  | crashed actions =>
      obtain ⟨writer, hinv⟩ := CrashInv.crashExec rt look.opts look.io actions
      exact hinv.runInv

theorem resolves_view {look : BookLook} {book : BookHandle × List WireEvent}
    (hview : look.view rt = some book) : book.1.Resolves rt book.2 := by
  unfold view at hview
  cases hstatus : (look.run rt).status with
  | stopped disk =>
      rw [hstatus] at hview
      cases hview
  | live writer =>
      rw [hstatus] at hview
      cases hview
      exact (((look.runInv rt).serve hstatus).timeline look.turns).resolves look.state_le

end BookLook

/-- At every moment of every run, each recorded position resolves to the
transaction recorded under it, with its seq and its time, and every committed
transaction is recorded.  So `transaction` never fails; it returns what the
first book with the id has posted last under it, which is the transaction
committed under that id when there is only one, and nothing for any other
id. -/
theorem positions_resolve (rt : Runtime) (looks : List BookLook) :
    let books := looks.filterMap (BookLook.view rt)
    (∀ book ∈ books, book.1.Resolves rt book.2) ∧
      ∀ uuid,
        transaction rt uuid (books.map Prod.fst) =
          .ok (books.findSome? fun book => lastStored uuid book.2) ∧
        ((∀ book ∈ books, ∀ ev ∈ book.2, ev.stored uuid = none) →
          transaction rt uuid (books.map Prod.fst) = .ok none) ∧
        ∀ book ∈ books, ∀ ev ∈ book.2, ∀ stored, ev.stored uuid = some stored →
          (∀ other ∈ books, ∀ ev' ∈ other.2, ∀ stored', ev'.stored uuid = some stored' →
            stored' = stored) →
          transaction rt uuid (books.map Prod.fst) = .ok (some stored) := by
  intro books
  have hresolves : ∀ book ∈ books, book.1.Resolves rt book.2 := by
    intro book hbook
    obtain ⟨look, -, hview⟩ := List.mem_filterMap.1 hbook
    exact BookLook.resolves_view hview
  refine ⟨hresolves, fun uuid => ?_⟩
  have heq := transaction_eq uuid hresolves
  refine ⟨heq, fun hnone => ?_, fun book hbook ev hev stored hstored honly => ?_⟩
  · rw [heq, List.findSome?_eq_none_iff.2 fun book hbook =>
      lastStored_eq_none.2 (hnone book hbook)]
  · rw [heq]
    cases hfound : books.findSome? fun book => lastStored uuid book.2 with
    | none =>
        have hmissing := List.findSome?_eq_none_iff.1 hfound book hbook
        rw [lastStored_eq_none.1 hmissing ev hev] at hstored
        cases hstored
    | some found =>
        obtain ⟨other, hother, hlast⟩ := List.exists_of_findSome?_eq_some hfound
        obtain ⟨ev', hev', hstored'⟩ := List.mem_filterMap.1 (List.mem_of_getLast? hlast)
        rw [honly other hother ev' hev' found hstored']

end Talea.Log
