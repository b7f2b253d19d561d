import Talea.Log.Readers

/-!
# Subscriptions

A subscriber joins the broadcast channel, pages through the log up to the
watermark, and then lives on the channel.  What the channel still has from
before is skipped by seq, and when it has dropped messages the subscriber pages
again from the last event on.  The channel holds back nothing: a message is
lost only with a lag, and with every lag the subscriber goes back to the log.
-/

namespace Talea.Log

variable {rt : Runtime}

/-- The loop a subscriber pages in: the one before it turns to the channel, or
the one behind a lag, which checks the seqs it has yielded. -/
inductive Paging
  | catchUp
  | lagged (last : Int)

/-- The last seq at the end of the loop. -/
def Paging.last (cursor : Int) : Paging → Int
  | .catchUp => cursor - 1
  | .lagged last => last

def Paging.yields (ev : WireEvent) : Paging → Prop
  | .catchUp => True
  | .lagged last => last < ev.seq

def Paging.yielded (ev : WireEvent) : Paging → Paging
  | .catchUp => .catchUp
  | .lagged _ => .lagged ev.seq

inductive Phase
  /-- About to look at the ceiling. -/
  | paging (loop : Paging) (cursor : Int)
  /-- Going through a page. -/
  | page (loop : Paging) (cursor ceiling : Int) (wires : List WireEvent) (short : Bool)
  /-- Waiting on the channel. -/
  | live (last : Int)
  | failed (err : ScanError)

/-- A subscriber has a place in the channel: the number of messages that it has
received, or missed, since the writer was started. -/
structure Subscriber where
  phase : Phase
  received : ℕ
  yielded : List WireEvent

def pageSize : ℕ := 512

def pageLimit (ceiling cursor : Int) : ℕ :=
  min pageSize (ceiling - cursor + 1).toNat

namespace Subscriber

/-- A subscriber that joins the channel at this moment. -/
def start (now : Shared) (fromSeq : Int) : Subscriber :=
  ⟨.paging .catchUp fromSeq, now.sent.length, []⟩

/-- Behind a page: a short one ends the loop. -/
def afterPage (loop : Paging) (cursor : Int) (short : Bool) : Phase :=
  if short then .live (loop.last cursor) else .paging loop cursor

/-- One step of a subscriber, or of the writer next to it. -/
inductive Step (rt : Runtime) (shared : ℕ → Shared) :
    ℕ × Subscriber → ℕ × Subscriber → Prop
  | wait {time : ℕ} {sub : Subscriber} : Step rt shared (time, sub) (time + 1, sub)
  | caughtUp {time received : ℕ} {loop : Paging} {cursor : Int} {yielded : List WireEvent}
      (hceiling : (shared time).ceiling < cursor) :
      Step rt shared (time, ⟨.paging loop cursor, received, yielded⟩)
        (time, ⟨.live (loop.last cursor), received, yielded⟩)
  | readPage {received later : ℕ} {loop : Paging} {cursor : Int}
      {yielded wires : List WireEvent} (schedule : Schedule)
      (hceiling : cursor ≤ (shared schedule.ceilingAt).ceiling)
      (hscan : scanFrom rt shared schedule cursor
        (pageLimit (shared schedule.ceilingAt).ceiling cursor) = .ok wires)
      (hlater : ∀ base, schedule.readAt base ≤ later) :
      Step rt shared (schedule.ceilingAt, ⟨.paging loop cursor, received, yielded⟩)
        (later, ⟨.page loop cursor (shared schedule.ceilingAt).ceiling wires
          (wires.length < pageLimit (shared schedule.ceilingAt).ceiling cursor), received, yielded⟩)
  | readError {received later : ℕ} {loop : Paging} {cursor : Int}
      {yielded : List WireEvent} {err : ScanError} (schedule : Schedule)
      (hceiling : cursor ≤ (shared schedule.ceilingAt).ceiling)
      (hscan : scanFrom rt shared schedule cursor
        (pageLimit (shared schedule.ceilingAt).ceiling cursor) = .error err)
      (hlater : ∀ base, schedule.readAt base ≤ later) :
      Step rt shared (schedule.ceilingAt, ⟨.paging loop cursor, received, yielded⟩)
        (later, ⟨.failed err, received, yielded⟩)
  | yield {time received : ℕ} {loop : Paging} {cursor ceiling : Int} {ev : WireEvent}
      {wires yielded : List WireEvent} {short : Bool} (hle : ev.seq ≤ ceiling)
      (hyields : loop.yields ev) :
      Step rt shared (time, ⟨.page loop cursor ceiling (ev :: wires) short, received, yielded⟩)
        (time, ⟨.page (loop.yielded ev) (ev.seq + 1) ceiling wires short, received,
          yielded ++ [ev]⟩)
  | pass {time received : ℕ} {loop : Paging} {cursor ceiling : Int} {ev : WireEvent}
      {wires yielded : List WireEvent} {short : Bool} (hle : ev.seq ≤ ceiling)
      (hyields : ¬ loop.yields ev) :
      Step rt shared (time, ⟨.page loop cursor ceiling (ev :: wires) short, received, yielded⟩)
        (time, ⟨.page loop (ev.seq + 1) ceiling wires short, received, yielded⟩)
  | beyond {time received : ℕ} {loop : Paging} {cursor ceiling : Int} {ev : WireEvent}
      {wires yielded : List WireEvent} {short : Bool} (hlt : ceiling < ev.seq) :
      Step rt shared (time, ⟨.page loop cursor ceiling (ev :: wires) short, received, yielded⟩)
        (time, ⟨afterPage loop cursor short, received, yielded⟩)
  | pageEnd {time received : ℕ} {loop : Paging} {cursor ceiling : Int}
      {yielded : List WireEvent} {short : Bool} :
      Step rt shared (time, ⟨.page loop cursor ceiling [] short, received, yielded⟩)
        (time, ⟨afterPage loop cursor short, received, yielded⟩)
  | overlap {time received : ℕ} {last : Int} {ev : WireEvent} {yielded : List WireEvent}
      (hsent : (shared time).sent[received]? = some ev) (hle : ev.seq ≤ last) :
      Step rt shared (time, ⟨.live last, received, yielded⟩)
        (time, ⟨.live last, received + 1, yielded⟩)
  | receive {time received : ℕ} {last : Int} {ev : WireEvent} {yielded : List WireEvent}
      (hsent : (shared time).sent[received]? = some ev) (hlt : last < ev.seq) :
      Step rt shared (time, ⟨.live last, received, yielded⟩)
        (time, ⟨.live ev.seq, received + 1, yielded ++ [ev]⟩)
  | lag {time received : ℕ} {last : Int} {yielded : List WireEvent} (missed : ℕ)
      (hmissed : received + missed ≤ (shared time).sent.length) :
      Step rt shared (time, ⟨.live last, received, yielded⟩)
        (time, ⟨.paging (.lagged last) (last + 1), received + missed, yielded⟩)

/-- The states a subscriber can get to that has joined at the time `joined`. -/
def Reach (rt : Runtime) (shared : ℕ → Shared) (fromSeq : Int) (joined time : ℕ)
    (sub : Subscriber) : Prop :=
  Relation.ReflTransGen (Step rt shared) (joined, start (shared joined) fromSeq) (time, sub)

end Subscriber

/-! ## The place of a subscriber in the log -/

/-- The number of events that lie below a seq. -/
def skipped (fromSeq : Int) : ℕ :=
  (fromSeq - 1).toNat

theorem Numbered.filter_ge_eq_drop {events : List WireEvent} (hnumbered : Numbered 1 events)
    (fromSeq : Int) :
    (events.filter fun ev => fromSeq ≤ ev.seq) = events.drop (skipped fromSeq) := by
  have hself : Numbered 1 (events.map id) := by rwa [List.map_id]
  rw [← hself.filter_eq_drop (skipped fromSeq)]
  refine List.filter_congr fun ev hev => ?_
  have := (hnumbered.mem_bounds hev).1
  rw [decide_eq_decide, skipped, id]
  omega

namespace Shared.Sound

variable {now : Shared} {start : ℕ}

theorem nextSeq_le (hsound : now.Sound rt start) :
    now.state.nextSeq ≤ (now.events rt).length + 1 := by
  obtain ⟨count, -, hcount, hnextSeq, -⟩ := hsound.state
  rw [Shared.events, List.length_map]
  omega

theorem numbered (hsound : now.Sound rt start) : Numbered 1 (now.events rt) :=
  hsound.valid.numbered

theorem seq_eq (hsound : now.Sound rt start) {idx : ℕ} {ev : WireEvent}
    (hev : (now.events rt)[idx]? = some ev) : ev.seq = idx + 1 := by
  obtain ⟨hidx, rfl⟩ := List.getElem?_eq_some_iff.1 hev
  rw [hsound.numbered.getElem hidx, add_comm]

/-- A message of the channel is an event of the log. -/
theorem getElem?_sent (hsound : now.Sound rt start) {idx : ℕ} {ev : WireEvent}
    (hsent : now.sent[idx]? = some ev) : (now.events rt)[start + idx]? = some ev := by
  obtain ⟨rest, hrest⟩ := hsound.sent
  rw [← List.getElem?_drop, ← hrest]
  exact getElem?_append_of_some hsent

end Shared.Sound

namespace Subscriber

/-- The cursor stands behind the first `place` events. -/
def At (fromSeq cursor : Int) (place : ℕ) : Prop :=
  cursor = place + 1 ∨ place = skipped fromSeq ∧ cursor = fromSeq

theorem At.skipped_eq {fromSeq cursor : Int} {place : ℕ} (hat : At fromSeq cursor place) :
    skipped cursor = place := by
  rcases hat with rfl | ⟨rfl, rfl⟩
  · simp [skipped]
  · rfl

theorem At.le {fromSeq cursor : Int} {place : ℕ} (hat : At fromSeq cursor place) :
    cursor ≤ place + 1 := by
  rcases hat with rfl | ⟨rfl, rfl⟩
  · exact le_rfl
  · rw [skipped]
    omega

/-- What holds in the phases of a subscriber that stands behind the first
`place` events and has its place in the channel; `start` events were in the log
when the writer was started. -/
def PhaseInv (rt : Runtime) (start : ℕ) (fromSeq : Int) (now : Shared) (received place : ℕ) :
    Phase → Prop
  | .paging loop cursor => At fromSeq cursor place ∧ loop.last cursor = cursor - 1
  | .page loop cursor ceiling wires short =>
      At fromSeq cursor place ∧ loop.last cursor = cursor - 1 ∧
        wires <+: (now.events rt).drop place ∧ ceiling < now.state.nextSeq ∧
        (start : Int) + received ≤ ceiling ∧ (short = true → ceiling ≤ place + wires.length)
  | .live last => At fromSeq (last + 1) place ∧ start + received ≤ place
  | .failed _ => False

/-- A subscriber has yielded the events from `fromSeq` on among the first
`place` ones, and all of these are applied. -/
structure Inv (rt : Runtime) (start : ℕ) (fromSeq : Int) (now : Shared) (place : ℕ)
    (sub : Subscriber) : Prop where
  skipped_le : skipped fromSeq ≤ place
  yielded : sub.yielded = ((now.events rt).take place).drop (skipped fromSeq)
  applied : place = skipped fromSeq ∨ (place : Int) < now.state.nextSeq
  received : sub.received ≤ now.sent.length
  phase : PhaseInv rt start fromSeq now sub.received place sub.phase

variable {start : ℕ} {fromSeq : Int} {now : Shared} {place : ℕ} {sub : Subscriber}

theorem PhaseInv.mono {later : Shared} (hext : now.Extends later) {received : ℕ} {phase : Phase}
    (hphase : PhaseInv rt start fromSeq now received place phase) :
    PhaseInv rt start fromSeq later received place phase := by
  cases phase with
  | paging loop cursor => exact hphase
  | page loop cursor ceiling wires short =>
      obtain ⟨hat, hloop, hwires, hceiling, hreceived, hshort⟩ := hphase
      exact ⟨hat, hloop, hwires.trans (hext.events_isPrefix.drop place),
        hceiling.trans_le hext.nextSeq, hreceived, hshort⟩
  | live last => exact hphase
  | failed err => exact hphase

/-- What a subscriber has done stays so when the writer goes on. -/
theorem Inv.mono (hinv : Inv rt start fromSeq now place sub) (hsound : now.Sound rt start)
    {later : Shared} (hext : now.Extends later) : Inv rt start fromSeq later place sub where
  skipped_le := hinv.skipped_le
  yielded := by
    rw [hinv.yielded]
    rcases hinv.applied with hnone | hplace
    · rw [hnone, List.drop_take_self, List.drop_take_self]
    · obtain ⟨rest, hrest⟩ : now.events rt <+: later.events rt := hext.events_isPrefix
      have hle := hsound.nextSeq_le
      rw [← hrest, List.take_append_of_le_length (by omega)]
  applied := hinv.applied.imp_right fun h => h.trans_le hext.nextSeq
  received := hinv.received.trans hext.sent.length_le
  phase := hinv.phase.mono hext

/-- A subscriber that goes on to another phase without yielding. -/
theorem Inv.toPhase (hinv : Inv rt start fromSeq now place sub) {received : ℕ} {phase : Phase}
    (hreceived : received ≤ now.sent.length)
    (hphase : PhaseInv rt start fromSeq now received place phase) :
    Inv rt start fromSeq now place ⟨phase, received, sub.yielded⟩ :=
  ⟨hinv.skipped_le, hinv.yielded, hinv.applied, hreceived, hphase⟩

/-- A subscriber that yields the next event. -/
theorem Inv.yield (hinv : Inv rt start fromSeq now place sub) {ev : WireEvent}
    (hev : (now.events rt)[place]? = some ev) (happlied : (place : Int) + 1 < now.state.nextSeq)
    {received : ℕ} {phase : Phase} (hreceived : received ≤ now.sent.length)
    (hphase : PhaseInv rt start fromSeq now received (place + 1) phase) :
    Inv rt start fromSeq now (place + 1) ⟨phase, received, sub.yielded ++ [ev]⟩ where
  skipped_le := hinv.skipped_le.trans (Nat.le_succ place)
  yielded := by
    obtain ⟨hlt, -⟩ := List.getElem?_eq_some_iff.1 hev
    have hlen : skipped fromSeq ≤ ((now.events rt).take place).length := by
      rw [List.length_take]
      exact le_min hinv.skipped_le (hinv.skipped_le.trans hlt.le)
    rw [List.take_add_one, hev, List.drop_append_of_le_length hlen, ← hinv.yielded]
    rfl
  applied := Or.inr (by push_cast; exact happlied)
  received := hreceived
  phase := hphase

/-- The channel has nothing that is not applied. -/
theorem start_add_received_le (hsound : now.Sound rt start) {received : ℕ}
    (hreceived : received ≤ now.sent.length) : (start : Int) + received ≤ now.ceiling := by
  have hsent := hsound.sent_applied
  rw [Shared.ceiling]
  omega

/-- Behind a page. -/
theorem phaseInv_afterPage {loop : Paging} {cursor ceiling : Int} {short : Bool} {received : ℕ}
    (hat : At fromSeq cursor place) (hloop : loop.last cursor = cursor - 1)
    (hreceived : (start : Int) + received ≤ ceiling) (hshort : short = true → ceiling ≤ place) :
    PhaseInv rt start fromSeq now received place (afterPage loop cursor short) := by
  unfold afterPage
  cases short with
  | false => exact ⟨hat, hloop⟩
  | true =>
      have hdone := hshort rfl
      refine ⟨?_, by omega⟩
      rw [hloop, sub_add_cancel]
      exact hat

/-- The page a subscriber reads from its place on. -/
theorem PhaseInv.readPage {shared : ℕ → Shared} (htimeline : Timeline rt start shared)
    {schedule : Schedule} {loop : Paging} {cursor : Int} {received later : ℕ}
    {wires : List WireEvent}
    (hphase : PhaseInv rt start fromSeq (shared schedule.ceilingAt) received place
      (.paging loop cursor))
    (hreceived : received ≤ (shared schedule.ceilingAt).sent.length)
    (hscan : scanFrom rt shared schedule cursor
      (pageLimit (shared schedule.ceilingAt).ceiling cursor) = .ok wires)
    (hlater : ∀ base, schedule.readAt base ≤ later) :
    PhaseInv rt start fromSeq (shared later) received place
      (.page loop cursor (shared schedule.ceilingAt).ceiling wires
        (wires.length < pageLimit (shared schedule.ceilingAt).ceiling cursor)) := by
  obtain ⟨hat, hloop⟩ := hphase
  obtain ⟨events, base, hok, hnumbered, hold, hnew⟩ := htimeline.scanFrom schedule cursor
    (pageLimit (shared schedule.ceilingAt).ceiling cursor)
  rw [hscan, Except.ok.injEq, hnumbered.filter_ge_eq_drop, hat.skipped_eq] at hok
  have hceiling := (htimeline.sound schedule.ceilingAt).nextSeq_le
  have hgrow := (htimeline.grows _ later
    (schedule.catalog_le.trans ((schedule.read_le base).trans (hlater base)))).nextSeq
  refine ⟨hat, hloop, ?_, ?_, start_add_received_le (htimeline.sound _) hreceived, ?_⟩
  · rw [hok]
    exact (List.take_prefix _ _).trans
      ((hnew.trans (htimeline.grows _ _ (hlater base)).events_isPrefix).drop place)
  · rw [Shared.ceiling]
    omega
  · -- a short page has everything that was in the log when the catalog was taken
    intro hshort
    rw [decide_eq_true_eq, hok, List.length_take] at hshort
    have hall : wires.length = events.length - place := by
      rw [hok, List.length_take, List.length_drop] at *
      omega
    have hlen := ((htimeline.grows _ _ schedule.catalog_le).events_isPrefix.trans hold).length_le
    rw [hall, Shared.ceiling]
    omega

/-- The next wire of a page. -/
theorem next_of_page {ev : WireEvent} {wires : List WireEvent}
    (hwires : ev :: wires <+: (now.events rt).drop place) :
    (now.events rt)[place]? = some ev ∧ wires <+: (now.events rt).drop (place + 1) := by
  obtain ⟨rest, hrest⟩ := hwires
  constructor
  · rw [← Nat.add_zero place, ← List.getElem?_drop, ← hrest]
    rfl
  · exact ⟨rest, by rw [← List.drop_drop, ← hrest]; rfl⟩

/-- Every step keeps the place of a subscriber, or moves it by the event it
yields. -/
theorem inv_step {shared : ℕ → Shared} (htimeline : Timeline rt start shared) {time later : ℕ}
    {next : Subscriber} (hinv : Inv rt start fromSeq (shared time) place sub)
    (hstep : Step rt shared (time, sub) (later, next)) :
    ∃ place', Inv rt start fromSeq (shared later) place' next := by
  have hsound := htimeline.sound time
  have hphase := hinv.phase
  cases hstep with
  | wait => exact ⟨place, hinv.mono hsound (htimeline.grows _ _ (Nat.le_succ time))⟩
  | @caughtUp _ received loop cursor yielded hceiling =>
      obtain ⟨hat, hloop⟩ := hphase
      have hreceived : (start : Int) + received ≤ (shared time).ceiling :=
        start_add_received_le hsound hinv.received
      refine ⟨place, hinv.toPhase hinv.received ⟨?_, ?_⟩⟩
      · rw [hloop, sub_add_cancel]
        exact hat
      · have := hat.le
        omega
  | readPage schedule hceiling hscan hlater =>
      have hle := schedule.catalog_le.trans ((schedule.read_le 0).trans (hlater 0))
      have hmono := hinv.mono hsound (htimeline.grows _ _ hle)
      exact ⟨place, hmono.toPhase hmono.received
        (PhaseInv.readPage htimeline hphase hinv.received hscan hlater)⟩
  | readError schedule hceiling hscan hlater =>
      obtain ⟨events, base, hok, -⟩ := htimeline.scanFrom schedule _ _
      rw [hok] at hscan
      cases hscan
  | @yield _ received loop cursor ceiling ev wires yielded short hle hyields =>
      obtain ⟨hat, hloop, hwires, hceiling, hreceived, hshort⟩ := hphase
      obtain ⟨hev, hrest⟩ := next_of_page hwires
      have hseq := hsound.seq_eq hev
      refine ⟨place + 1, hinv.yield hev (by omega) hinv.received
        ⟨Or.inl (by push_cast; omega), ?_, hrest, hceiling, hreceived, fun h => ?_⟩⟩
      · cases loop <;> simp [Paging.yielded, Paging.last]
      · have := hshort h
        rw [List.length_cons] at this
        push_cast at this ⊢
        omega
  | @pass _ received loop cursor ceiling ev wires yielded short hle hyields =>
      -- the loops yield every event they come to
      obtain ⟨hat, hloop, hwires, -⟩ := hphase
      obtain ⟨hev, -⟩ := next_of_page hwires
      have hseq := hsound.seq_eq hev
      have hcursor := hat.le
      refine absurd ?_ hyields
      cases loop with
      | catchUp => trivial
      | lagged last =>
          simp only [Paging.last] at hloop
          simp only [Paging.yields]
          omega
  | @beyond _ received loop cursor ceiling ev wires yielded short hlt =>
      obtain ⟨hat, hloop, hwires, -, hreceived, -⟩ := hphase
      obtain ⟨hev, -⟩ := next_of_page hwires
      have hseq := hsound.seq_eq hev
      exact ⟨place, hinv.toPhase hinv.received
        (phaseInv_afterPage hat hloop hreceived fun _ => by omega)⟩
  | pageEnd =>
      obtain ⟨hat, hloop, -, -, hreceived, hshort⟩ := hphase
      exact ⟨place, hinv.toPhase hinv.received
        (phaseInv_afterPage hat hloop hreceived fun h => by simpa using hshort h)⟩
  | @overlap _ received last ev yielded hsent hle =>
      obtain ⟨hat, hreceived⟩ : At fromSeq (last + 1) place ∧ start + received ≤ place := hphase
      obtain ⟨hlt, -⟩ := List.getElem?_eq_some_iff.1 hsent
      have hseq := hsound.seq_eq (hsound.getElem?_sent hsent)
      have hlast := hat.le
      exact ⟨place, hinv.toPhase hlt ⟨hat, by push_cast at hseq; omega⟩⟩
  | @receive _ received last ev yielded hsent hlt =>
      obtain ⟨hat, hreceived⟩ : At fromSeq (last + 1) place ∧ start + received ≤ place := hphase
      obtain ⟨hidx, -⟩ := List.getElem?_eq_some_iff.1 hsent
      have hev := hsound.getElem?_sent hsent
      have hseq := hsound.seq_eq hev
      have hplace : start + received = place := by
        have hskip := hinv.skipped_le
        rcases hat with hat | ⟨hnone, hfrom⟩
        · push_cast at hseq
          omega
        · rw [skipped] at hnone
          push_cast at hseq
          omega
      have hsentApplied := hsound.sent_applied
      rw [hplace] at hev hseq
      refine ⟨place + 1, hinv.yield hev (by omega) hidx
        ⟨Or.inl (by push_cast; omega), by omega⟩⟩
  | @lag _ received last yielded missed hmissed =>
      obtain ⟨hat, -⟩ := hphase
      exact ⟨place, hinv.toPhase hmissed ⟨hat, by simp [Paging.last]⟩⟩

/-! ## Runs of a subscriber -/

theorem inv_start (now : Shared) (fromSeq : Int) :
    Inv rt start fromSeq now (skipped fromSeq) (Subscriber.start now fromSeq) where
  skipped_le := le_rfl
  yielded := by
    rw [List.drop_take_self]
    rfl
  applied := Or.inl rfl
  received := le_rfl
  phase := ⟨Or.inr ⟨rfl, rfl⟩, rfl⟩

theorem inv_reach {shared : ℕ → Shared} (htimeline : Timeline rt start shared)
    {joined time : ℕ} (hreach : Reach rt shared fromSeq joined time sub) :
    ∃ place, Inv rt start fromSeq (shared time) place sub := by
  suffices hgen : ∀ target : ℕ × Subscriber, Relation.ReflTransGen (Step rt shared)
      (joined, Subscriber.start (shared joined) fromSeq) target →
      ∃ place, Inv rt start fromSeq (shared target.1) place target.2 from hgen (time, sub) hreach
  intro target htarget
  induction htarget with
  | refl => exact ⟨_, inv_start (shared joined) fromSeq⟩
  | tail _ hstep ih =>
      obtain ⟨place, hinv⟩ := ih
      exact inv_step htimeline hinv hstep

/-- What a subscriber has yielded at a moment are the first of the applied
events from `fromSeq` on, each once, in order and without a gap; and when it
waits on a channel that has nothing for it, they are all that were broadcast. -/
structure Exact (rt : Runtime) (fromSeq : Int) (now : Shared) (sub : Subscriber) : Prop where
  yielded : sub.yielded <+: (now.applied rt).filter fun ev => fromSeq ≤ ev.seq
  contiguous : Numbered (max fromSeq 1) sub.yielded
  running : ∀ err, sub.phase ≠ .failed err
  waiting : ∀ last, sub.phase = .live last → sub.received = now.sent.length →
    ∀ ev ∈ now.sent, fromSeq ≤ ev.seq → ev ∈ sub.yielded

theorem Inv.exact (hinv : Inv rt start fromSeq now place sub) (hsound : now.Sound rt start) :
    Exact rt fromSeq now sub := by
  have hyielded : sub.yielded <+: (now.applied rt).filter fun ev => fromSeq ≤ ev.seq := by
    obtain ⟨count, -, -, hnextSeq, -⟩ := hsound.state
    have happlied : now.applied rt = (now.events rt).take count := by
      rw [Shared.applied, hnextSeq, add_comm, hsound.numbered.filter_lt_eq_take]
    rw [hinv.yielded, happlied,
      (hsound.numbered.of_isPrefix (List.take_prefix count _)).filter_ge_eq_drop]
    rcases hinv.applied with hnone | hplace
    · rw [hnone, List.drop_take_self]
      exact List.nil_prefix
    · exact (List.take_prefix_take_left (by omega)).drop _
  have hfilter : ((now.applied rt).filter fun ev => fromSeq ≤ ev.seq) =
      ((now.events rt).filter fun ev => fromSeq ≤ ev.seq).filter fun ev =>
        ev.seq < now.state.nextSeq := List.filter_comm ..
  refine ⟨hyielded, ?_, fun err herr => ?_, fun last hlive hall ev hev hfrom => ?_⟩
  · have hbelow : ∀ ev : WireEvent, ev.seq < now.state.nextSeq ↔
        ev.seq ≤ now.state.nextSeq - 1 := fun ev => Int.le_sub_one_iff.symm
    rw [hfilter] at hyielded
    simp only [hbelow] at hyielded
    rw [← (hsound.numbered.filter_ge fromSeq).takeWhile_eq_filter] at hyielded
    exact (hsound.numbered.filter_ge fromSeq).of_isPrefix
      (hyielded.trans (List.takeWhile_prefix _))
  · have hphase := hinv.phase
    rw [herr] at hphase
    exact hphase
  · have hphase := hinv.phase
    rw [hlive] at hphase
    obtain ⟨-, hreceived⟩ := hphase
    obtain ⟨idx, hidx⟩ := List.getElem?_of_mem hev
    obtain ⟨hlt, -⟩ := List.getElem?_eq_some_iff.1 hidx
    have hlog := hsound.getElem?_sent hidx
    have hseq := hsound.seq_eq hlog
    have hskipped : skipped fromSeq ≤ start + idx := by
      rw [skipped]
      omega
    rw [hinv.yielded]
    refine List.mem_of_getElem? (i := start + idx - skipped fromSeq) ?_
    rw [List.getElem?_drop, Nat.add_sub_of_le hskipped,
      List.getElem?_take_of_lt (by omega), hlog]

end Subscriber

/-- On every book with a writer that a run has started, whatever the writer's
turns are, whenever a subscriber joins and however its steps fall between
those of the writer. -/
theorem subscribe_exactly_once (rt : Runtime) (opts : LogStoreOptions) (io : SpillIo)
    (actions : List Action) (turns : List Turn) (fromSeq : Int) (joined : ℕ) :
    match (Run.exec rt opts io actions).status with
    | .stopped _ => True
    | .live writer =>
        let shared := ((Run.exec rt opts io actions).serve writer).atTime rt turns
        ∀ time sub, Subscriber.Reach rt shared fromSeq joined time sub →
          sub.Exact rt fromSeq (shared time) := by
  cases hstatus : (Run.exec rt opts io actions).status with
  | stopped disk => trivial
  | live writer =>
      have hinv := (RunInv.exec rt opts io actions).serve hstatus
      have htimeline := hinv.timeline turns
      intro time sub hreach
      obtain ⟨place, hsub⟩ := Subscriber.inv_reach htimeline hreach
      exact hsub.exact (htimeline.sound time)

end Talea.Log
