import Talea.Sql.Tables
import Talea.Lib.Ascending

/-!
# Event streams

The streams of both SQL stores go through a book's events from a cursor on, a
batch at a time, and wait for a wake-up when there is no more.  Whatever is
committed meanwhile, what a stream has yielded are the book's events below its
cursor.  Sequence numbers are taken to stay below the end of the 64-bit range.
-/

namespace Talea.Sql

/-- The events of a book from a sequence number on. -/
def eventsFrom (events : List EventRow) (book : String) (start : Int) : List EventRow :=
  events.filter fun row => row.book = book ∧ start ≤ row.seq

def fetchEvents (db : Database) (book : String) (start : Int) (limit : ℕ) : List EventRow :=
  ((eventsFrom db.events book start).insertionSort fun left right => left.seq ≤ right.seq).take
    limit

inductive Phase
  /-- About to read the next batch. -/
  | fetching
  /-- Handing out a batch. -/
  | yielding (batch : List EventRow)
  /-- Waiting for a wake-up. -/
  | waiting
  | ended

structure EventStream where
  book : String
  next : Int
  phase : Phase
  yielded : List (Except StoreError EventRow)

namespace EventStream

def batchSize : ℕ := 256

def start (book : String) (start : Int) : EventStream :=
  ⟨book, start, .fetching, []⟩

/-- A batch has been read from the database; an empty one ends the catching
up. -/
def fetched (stream : EventStream) (db : Database) : EventStream :=
  match fetchEvents db stream.book stream.next batchSize with
  | [] => { stream with phase := .waiting }
  | ev :: batch => { stream with phase := .yielding (ev :: batch) }

/-- The stream ends with an error. -/
def failed (stream : EventStream) (error : StoreError) : EventStream :=
  { stream with phase := .ended, yielded := stream.yielded ++ [.error error] }

/-- Hand out the next event of a batch. -/
def handOut (stream : EventStream) (ev : EventRow) (batch : List EventRow) : EventStream :=
  { stream with
    next := ev.seq + 1
    phase := if batch.isEmpty then .fetching else .yielding batch
    yielded := stream.yielded ++ [.ok ev] }

/-- The events among the items that the stream has yielded. -/
def received (stream : EventStream) : List EventRow :=
  stream.yielded.filterMap Except.toOption

end EventStream

/-! ## The place of a stream in its book -/

/-- Each book's events ascend in the table. -/
def Ascending (events : List EventRow) : Prop :=
  events.Pairwise fun left right => left.book = right.book → left.seq < right.seq

section Events

variable {events rows : List EventRow} {book : String} {start next : Int}

theorem Ascending.eventsFrom (hascending : Ascending events) (book : String) (start : Int) :
    Ascends EventRow.seq (eventsFrom events book start) := by
  refine List.Pairwise.imp_of_mem (fun {left right} hleft hright hlt => ?_)
    (List.Pairwise.sublist List.filter_sublist hascending)
  have hbook : left.book = book := (of_decide_eq_true (List.mem_filter.1 hleft).2).1
  exact hlt (hbook.trans (of_decide_eq_true (List.mem_filter.1 hright).2).1.symm)

theorem mem_eventsFrom {row : EventRow} :
    row ∈ eventsFrom events book start ↔ row ∈ events ∧ row.book = book ∧ start ≤ row.seq := by
  rw [eventsFrom, List.mem_filter, decide_eq_true_iff]

theorem eventsFrom_filter (hle : start ≤ next) :
    (eventsFrom events book start).filter (fun row => next ≤ row.seq) =
      eventsFrom events book next := by
  rw [eventsFrom, List.filter_filter, eventsFrom]
  refine List.filter_congr fun row _ => ?_
  rw [← Bool.decide_and, decide_eq_decide]
  constructor
  · exact fun ⟨hnext, hbook, _⟩ => ⟨hbook, hnext⟩
  · exact fun ⟨hbook, hnext⟩ => ⟨hnext, hbook, hle.trans hnext⟩

/-- A batch is the next events of the book. -/
theorem fetchEvents_isPrefix {db : Database} (hascending : Ascending db.events) (limit : ℕ) :
    fetchEvents db book start limit <+: eventsFrom db.events book start := by
  rw [fetchEvents, (hascending.eventsFrom book start).insertionSort_eq]
  exact List.take_prefix _ _

theorem fetchEvents_eq_nil {db : Database} (hascending : Ascending db.events) {limit : ℕ}
    (hlimit : 0 < limit) (hempty : fetchEvents db book start limit = []) :
    eventsFrom db.events book start = [] := by
  rw [fetchEvents, (hascending.eventsFrom book start).insertionSort_eq,
    List.take_eq_nil_iff] at hempty
  exact hempty.resolve_left hlimit.ne'

end Events

/-- The stream has handed out the events below its cursor, and the rest of a
batch is what comes next. -/
structure EventStream.Exact (events : List EventRow) (start : Int) (stream : EventStream) :
    Prop where
  received : stream.received =
    (eventsFrom events stream.book start).filter fun row => row.seq < stream.next
  next : stream.next = start ∨
    ∃ row ∈ eventsFrom events stream.book start, stream.next = row.seq + 1
  batch : ∀ batch, stream.phase = .yielding batch →
    batch ≠ [] ∧ batch <+: eventsFrom events stream.book stream.next

namespace EventStream

/-- A stream that turns to its wake-ups has found nothing at its cursor. -/
theorem fetched_waiting {db : Database} {stream : EventStream} (hascending : Ascending db.events)
    (hwaiting : (stream.fetched db).phase = .waiting) :
    (stream.fetched db).next = stream.next ∧
      eventsFrom db.events stream.book stream.next = [] := by
  unfold fetched at hwaiting ⊢
  split at hwaiting
  · next hempty =>
      exact ⟨rfl, fetchEvents_eq_nil hascending (by decide) hempty⟩
  · cases hwaiting

theorem fetched_book {db : Database} {stream : EventStream} :
    (stream.fetched db).book = stream.book := by
  unfold fetched
  split <;> rfl

theorem phase_handOut (stream : EventStream) (ev : EventRow) (batch : List EventRow) :
    (stream.handOut ev batch).phase ≠ .waiting := by
  change (if batch.isEmpty then Phase.fetching else .yielding batch) ≠ .waiting
  split <;> nofun

end EventStream

namespace EventStream.Exact

variable {db : Database} {events rows : List EventRow} {start : Int} {stream : EventStream}

theorem subscribed (book : String) : (EventStream.start book start).Exact events start where
  received := by
    refine (List.filter_eq_nil_iff.2 fun row hrow => ?_).symm
    exact mt of_decide_eq_true (not_lt.2 (mem_eventsFrom.1 hrow).2.2)
  next := Or.inl rfl
  batch := nofun

theorem le_next (hexact : stream.Exact events start) : start ≤ stream.next := by
  rcases hexact.next with hnext | ⟨row, hrow, hnext⟩
  · exact hnext.ge
  · have := (mem_eventsFrom.1 hrow).2.2
    omega

theorem received_isPrefix (hexact : stream.Exact events start) (hascending : Ascending events) :
    stream.received <+: eventsFrom events stream.book start := by
  rw [hexact.received]
  exact (hascending.eventsFrom _ _).filter_lt_isPrefix _

/-- An event is handed out or lies at the cursor or behind. -/
theorem mem_received (hexact : stream.Exact events start) {row : EventRow}
    (hrow : row ∈ eventsFrom events stream.book start) (hlt : row.seq < stream.next) :
    row ∈ stream.received := by
  rw [hexact.received, List.mem_filter]
  exact ⟨hrow, decide_eq_true hlt⟩

theorem waiting (hexact : stream.Exact events start) :
    { stream with phase := .waiting }.Exact events start :=
  ⟨hexact.received, hexact.next, nofun⟩

theorem woken (hexact : stream.Exact events start) :
    { stream with phase := .fetching }.Exact events start :=
  ⟨hexact.received, hexact.next, nofun⟩

theorem ended (hexact : stream.Exact events start) :
    { stream with phase := .ended }.Exact events start :=
  ⟨hexact.received, hexact.next, nofun⟩

theorem failed (hexact : stream.Exact events start) (error : StoreError) :
    (stream.failed error).Exact events start := by
  refine ⟨?_, hexact.next, nofun⟩
  rw [EventStream.received, EventStream.failed, List.filterMap_append]
  exact (List.append_nil _).trans hexact.received

theorem fetched (hexact : stream.Exact db.events start) (hascending : Ascending db.events) :
    (stream.fetched db).Exact db.events start := by
  unfold EventStream.fetched
  have hprefix : fetchEvents db stream.book stream.next EventStream.batchSize <+:
      eventsFrom db.events stream.book stream.next := fetchEvents_isPrefix hascending _
  split
  · exact hexact.waiting
  · next ev batch hbatch =>
      refine ⟨hexact.received, hexact.next, fun other hother => ?_⟩
      cases hother
      exact ⟨List.cons_ne_nil _ _, by rwa [hbatch] at hprefix⟩

theorem handOut (hexact : stream.Exact events start) (hascending : Ascending events)
    {ev : EventRow} {batch : List EventRow} (hphase : stream.phase = .yielding (ev :: batch)) :
    (stream.handOut ev batch).Exact events start := by
  have hbatch := (hexact.batch _ hphase).2
  rw [← eventsFrom_filter hexact.le_next] at hbatch
  have hev : ev ∈ eventsFrom events stream.book start :=
    List.mem_of_mem_filter (hbatch.subset List.mem_cons_self)
  obtain ⟨hreceived, hrest⟩ := (hascending.eventsFrom _ _).advance hbatch
  refine ⟨?_, Or.inr ⟨ev, hev, rfl⟩, fun other hother => ?_⟩
  · rw [EventStream.received, EventStream.handOut, List.filterMap_append]
    exact (congrArg (· ++ [ev]) hexact.received).trans hreceived.symm
  · have hother : (if batch.isEmpty then Phase.fetching else .yielding batch) =
        .yielding other := hother
    obtain ⟨hsame, hne⟩ : batch = other ∧ batch ≠ [] := by
      split at hother
      · cases hother
      · next hempty => exact ⟨Phase.yielding.inj hother, mt List.isEmpty_iff.2 hempty⟩
    have hle : start ≤ ev.seq + 1 := by
      have := (mem_eventsFrom.1 hev).2.2
      omega
    subst hsame
    refine ⟨hne, ?_⟩
    change batch <+: eventsFrom events stream.book (ev.seq + 1)
    rwa [← eventsFrom_filter hle]

/-- What a writer appends comes behind the cursor. -/
theorem appended (hexact : stream.Exact events start) (hascending : Ascending (events ++ rows)) :
    stream.Exact (events ++ rows) start ∧
      ∀ row ∈ rows, row.book = stream.book → start ≤ row.seq → stream.next ≤ row.seq := by
  have hbehind : ∀ row ∈ rows, row.book = stream.book → start ≤ row.seq →
      stream.next ≤ row.seq := by
    intro row hrow hbook hstart
    rcases hexact.next with hnext | ⟨last, hlast, hnext⟩
    · exact hnext.le.trans hstart
    · obtain ⟨hmem, hlastBook, -⟩ := mem_eventsFrom.1 hlast
      have := (List.pairwise_append.1 hascending).2.2 last hmem row hrow
        (hlastBook.trans hbook.symm)
      omega
  have hsplit : ∀ start, eventsFrom (events ++ rows) stream.book start =
      eventsFrom events stream.book start ++ eventsFrom rows stream.book start :=
    fun start => List.filter_append ..
  refine ⟨⟨?_, ?_, fun batch hbatch => ?_⟩, hbehind⟩
  · have hnone : (eventsFrom rows stream.book start).filter (fun row => row.seq < stream.next) =
        [] := by
      refine List.filter_eq_nil_iff.2 fun row hrow => ?_
      obtain ⟨hmem, hbook, hstart⟩ := mem_eventsFrom.1 hrow
      simpa using hbehind row hmem hbook hstart
    rw [hsplit, List.filter_append, hnone, List.append_nil]
    exact hexact.received
  · refine hexact.next.imp_right fun ⟨row, hrow, hnext⟩ => ⟨row, ?_, hnext⟩
    rw [hsplit]
    exact List.mem_append_left _ hrow
  · rw [hsplit]
    exact (hexact.batch batch hbatch).imp_right fun h => h.trans (List.prefix_append _ _)

end EventStream.Exact

end Talea.Sql
