import Talea.Client.Sse
import Talea.Server.Http

/-!
# Resuming without gap or duplicate

The client names the first event it wants, the server the last one seen.  The
query of the URL says `first - 1` on every connection; once an event has come
in, the header says which, and wins.  Over any sequence of connections, cut at
any point, the events that the client hands out are those of the book from
`first` on.
-/

namespace Talea.Client

/-- The events of a book, by their sequence number. -/
structure EventLog where
  event : Int → EventEnvelope
  seq_event : ∀ seq, (event seq).seq = seq

/-- A subscription with the server's side of its open connection: the event
that the server sends next. -/
structure Session where
  sub : Subscription
  upcoming : Int

variable (policy : RetryPolicy) (lib : Library) (first : Int)

def Session.fresh : Session :=
  ⟨.fresh, first⟩

/-- The server answers a request from its header and its query, and goes on by
one event with each data frame. -/
def Session.step (session : Session) (event : Event) : Option Session :=
  (Client.step policy lib session.sub event).map fun sub =>
    { sub
      upcoming :=
        match event with
        | .responded _ _ => Server.startOf session.sub.cursor (some (first - 1))
        | .frame ev => if ev.event = "error" then session.upcoming else session.upcoming + 1
        | _ => session.upcoming }

/-- A data frame carries the book's next event, and decodes. -/
def Served (log : EventLog) (session : Session) (event : Event) : Prop :=
  match event with
  | .frame ev => ev.event = "error" ∨ lib.parseEnvelope ev.data = .ok (log.event session.upcoming)
  | _ => True

def Event.isData : Event → Bool
  | .frame ev => decide (ev.event ≠ "error")
  | _ => false

instance (log : EventLog) (session : Session) : ∀ event, Decidable (Served lib log session event)
  | .frame ev => inferInstanceAs (Decidable (ev.event = "error" ∨
      lib.parseEnvelope ev.data = .ok (log.event session.upcoming)))
  | .sendFailed _ | .responded _ _ | .dropped _ | .closed => isTrue trivial

/-- The book's events from `first` on, as many as given. -/
def EventLog.since (log : EventLog) (first : Int) (count : ℕ) : List EventEnvelope :=
  (List.range count).map fun i : ℕ => log.event (first + i)

theorem EventLog.since_succ (log : EventLog) (first : Int) (count : ℕ) :
    log.since first (count + 1) = log.since first count ++ [log.event (first + count)] := by
  rw [since, since, List.range_succ, List.map_append]
  rfl

/-- So many events have been handed out, the cursor is on the last of them, and
an open connection is about to send the one behind it. -/
structure Session.Resumed (log : EventLog) (count : ℕ) (session : Session) : Prop where
  received : session.sub.received = log.since first count
  cursor : session.sub.cursor = if count = 0 then none else some (first + count - 1)
  upcoming : session.sub.phase = .reading → session.upcoming = first + count

section Resume

variable {policy : RetryPolicy} {lib : Library} {first : Int} {log : EventLog} {count : ℕ}
  {session next : Session} {event : Event}

theorem Session.Resumed.fresh (log : EventLog) : (Session.fresh first).Resumed first log 0 :=
  ⟨rfl, rfl, nofun⟩

/-- The two conventions meet: from the cursor, or without one from the query,
the server starts at the event behind the last one handed out. -/
theorem Session.Resumed.startOf (hresumed : session.Resumed first log count) :
    Server.startOf session.sub.cursor (some (first - 1)) = first + count := by
  rw [hresumed.cursor, Server.startOf]
  by_cases hnone : count = 0
  · subst hnone
    simp
  · rw [if_neg hnone]
    simp

theorem Session.Resumed.step (hresumed : session.Resumed first log count)
    (hserved : Served lib log session event)
    (hstep : session.step policy lib first event = some next) :
    next.Resumed first log (count + if event.isData then 1 else 0) := by
  obtain ⟨sub, hsub, rfl⟩ := Option.map_eq_some_iff.1 hstep
  cases turn_of_step hsub with
  | failed event farewell hfailure herrors =>
      have hphase : (session.sub.failed policy farewell).phase ≠ .reading := by
        rw [phase_failed]
        split <;> nofun
      have hdata : event.isData = false := by
        cases event <;> first | rfl | cases hfailure
      rw [hdata]
      exact ⟨(received_failed farewell herrors).trans hresumed.received,
        (cursor_failed farewell).trans hresumed.cursor, fun h => absurd h hphase⟩
  | opened status body hphase hsuccess =>
      exact ⟨hresumed.received, hresumed.cursor, fun _ => hresumed.startOf⟩
  | rejected status body hphase hsuccess =>
      exact ⟨(received_rejected _).trans hresumed.received,
        (cursor_rejected _).trans hresumed.cursor, fun _ => hresumed.startOf⟩
  | frame ev hphase =>
      have hupcoming := hresumed.upcoming hphase
      by_cases herror : ev.event = "error"
      · obtain ⟨hcursor, hreceived⟩ : (session.sub.framed lib ev).cursor = session.sub.cursor ∧
            (session.sub.framed lib ev).received = session.sub.received := framed_error herror
        have hdata : (Event.frame ev).isData = false := by
          rw [Event.isData, decide_eq_false_iff_not, not_not]
          exact herror
        rw [hdata]
        exact ⟨hreceived.trans hresumed.received, hcursor.trans hresumed.cursor,
          fun _ => (if_pos herror).trans hupcoming⟩
      · have hparse := hserved.resolve_left herror
        have hdata : (Event.frame ev).isData = true := decide_eq_true herror
        rw [framed_ok herror hparse, hdata, if_pos rfl]
        refine ⟨?_, ?_, fun _ => ?_⟩
        · rw [received_tell, log.since_succ, ← hupcoming]
          exact congrArg (· ++ [log.event session.upcoming]) hresumed.received
        · rw [if_neg (Nat.succ_ne_zero count)]
          change some (log.event session.upcoming).seq = _
          rw [log.seq_event, hupcoming]
          push_cast
          rw [← add_assoc, add_sub_cancel_right]
        · change (if ev.event = "error" then session.upcoming else session.upcoming + 1) = _
          rw [if_neg herror, hupcoming]
          push_cast
          exact add_assoc _ _ _

theorem Session.Resumed.run (hresumed : session.Resumed first log count) {events : List Event}
    (hserved : StepsMeet (Session.step policy lib first) (Served lib log) session events)
    {final : Session} (hexec : execSteps (Session.step policy lib first) session events =
      some final) :
    final.Resumed first log (count + events.countP Event.isData) := by
  induction events generalizing session count with
  | nil =>
      cases hexec
      exact hresumed
  | cons event events ih =>
      obtain ⟨next, hnext, hrest⟩ := execSteps_cons.1 hexec
      have hmid := hresumed.step hserved.1 hnext
      have hfinal := ih hmid (hserved.2 next hnext) hrest
      rwa [List.countP_cons, Nat.add_comm (events.countP _), ← add_assoc]

end Resume

/-- However the connections are cut, the events that the subscription has
yielded are the book's from `first` on, one for each data frame that came in. -/
theorem received_of_served (log : EventLog) (events : List Event) (final : Session)
    (hserved : StepsMeet (Session.step policy lib first) (Served lib log) (Session.fresh first)
      events)
    (hexec : execSteps (Session.step policy lib first) (Session.fresh first) events =
      some final) :
    final.sub.received = log.since first (events.countP Event.isData) := by
  have hresumed := (Session.Resumed.fresh log).run hserved hexec
  rw [Nat.zero_add] at hresumed
  exact hresumed.received

/-- A book of transactions whose payloads are left empty. -/
def postings : EventLog :=
  ⟨fun seq => ⟨seq, 0, "transaction_posted", "\x7b\x7d"⟩, fun _ => rfl⟩

/-- The JSON text of an event of `postings`. -/
def postingText (seq : ℕ) : String :=
  "\x7b\"seq\":" ++ toString seq ++
    ",\"at\":\"1970-01-01T00:00:00Z\",\"kind\":\"transaction_posted\",\"payload\":\x7b\x7d\x7d"

/-- A library that reads the first events of `postings`. -/
def postingsLibrary : Library where
  display status := toString status.code
  parseError _ := none
  parseEnvelope data :=
    match (List.range 10).find? fun seq => postingText seq = data with
    | some seq => .ok (postings.event seq)
    | none => .error "expected value at line 1 column 1"

/-- A stream from 3 on that is dropped behind the first event, refused once,
and closed behind an error frame. -/
def cutStream : List Event :=
  [.responded .ok "", .frame ⟨"message", postingText 3⟩, .dropped "connection reset",
    .sendFailed "connection refused", .responded .ok "", .frame ⟨"message", postingText 4⟩,
    .frame ⟨"error", "\"internal\""⟩, .closed, .responded .ok "",
    .frame ⟨"message", postingText 5⟩]

theorem received_of_served_cutStream :
    ∃ final, execSteps (Session.step ⟨5⟩ postingsLibrary 3) (Session.fresh 3) cutStream =
        some final ∧
      final.sub.received = postings.since 3 3 := by
  have hserved : StepsMeet (Session.step ⟨5⟩ postingsLibrary 3) (Served postingsLibrary postings)
      (Session.fresh 3) cutStream := by
    decide +kernel
  obtain ⟨final, hexec⟩ := Option.isSome_iff_exists.1
    (by decide +kernel : (execSteps (Session.step ⟨5⟩ postingsLibrary 3) (Session.fresh 3)
      cutStream).isSome = true)
  exact ⟨final, hexec, received_of_served ⟨5⟩ postingsLibrary 3 postings cutStream final hserved
    hexec⟩

end Talea.Client
