import Talea.Postgres.Runs
import Talea.Sql.Stream

/-!
# Subscriptions

A stream listens on the channel of its book before it reads for the first time,
and every commit notifies the books that it appends to.  The connection of the
listener may be lost at any time; `recv` then connects and listens again without
returning, and what has been notified meanwhile it never hears of.
-/

namespace Talea.Postgres.Subscription

open Sql

/-! ## Channels -/

/-- The first characters whose bytes fit. -/
def boundedPrefix (limit : ℕ) : List Char → List Char
  | [] => []
  | char :: rest =>
      if char.utf8Size ≤ limit then char :: boundedPrefix (limit - char.utf8Size) rest else []

def fnv1a (bytes : List UInt8) : UInt64 :=
  bytes.foldl (fun hash byte => (hash ^^^ byte.toUInt64) * 0x100000001b3) 0xcbf29ce484222325

/-- The channel of a book; a long name is cut and hashed, so that two books may
share one. -/
def bookChannelName (book : String) : String :=
  let full := "talea_" ++ book
  if full.utf8ByteSize ≤ 63 then full
  else
    let digits := Nat.toDigits 16 (fnv1a full.toUTF8.toList).toNat
    String.ofList (boundedPrefix 46 full.toList ++ '_' :: List.replicate (16 - digits.length) '0' ++
      digits)

/-! ## Listening -/

/-- A stream with its listener: whether that is connected, and the notifications
that it has buffered. -/
structure Subscriber where
  start : Int
  stream : EventStream
  connected : Bool
  pending : ℕ

/-- The instances that commit, and one stream. -/
structure System where
  world : Instances
  subscriber : Option Subscriber

inductive Event
  | commits (event : Postgres.Event)
  /-- The listener is connected and listens. -/
  | subscribe (book : String) (start : Int)
  | subscribeFails (book : String) (start : Int) (error : StoreError)
  | fetch
  | fetchFails (error : StoreError)
  | handOut
  | receive
  | receiveFails (error : StoreError)
  /-- The connection is lost, with all but some of the buffered notifications. -/
  | disconnect (kept : ℕ)
  | reconnect

def opened : System :=
  ⟨fresh, none⟩

/-- The commits that a step of the instances has added. -/
def added (world next : Instances) : List Commit :=
  next.shared.commits.drop world.shared.commits.length

/-- The notifications of some commits reach a listener that is connected. -/
def Subscriber.hear (sub : Subscriber) (commits : List Commit) : Subscriber :=
  if sub.connected then
    { sub with
      pending := sub.pending + (commits.flatMap Commit.books).countP fun book =>
        bookChannelName book = bookChannelName sub.stream.book }
  else sub

def Subscriber.isWaiting (sub : Subscriber) : Bool :=
  match sub.stream.phase with
  | .waiting => true
  | _ => false

namespace System

/-- What the stream or its listener does on an event. -/
def turn (system : System) (sub : Subscriber) (event : Event) : Option Subscriber :=
  match event, sub.stream.phase with
  | .fetch, .fetching =>
      some { sub with stream := sub.stream.fetched system.world.shared.db }
  | .fetchFails error, .fetching => some { sub with stream := sub.stream.failed error }
  | .handOut, .yielding (ev :: batch) => some { sub with stream := sub.stream.handOut ev batch }
  | .receive, .waiting =>
      if sub.pending = 0 then none
      else
        some
          { sub with
            pending := sub.pending - 1
            stream := { sub.stream with phase := .fetching } }
  | .receiveFails error, .waiting => some { sub with stream := sub.stream.failed error }
  | .disconnect kept, _ => some { sub with connected := false, pending := min kept sub.pending }
  | .reconnect, .waiting => if sub.connected then none else some { sub with connected := true }
  | _, _ => none

def step (system : System) (event : Event) : Option System :=
  match event with
  | .commits event =>
      (Postgres.step system.world event).map fun world =>
        ⟨world, system.subscriber.map fun sub => sub.hear (added system.world world)⟩
  | .subscribe book start =>
      if system.subscriber.isSome then none
      else some { system with subscriber := some ⟨start, .start book start, true, 0⟩ }
  | .subscribeFails book start error =>
      if system.subscriber.isSome then none
      else
        some
          { system with
            subscriber := some ⟨start, (EventStream.start book start).failed error, false, 0⟩ }
  | event =>
      (system.subscriber.bind fun sub => system.turn sub event).map fun sub =>
        { system with subscriber := some sub }

/-- The stream waits on a live connection, and no notification is buffered. -/
def Parked (sub : Subscriber) : Prop :=
  sub.stream.phase = .waiting ∧ sub.connected = true ∧ sub.pending = 0

/-- The events that the stream owes in the end. -/
def owed (system : System) (sub : Subscriber) : List EventRow :=
  eventsFrom system.world.shared.db.events sub.stream.book sub.start

/-- The stream has yielded the book's events from its start in their order, and
all that have been committed whenever it is parked. -/
structure Complete (system : System) (sub : Subscriber) : Prop where
  ascends : Ascends EventRow.seq (system.owed sub)
  received : sub.stream.received <+: system.owed sub
  parked : Parked sub → sub.stream.received = system.owed sub

def Completes (system : System) : Prop :=
  ∀ sub ∈ system.subscriber, system.Complete sub

/-- No commit is missed: `recv` connects again only while a notification is
buffered, or nothing has been committed that the stream has not yielded. -/
def NoMiss (system : System) : Event → Prop
  | .reconnect => ∀ sub ∈ system.subscriber, sub.pending = 0 →
      eventsFrom system.world.shared.db.events sub.stream.book sub.stream.next = []
  | _ => True

instance (system : System) : ∀ event, Decidable (system.NoMiss event)
  | .reconnect => inferInstanceAs (Decidable (∀ sub ∈ system.subscriber, sub.pending = 0 →
      eventsFrom system.world.shared.db.events sub.stream.book sub.stream.next = []))
  | .commits _ | .subscribe _ _ | .subscribeFails _ _ _ | .fetch | .fetchFails _ | .handOut
  | .receive | .receiveFails _ | .disconnect _ => isTrue trivial

/-- A parked stream has read all there is. -/
structure Hears (shared : Shared) (sub : Subscriber) : Prop where
  exact : sub.stream.Exact shared.db.events sub.start
  told : Parked sub → eventsFrom shared.db.events sub.stream.book sub.stream.next = []

structure Sound (system : System) : Prop where
  world : Postgres.Sound False False system.world
  subscriber : ∀ sub ∈ system.subscriber, Hears system.world.shared sub

variable {system next : System} {sub later : Subscriber} {event : Event}

theorem commits_isPrefix {world next : Instances} {event : Postgres.Event}
    (hstep : Postgres.step world event = some next) :
    world.shared.commits <+: next.shared.commits := by
  rcases World.step_cases hstep with ⟨call, -, rfl⟩ | ⟨elapsed, -, rfl⟩ |
    ⟨index, call, own, request, rest, -, -, -, rfl⟩
  · exact List.prefix_rfl
  · exact List.prefix_rfl
  · change world.shared.commits <+: (exec world.shared own request).2.1.commits
    rcases exec_shared world.shared own request with hsame | hcommits
    · rw [hsame]
    · rw [hcommits]
      exact List.prefix_append _ _

/-- A step of the instances appends the events of the commits that it adds. -/
theorem events_added {world next : Instances} (hworld : Published world.shared)
    (hnext : Published next.shared) (hgrown : world.shared.commits <+: next.shared.commits) :
    next.shared.db.events = world.shared.db.events ++ (added world next).flatMap Commit.rows := by
  obtain ⟨commits, hcommits⟩ := hgrown
  have hadded : added world next = commits := by
    rw [added, ← hcommits, List.drop_left]
  rw [hnext.commits, ← hcommits, List.flatMap_append, ← hworld.commits, hadded]

theorem Hears.commits {world next : Instances} (hhears : Hears world.shared sub)
    (hworld : Postgres.Sound False False world) (hnext : Postgres.Sound False False next)
    (hgrown : world.shared.commits <+: next.shared.commits) :
    Hears next.shared (sub.hear (added world next)) := by
  have hevents := events_added hworld.published hnext.published hgrown
  have hascend := hnext.inv.ledger.sequenced.ascend
  rw [hevents] at hascend
  have hexact := (hhears.exact.appended hascend).1
  rw [← hevents] at hexact
  unfold Subscriber.hear
  split
  · refine ⟨hexact, fun hparked => ?_⟩
    obtain ⟨hphase, hconnected, hpending⟩ := hparked
    obtain ⟨hbefore, hsilent⟩ := Nat.add_eq_zero_iff.1 hpending
    -- none of the new commits has notified the book, so none has appended to it
    change eventsFrom next.shared.db.events sub.stream.book sub.stream.next = []
    rw [hevents, eventsFrom, List.filter_append]
    refine List.append_eq_nil_iff.2 ⟨hhears.told ⟨hphase, hconnected, hbefore⟩, ?_⟩
    refine List.filter_eq_nil_iff.2 fun row hrow howed => ?_
    obtain ⟨commit, hcommit, hrow⟩ := List.mem_flatMap.1 hrow
    have hnotified := hnext.published.notified commit (List.mem_of_mem_drop hcommit) row hrow
    rw [(of_decide_eq_true howed).1] at hnotified
    have hheard := List.countP_eq_zero.1 hsilent sub.stream.book
      (List.mem_flatMap.2 ⟨commit, hcommit, hnotified⟩)
    exact hheard (decide_eq_true rfl)
  · next hlost => exact ⟨hexact, fun hparked => absurd hparked.2.1 hlost⟩

theorem Hears.turn (hhears : Hears system.world.shared sub) (hsound : system.Sound)
    (hsub : system.subscriber = some sub) (hmiss : system.NoMiss event)
    (hturn : system.turn sub event = some later) : Hears system.world.shared later := by
  have hascend := hsound.world.inv.ledger.sequenced.ascend
  unfold System.turn at hturn
  split at hturn
  · cases hturn
    refine ⟨hhears.exact.fetched hascend, fun hparked => ?_⟩
    obtain ⟨hcursor, hempty⟩ := EventStream.fetched_waiting hascend hparked.1
    change eventsFrom _ (sub.stream.fetched _).book (sub.stream.fetched _).next = []
    rw [hcursor, EventStream.fetched_book]
    exact hempty
  · cases hturn
    exact ⟨hhears.exact.failed _, fun hparked => by cases hparked.1⟩
  · next hphase =>
      cases hturn
      exact ⟨hhears.exact.handOut hascend hphase,
        fun hparked => absurd hparked.1 (EventStream.phase_handOut _ _ _)⟩
  · split at hturn
    · cases hturn
    · cases hturn
      exact ⟨hhears.exact.woken, fun hparked => by cases hparked.1⟩
  · cases hturn
    exact ⟨hhears.exact.failed _, fun hparked => by cases hparked.1⟩
  · cases hturn
    exact ⟨hhears.exact, fun hparked => by cases hparked.2.1⟩
  · split at hturn
    · cases hturn
    · cases hturn
      exact ⟨hhears.exact, fun hparked => hmiss sub hsub hparked.2.2⟩
  · cases hturn

theorem Sound.step (hsound : system.Sound) (hmiss : system.NoMiss event)
    (hstep : system.step event = some next) : next.Sound := by
  unfold System.step at hstep
  split at hstep
  · next inner =>
      obtain ⟨world, hworld, rfl⟩ := Option.map_eq_some_iff.1 hstep
      have hnext := hsound.world.step False.elim False.elim hworld
      refine ⟨hnext, fun later hlater => ?_⟩
      obtain ⟨sub, hsub, rfl⟩ := Option.map_eq_some_iff.1 hlater
      exact (hsound.subscriber sub hsub).commits hsound.world hnext (commits_isPrefix hworld)
  · split at hstep
    · cases hstep
    · cases hstep
      refine ⟨hsound.world, fun sub hsub => ?_⟩
      cases hsub
      exact ⟨.subscribed _, fun hparked => by cases hparked.1⟩
  · split at hstep
    · cases hstep
    · cases hstep
      refine ⟨hsound.world, fun sub hsub => ?_⟩
      cases hsub
      exact ⟨(EventStream.Exact.subscribed _).failed _, fun hparked => by cases hparked.1⟩
  · obtain ⟨later, hturn, rfl⟩ := Option.map_eq_some_iff.1 hstep
    obtain ⟨sub, hsub, hturn⟩ := Option.bind_eq_some_iff.1 hturn
    refine ⟨hsound.world, fun other hother => ?_⟩
    cases hother
    exact (hsound.subscriber sub hsub).turn hsound hsub hmiss hturn

theorem Sound.completes (hsound : system.Sound) : system.Completes := by
  intro sub hsub
  have hhears := hsound.subscriber sub hsub
  have hascend : Ascending system.world.shared.db.events :=
    hsound.world.inv.ledger.sequenced.ascend
  refine ⟨hascend.eventsFrom _ _, hhears.exact.received_isPrefix hascend, fun hparked => ?_⟩
  rw [hhears.exact.received]
  refine List.filter_eq_self.2 fun row howed => decide_eq_true ?_
  by_contra hbehind
  obtain ⟨hrow, hbook, -⟩ := mem_eventsFrom.1 howed
  have hmem := mem_eventsFrom.2 ⟨hrow, hbook, not_lt.1 hbehind⟩
  rw [hhears.told hparked] at hmem
  cases hmem

theorem Sound.opened : opened.Sound :=
  ⟨sound_fresh, fun _ hsub => by cases hsub⟩

end System

/-- In every run of committers and a stream in which no commit is missed while
the listener connects again, the stream is complete in every state. -/
theorem stream_complete (events : List Event)
    (hmiss : StepsMeet System.step System.NoMiss opened events) :
    StatesMeet System.step System.Completes opened events :=
  statesMeet_of_invariant (fun _ _ _ hsound hcond hstep => System.Sound.step hsound hcond hstep)
    (fun _ hsound => hsound.completes) System.Sound.opened hmiss

/-! ## A lost connection -/

/-- A stream of the registrations has read all, and waits. -/
def waits : List Event :=
  [.subscribe "_system" 1, .fetch]

/-- The first asset is registered. -/
def registers : List Event :=
  (.start (.registerAsset usd) :: statements 0 8).map .commits

/-- The event is yielded before the connection is lost. -/
def keepsUp : List Event :=
  waits ++ registers ++ [.receive, .fetch, .handOut, .fetch, .disconnect 0, .reconnect]

theorem stream_complete_keepsUp : StatesMeet System.step System.Completes opened keepsUp :=
  stream_complete keepsUp (by decide +kernel)

/-- The asset is registered while the listener is not connected. -/
def misses : List Event :=
  waits ++ [.disconnect 0] ++ registers ++ [.reconnect]

/-- The stream waits on a live connection with nothing buffered, and has not
yielded the event of the asset. -/
theorem parked_misses : ∃ system ∈ execSteps System.step opened misses,
    ∃ sub ∈ system.subscriber, (sub.isWaiting ∧ sub.connected = true ∧ sub.pending = 0) ∧
      (sub.stream.received.length, (system.owed sub).length) = (0, 1) := by
  decide +kernel

/-- What is committed while the listener is not connected, a parked stream may
have missed. -/
theorem stream_misses_commit :
    ¬ ∀ events, StatesMeet System.step System.Completes opened events := by
  intro hall
  obtain ⟨system, hexec, sub, hsub, ⟨hwaiting, hlive⟩, hcounts⟩ := parked_misses
  have hphase : sub.stream.phase = .waiting := by
    unfold Subscriber.isWaiting at hwaiting
    split at hwaiting
    · assumption
    · cases hwaiting
  have hsame := ((hall misses).last hexec sub hsub).parked ⟨hphase, hlive⟩
  rw [hsame] at hcounts
  have hlength := Prod.mk.inj hcounts
  omega

end Talea.Postgres.Subscription
