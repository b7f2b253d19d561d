import Talea.Sqlite.Store
import Talea.Sql.Stream

/-!
# Subscriptions

A stream joins the wake-up channel before it reads for the first time, and
every write publishes behind its commit.  So whatever a batch has missed is
still to be published, or lies in the channel at the stream's position or
behind it; a lag only sends the stream back to the table.
-/

namespace Talea.Sqlite

open Sql

def channelCapacity : ℕ := 1024

/-- An operation behind its commit: the events that it has appended, and the
books that it has still to publish. -/
structure Publication where
  rows : List EventRow
  unpublished : List String

/-- A stream with the number of wake-ups that it has received or missed. -/
structure Subscriber where
  start : Int
  stream : EventStream
  position : ℕ

/-- A process with the wake-ups that it has sent since it was started. -/
structure System where
  db : Database
  publications : List Publication
  published : List String
  subscriber : Option Subscriber
  closed : Bool

/-- A process that has just opened a database. -/
def opened (db : Database) : System :=
  ⟨db, [⟨db.events, []⟩], [], none, false⟩

inductive Event
  /-- The transaction of an operation ends. -/
  | write (op : Op)
  /-- An operation sends its next wake-up. -/
  | publish (writer : ℕ)
  | subscribe (book : String) (start : Int)
  | fetch
  | fetchFails (error : StoreError)
  | handOut
  | receive
  /-- The last handle of the store goes. -/
  | drop

namespace System

/-- The result of one `recv`; `none` where it goes on waiting. -/
def recv (system : System) (sub : Subscriber) : Option Subscriber :=
  if sub.position + channelCapacity < system.published.length then
    some
      { sub with
        position := system.published.length - channelCapacity
        stream := { sub.stream with phase := .fetching } }
  else
    match system.published[sub.position]? with
    | some book =>
        some
          { sub with
            position := sub.position + 1
            stream :=
              if book = sub.stream.book then { sub.stream with phase := .fetching }
              else sub.stream }
    | none =>
        if system.closed then some { sub with stream := { sub.stream with phase := .ended } }
        else none

/-- What the subscriber does next on an event of its own. -/
def turn (system : System) (sub : Subscriber) (event : Event) : Option Subscriber :=
  match event, sub.stream.phase with
  | .fetch, .fetching => some { sub with stream := sub.stream.fetched system.db }
  | .fetchFails error, .fetching => some { sub with stream := sub.stream.failed error }
  | .handOut, .yielding (ev :: batch) => some { sub with stream := sub.stream.handOut ev batch }
  | .receive, .waiting => system.recv sub
  | _, _ => none

/-- Callers are not cancelled: what has committed goes on to publish, and holds
the store as long. -/
def step (system : System) (event : Event) : Option System :=
  match event with
  | .write op =>
      if system.closed then none
      else
        (Sqlite.step system.db op).map fun db =>
          { system with
            db
            publications := system.publications ++
              [⟨db.events.drop system.db.events.length, wakeUps system.db op⟩] }
  | .publish writer =>
      match system.publications[writer]? with
      | some ⟨rows, book :: unpublished⟩ =>
          some
            { system with
              publications := system.publications.set writer ⟨rows, unpublished⟩
              published := system.published ++ [book] }
      | _ => none
  | .subscribe book start =>
      if system.closed ∨ system.subscriber.isSome then none
      else
        some
          { system with
            subscriber := some ⟨start, .start book start, system.published.length⟩ }
  | .drop =>
      if system.publications.all fun publication => publication.unpublished.isEmpty then
        some { system with closed := true }
      else none
  | event =>
      (system.subscriber.bind fun sub => system.turn sub event).map fun sub =>
        { system with subscriber := some sub }

/-- The stream waits with no lag, and with no wake-up for its book. -/
def Parked (system : System) (sub : Subscriber) : Prop :=
  sub.stream.phase = .waiting ∧ system.published.length ≤ sub.position + channelCapacity ∧
    sub.stream.book ∉ system.published.drop sub.position

/-- The events that the stream owes in the end. -/
def owed (system : System) (sub : Subscriber) : List EventRow :=
  eventsFrom system.db.events sub.stream.book sub.start

/-- The stream has yielded the book's events from its start in their order,
and all that have been published whenever it is parked; else it can go on. -/
structure Served (system : System) (sub : Subscriber) : Prop where
  ascends : Ascends EventRow.seq (system.owed sub)
  received : sub.stream.received <+: system.owed sub
  parked : system.Parked sub → ∀ publication ∈ system.publications,
    sub.stream.book ∉ publication.unpublished → ∀ row ∈ publication.rows,
      row ∈ system.owed sub → row ∈ sub.stream.received
  caughtUp : system.Parked sub → (∀ publication ∈ system.publications,
    sub.stream.book ∉ publication.unpublished) → sub.stream.received = system.owed sub
  awake : sub.stream.phase ≠ .ended → ¬ system.Parked sub →
    ∃ event ∈ [Event.fetch, .handOut, .receive], (system.step event).isSome = true

/-- Whatever a waiting stream has not read has still to be published, or to be
received. -/
structure SubscriberSound (system : System) (sub : Subscriber) : Prop where
  exact : sub.stream.Exact system.db.events sub.start
  position : sub.position ≤ system.published.length
  told : sub.stream.phase = .waiting → ∀ publication ∈ system.publications,
    ∀ row ∈ publication.rows, row.book = sub.stream.book → sub.stream.next ≤ row.seq →
      sub.stream.book ∈ publication.unpublished ∨
        sub.stream.book ∈ system.published.drop sub.position

structure Sound (system : System) : Prop where
  numbered : Numbered system.db
  rows : system.db.events = system.publications.flatMap Publication.rows
  subscriber : ∀ sub ∈ system.subscriber, system.SubscriberSound sub

variable {system next : System} {sub sub' : Subscriber} {event : Event}

theorem Sound.opened {db : Database} (hnumbered : Numbered db) : (Sqlite.opened db).Sound where
  numbered := hnumbered
  rows := by simp [Sqlite.opened]
  subscriber := nofun

theorem SubscriberSound.recv (hsound : system.SubscriberSound sub)
    (hphase : sub.stream.phase = .waiting) (hrecv : system.recv sub = some sub') :
    system.SubscriberSound sub' := by
  unfold System.recv at hrecv
  split at hrecv
  · cases hrecv
    exact ⟨hsound.exact.woken, Nat.sub_le _ _, nofun⟩
  · cases hmessage : system.published[sub.position]? with
    | some book =>
        rw [hmessage] at hrecv
        cases hrecv
        obtain ⟨hlt, hbook⟩ := List.getElem?_eq_some_iff.1 hmessage
        by_cases hown : book = sub.stream.book
        · simp only [if_pos hown]
          exact ⟨hsound.exact.woken, hlt, nofun⟩
        · simp only [if_neg hown]
          -- the wake-up that the stream passes over is another book's
          refine ⟨hsound.exact, hlt, fun _ publication hpublication row hrow hbookOf hnext => ?_⟩
          refine (hsound.told hphase publication hpublication row hrow hbookOf hnext).imp_right
            fun hmem => ?_
          rw [List.drop_eq_getElem_cons hlt, hbook] at hmem
          exact (List.mem_cons.1 hmem).resolve_left (Ne.symm hown)
    | none =>
        rw [hmessage] at hrecv
        dsimp only at hrecv
        split at hrecv
        · cases hrecv
          exact ⟨hsound.exact.ended, hsound.position, nofun⟩
        · cases hrecv

theorem SubscriberSound.turn (hsound : system.Sound) (hsub : system.SubscriberSound sub)
    (hturn : system.turn sub event = some sub') : system.SubscriberSound sub' := by
  unfold System.turn at hturn
  split at hturn
  · cases hturn
    refine ⟨hsub.exact.fetched hsound.numbered.ascend, hsub.position, fun hwaiting => ?_⟩
    intro publication hpublication row hrow hbook hnext
    -- the stream has just seen that there is no such row
    obtain ⟨hcursor, hempty⟩ := EventStream.fetched_waiting hsound.numbered.ascend hwaiting
    have hmem : row ∈ eventsFrom system.db.events sub.stream.book sub.stream.next := by
      rw [mem_eventsFrom, hsound.rows]
      exact ⟨List.mem_flatMap.2 ⟨publication, hpublication, hrow⟩,
        hbook.trans EventStream.fetched_book, hcursor.ge.trans hnext⟩
    rw [hempty] at hmem
    cases hmem
  · cases hturn
    exact ⟨hsub.exact.failed _, hsub.position, nofun⟩
  · next hphase =>
      cases hturn
      exact ⟨hsub.exact.handOut hsound.numbered.ascend hphase, hsub.position,
        fun hwaiting => absurd hwaiting (EventStream.phase_handOut _ _ _)⟩
  · next hphase => exact hsub.recv hphase hturn
  · cases hturn

theorem Sound.write (hsound : system.Sound) {op : Op} {db : Database}
    (hwrite : Sqlite.step system.db op = some db) :
    Sound
      { system with
        db
        publications := system.publications ++
          [⟨db.events.drop system.db.events.length, wakeUps system.db op⟩] } := by
  obtain ⟨rows, hevents, hbooks⟩ := events_step hwrite
  have hnumbered := hsound.numbered.step hwrite
  have hdrop : db.events.drop system.db.events.length = rows := by
    rw [hevents, List.drop_left]
  refine ⟨hnumbered, ?_, fun sub hsub => ?_⟩
  · change db.events = _
    rw [List.flatMap_append, ← hsound.rows, hevents, List.drop_left, List.flatMap_singleton]
  · have hold := hsound.subscriber sub hsub
    have hascend := hnumbered.ascend
    rw [hevents] at hascend
    obtain ⟨hexact, -⟩ := hold.exact.appended hascend
    refine ⟨hevents ▸ hexact, hold.position, fun hwaiting publication hpublication row hrow hbook
      hnext => ?_⟩
    rcases List.mem_append.1 hpublication with hbefore | hnew
    · exact hold.told hwaiting publication hbefore row hrow hbook hnext
    · cases List.mem_singleton.1 hnew
      rw [hdrop] at hrow
      exact Or.inl (hbook ▸ hbooks row hrow)

theorem Sound.publish (hsound : system.Sound) {writer : ℕ} {rows : List EventRow} {book : String}
    {unpublished : List String}
    (hwriter : system.publications[writer]? = some ⟨rows, book :: unpublished⟩) :
    Sound
      { system with
        publications := system.publications.set writer ⟨rows, unpublished⟩
        published := system.published ++ [book] } := by
  obtain ⟨hlt, hold⟩ := List.getElem?_eq_some_iff.1 hwriter
  refine ⟨hsound.numbered, ?_, fun sub hsub => ?_⟩
  · have hcount : writer < (system.publications.map Publication.rows).length := by
      simpa using hlt
    have hrows : rows = (system.publications.map Publication.rows)[writer] := by
      rw [List.getElem_map, hold]
    change system.db.events = (system.publications.set writer ⟨rows, unpublished⟩).flatMap _
    rw [hsound.rows, List.flatMap_def, List.flatMap_def, List.map_set, hrows,
      List.set_getElem_self]
  · have hsubscriber := hsound.subscriber sub hsub
    refine ⟨hsubscriber.exact, hsubscriber.position.trans ?_, fun hwaiting publication
      hpublication row hrow hbook hnext => ?_⟩
    · simp
    · have hdrop : (system.published ++ [book]).drop sub.position =
          system.published.drop sub.position ++ [book] :=
        List.drop_append_of_le_length hsubscriber.position
      change _ ∨ sub.stream.book ∈ (system.published ++ [book]).drop sub.position
      rw [hdrop, List.mem_append, List.mem_singleton]
      have hpast : ∀ publication ∈ system.publications, row ∈ publication.rows →
          sub.stream.book ∈ publication.unpublished ∨
            sub.stream.book ∈ system.published.drop sub.position :=
        fun publication hpublication hrow =>
          hsubscriber.told hwaiting publication hpublication row hrow hbook hnext
      rcases List.mem_or_eq_of_mem_set hpublication with hkept | rfl
      · exact (hpast publication hkept hrow).imp_right Or.inl
      · -- the book is the one that has just been published, or another
        rcases hpast ⟨rows, book :: unpublished⟩ (List.mem_of_getElem? hwriter) hrow with
          hbefore | hsent
        · rcases List.mem_cons.1 hbefore with hown | hlater
          · exact Or.inr (Or.inr hown)
          · exact Or.inl hlater
        · exact Or.inr (Or.inl hsent)

theorem Sound.step (hsound : system.Sound) (hstep : system.step event = some next) :
    next.Sound := by
  unfold System.step at hstep
  split at hstep
  · split at hstep
    · cases hstep
    · obtain ⟨db, hwrite, rfl⟩ := Option.map_eq_some_iff.1 hstep
      exact hsound.write hwrite
  · split at hstep
    · next hwriter =>
        cases hstep
        exact hsound.publish hwriter
    · cases hstep
  · split at hstep
    · cases hstep
    · cases hstep
      refine ⟨hsound.numbered, hsound.rows, fun sub hsub => ?_⟩
      cases hsub
      exact ⟨.subscribed _, le_rfl, nofun⟩
  · split at hstep
    · cases hstep
      exact ⟨hsound.numbered, hsound.rows, fun sub hsub =>
        ⟨(hsound.subscriber sub hsub).exact, (hsound.subscriber sub hsub).position,
          (hsound.subscriber sub hsub).told⟩⟩
    · cases hstep
  · obtain ⟨sub', hturn, rfl⟩ := Option.map_eq_some_iff.1 hstep
    obtain ⟨sub, hsub, hturn⟩ := Option.bind_eq_some_iff.1 hturn
    refine ⟨hsound.numbered, hsound.rows, fun other hother => ?_⟩
    cases hother
    have hnext := (hsound.subscriber sub hsub).turn hsound hturn
    exact ⟨hnext.exact, hnext.position, hnext.told⟩

/-- A waiting stream that is not parked has a wake-up or a lag to receive. -/
theorem isSome_recv_of_not_parked (hphase : sub.stream.phase = .waiting)
    (hawake : ¬ system.Parked sub) : (system.recv sub).isSome = true := by
  unfold System.recv
  split
  · rfl
  · next hlag =>
      cases hmessage : system.published[sub.position]? with
      | some book => rfl
      | none =>
          rw [List.getElem?_eq_none_iff] at hmessage
          refine absurd ⟨hphase, not_lt.1 hlag, ?_⟩ hawake
          rw [List.drop_eq_nil_of_le hmessage]
          exact List.not_mem_nil

theorem Sound.served (hsound : system.Sound) (hsub : system.subscriber = some sub) :
    system.Served sub := by
  have hexact := (hsound.subscriber sub hsub).exact
  have hascending : Ascending system.db.events := hsound.numbered.ascend
  -- behind the cursor of a parked stream is nothing that has been published
  have htold : system.Parked sub → ∀ publication ∈ system.publications,
      sub.stream.book ∉ publication.unpublished → ∀ row ∈ publication.rows,
        row ∈ system.owed sub → row.seq < sub.stream.next := by
    intro hparked publication hpublication hpublished row hrow howed
    by_contra hbehind
    exact ((hsound.subscriber sub hsub).told hparked.1 publication hpublication row hrow
      (mem_eventsFrom.1 howed).2.1 (not_lt.1 hbehind)).elim hpublished hparked.2.2
  refine ⟨hascending.eventsFrom _ _, hexact.received_isPrefix hascending,
    fun hparked publication hpublication hpublished row hrow howed =>
      hexact.mem_received howed (htold hparked publication hpublication hpublished row hrow howed),
    fun hparked hpublished => ?_, fun hended hawake => ?_⟩
  · rw [hexact.received]
    refine List.filter_eq_self.2 fun row howed => decide_eq_true ?_
    have hrow := (mem_eventsFrom.1 howed).1
    rw [hsound.rows, List.mem_flatMap] at hrow
    obtain ⟨publication, hpublication, hrow⟩ := hrow
    exact htold hparked publication hpublication (hpublished publication hpublication) row hrow
      howed
  · cases hphase : sub.stream.phase with
    | fetching =>
        refine ⟨.fetch, by simp, ?_⟩
        simp [System.step, System.turn, hsub, hphase]
    | yielding batch =>
        cases batch with
        | nil => exact absurd rfl (hexact.batch _ hphase).1
        | cons ev batch =>
            refine ⟨.handOut, by simp, ?_⟩
            simp [System.step, System.turn, hsub, hphase]
    | waiting =>
        have hrecv := isSome_recv_of_not_parked hphase hawake
        refine ⟨.receive, by simp, ?_⟩
        simp only [System.step, System.turn, hsub, hphase, Option.bind_some, Option.isSome_map]
        exact hrecv
    | ended => exact absurd hphase hended

end System

/-- However writers and the subscriber interleave in a process, the stream is
served: it yields each of the book's events from its start on once and in
order, and parks only when it has yielded all that have been published. -/
theorem subscriber_served (earlier : List Op) (db : Database) (events : List Event)
    (system : System) (hearlier : execSteps step .empty earlier = some db)
    (hexec : execSteps System.step (opened db) events = some system) :
    ∀ sub ∈ system.subscriber, system.Served sub := by
  have hnumbered : Numbered db :=
    invariant_exec (fun _ _ _ hnumbered hstep => hnumbered.step hstep) Numbered.empty hearlier
  have hsound : system.Sound :=
    invariant_exec (fun _ _ _ hsound hstep => hsound.step hstep) (System.Sound.opened hnumbered)
      hexec
  exact fun sub hsub => hsound.served hsub

theorem inRange_700 : I64.InRange 700 := by
  decide

/-- A commit lands behind the empty batch, and the wake-up of another book comes
before its own. -/
def lateCommit : List Event :=
  [.subscribe "shop" 2, .fetch, .handOut, .fetch,
    .write (.registerAsset ⟨⟨"EUR"⟩, .fiat, 2, "Euro"⟩ 3),
    .write (.commit (transfer 1 "k1" 700 inRange_700) 4), .publish 1, .receive, .publish 2,
    .receive, .fetch, .handOut, .fetch]

theorem subscriber_served_lateCommit :
    ∃ db system, execSteps step .empty [.registerAsset ⟨usd, .fiat, 2, "US dollar"⟩ 0,
        .openAccount ⟨cash, usd, .asset⟩ ⟨some .debit, none⟩ 1,
        .openAccount ⟨sales, usd, .income⟩ ⟨some .credit, none⟩ 2] = some db ∧
      execSteps System.step (opened db) lateCommit = some system ∧
      ∃ sub ∈ system.subscriber, sub.stream.received.map EventRow.seq = [2, 3] ∧
        system.Served sub := by
  have hrun : ∃ db ∈ execSteps step .empty [.registerAsset ⟨usd, .fiat, 2, "US dollar"⟩ 0,
        .openAccount ⟨cash, usd, .asset⟩ ⟨some .debit, none⟩ 1,
        .openAccount ⟨sales, usd, .income⟩ ⟨some .credit, none⟩ 2],
      ∃ system ∈ execSteps System.step (opened db) lateCommit,
        ∃ sub ∈ system.subscriber, sub.stream.received.map EventRow.seq = [2, 3] := by
    decide +kernel
  obtain ⟨db, hdb, system, hsystem, sub, hsub, hreceived⟩ := hrun
  exact ⟨db, system, hdb, hsystem, sub, hsub, hreceived,
    subscriber_served _ db lateCommit system hdb hsystem sub hsub⟩

end Talea.Sqlite
