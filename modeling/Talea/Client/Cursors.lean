import Talea.Client.Resume
import Talea.Lib.Decimal
import Talea.Log.Subscribe
import Talea.Sqlite.Subscribe

/-!
# The arithmetic of stream cursors

A cursor is an integer that a caller picks.  On its way to the store the client
takes one off and the server adds one, and the store goes on computing with it.
Nothing on the way checks it, so at the ends of the 64-bit range a computation
can leave the range: it panics where overflow is checked, and wraps around
elsewhere, which starts the stream anew.
-/

namespace Talea

/-- The first event that was handed out is the next one behind the last one
seen, and where there is none, nothing was handed out. -/
structure FirstBehind {α : Type} (seq : α → Int) (lastSeen : Int) (events yielded : List α) :
    Prop where
  first : ∀ ev ∈ yielded.head?, ev ∈ events ∧ lastSeen < seq ev ∧
    ∀ other ∈ events, lastSeen < seq other → seq ev ≤ seq other
  none : (∀ ev ∈ events, seq ev ≤ lastSeen) → yielded = []

theorem FirstBehind.of_isPrefix {α : Type} {seq : α → Int} {lastSeen : Int}
    {events yielded : List α} (hascends : Ascends seq events)
    (hyielded : yielded <+: events.filter fun ev => lastSeen + 1 ≤ seq ev) :
    FirstBehind seq lastSeen events yielded := by
  have hmem : ∀ ev ∈ yielded, ev ∈ events ∧ lastSeen < seq ev := fun ev hev => by
    have hwanted := List.mem_filter.1 (hyielded.subset hev)
    exact ⟨hwanted.1, of_decide_eq_true hwanted.2⟩
  constructor
  · intro ev hev
    cases yielded with
    | nil => cases hev
    | cons head rest =>
        obtain rfl : head = ev := Option.some.inj hev
        obtain ⟨hin, hlt⟩ := hmem head List.mem_cons_self
        refine ⟨hin, hlt, fun other hother hbehind => ?_⟩
        obtain ⟨later, hlater⟩ := hyielded
        have hwanted : other ∈ head :: (rest ++ later) := by
          rw [← List.cons_append, hlater, List.mem_filter]
          exact ⟨hother, decide_eq_true hbehind⟩
        have hsorted := hascends.filter fun ev => lastSeen + 1 ≤ seq ev
        rw [← hlater] at hsorted
        rcases List.mem_cons.1 hwanted with rfl | hrest
        · exact le_rfl
        · exact ((List.pairwise_cons.1 hsorted).1 other hrest).le
  · intro hnone
    refine List.eq_nil_iff_forall_not_mem.2 fun ev hev => ?_
    obtain ⟨hin, hlt⟩ := hmem ev hev
    exact absurd (hnone ev hin) (not_le.2 hlt)

namespace Server

/-- The seq of the last event seen: the header, where it holds a number, else
the query. -/
def lastSeen (header : Option String) (fromQuery : Option Int) : Option Int :=
  (header.bind fun text => (Decimal.parseI64 text.toList).toOption).or fromQuery

/-- The seq that `events` subscribes from; `none` where the addition
overflows. -/
def eventsFrom (header : Option String) (fromQuery : Option Int) : Option Int :=
  match lastSeen header fromQuery with
  | none => some 1
  | some seq => I64.checkedAdd seq 1

theorem eventsFrom_eq_startOf (header : Option String) (fromQuery : Option Int) :
    eventsFrom header fromQuery = I64.checked (startOf (lastSeen header fromQuery) none) := by
  unfold eventsFrom startOf
  cases lastSeen header fromQuery with
  | none => rfl
  | some seq => rfl

theorem lastSeen_inRange (header : Option String) {fromQuery : Option Int}
    (hquery : ∀ value ∈ fromQuery, I64.InRange value) :
    ∀ value ∈ lastSeen header fromQuery, I64.InRange value := by
  intro value hvalue
  rcases Option.or_eq_some_iff.1 hvalue with hheader | ⟨-, hfrom⟩
  · obtain ⟨text, -, hparse⟩ := Option.bind_eq_some_iff.1 hheader
    cases htext : Decimal.parseI64 text.toList with
    | error kind =>
        rw [htext] at hparse
        cases hparse
    | ok parsed =>
        rw [htext] at hparse
        cases hparse
        exact (Decimal.parseI64_eq_ok.1 htext).2
  · exact hquery value hfrom

end Server

namespace Client

/-- The integers that a stream can be made to start from: those of a request,
the one the client is called with, and the one a store is called with. -/
inductive Cursor
  | request (header : Option String) (fromQuery : Option Int)
  | client (first : Int)
  | store (first : Int)

/-- The query of the client's first request; `none` where the subtraction
overflows. -/
def firstQuery (first : Int) : Option String :=
  (I64.checkedSub first 1).map toString

namespace Cursor

/-- What its callers can hand over: a query, a caller's integer is an `i64`. -/
def Accepted : Cursor → Prop
  | request _ fromQuery => ∀ value ∈ fromQuery, I64.InRange value
  | client first | store first => I64.InRange first

/-- The seq that the store is asked for; `none` where the way there
overflows. -/
def path : Cursor → Option Int
  | request header fromQuery => Server.eventsFrom header fromQuery
  | client first => do
      let text ← firstQuery first
      let seen ← (Decimal.parseI64 text.toList).toOption
      Server.eventsFrom none (some seen)
  | store first => some first

/-- The seq behind which the stream starts. -/
def lastSeen : Cursor → Int
  | request header fromQuery => (Server.lastSeen header fromQuery).getD 0
  | client first | store first => first - 1

/-- The way to the store stays in the range. -/
def Fits : Cursor → Prop
  | request header fromQuery => Server.lastSeen header fromQuery ≠ some 9223372036854775807
  | client first => first ≠ -9223372036854775808
  | store _ => True

variable {cursor : Cursor}

theorem eventsFrom_eq (header : Option String) {fromQuery : Option Int}
    (hquery : ∀ value ∈ fromQuery, I64.InRange value) (start : Int) :
    Server.eventsFrom header fromQuery = some start ↔
      Server.lastSeen header fromQuery ≠ some 9223372036854775807 ∧
        start = (Server.lastSeen header fromQuery).getD 0 + 1 := by
  have hrange := Server.lastSeen_inRange header hquery
  unfold Server.eventsFrom
  cases hseen : Server.lastSeen header fromQuery with
  | none => simp [eq_comm]
  | some seq =>
      have hseq := hrange seq hseen
      simp only [I64.checkedAdd, I64.checked_eq_some, I64.InRange, ne_eq, Option.some.injEq,
        Option.getD_some] at hseq ⊢
      omega

theorem parse_toString {value : Int} (hvalue : I64.InRange value) :
    Decimal.parseI64 (toString value).toList = .ok value :=
  Decimal.parseI64_eq_ok.2 ⟨Decimal.isLiteral_toString value, hvalue⟩

/-- The way to the store ends behind the last seq seen, or overflows. -/
theorem path_eq_some (haccepted : cursor.Accepted) {start : Int} :
    cursor.path = some start ↔ cursor.Fits ∧ start = cursor.lastSeen + 1 := by
  cases cursor with
  | request header fromQuery => exact eventsFrom_eq header haccepted start
  | client first =>
      simp only [path, firstQuery, lastSeen, Fits]
      by_cases hfits : I64.InRange (first - 1)
      · have hsub : I64.checkedSub first 1 = some (first - 1) := I64.checked_eq_some.2 ⟨hfits, rfl⟩
        have hquery : ∀ value ∈ some (first - 1), I64.InRange value := by simpa using hfits
        have hevents := eventsFrom_eq none hquery start
        have hseen : Server.lastSeen none (some (first - 1)) = some (first - 1) := rfl
        rw [hseen] at hevents
        rw [hsub]
        simp only [Option.map_some, Option.bind_eq_bind, Option.bind_some, parse_toString hfits,
          Except.toOption, hevents, Option.getD_some, ne_eq, Option.some.injEq]
        have hfirst : I64.InRange first := haccepted
        unfold I64.InRange at hfirst hfits
        omega
      · have hsub : I64.checkedSub first 1 = none := I64.checked_eq_none.2 hfits
        have hfirst : I64.InRange first := haccepted
        rw [hsub]
        simp only [Option.map_none, Option.bind_eq_bind, Option.bind_none, reduceCtorEq, false_iff]
        unfold I64.InRange at hfirst hfits
        omega
  | store first => simp [path, Fits, lastSeen, eq_comm]

end Cursor

end Client

/-! ## The log store -/

theorem Log.Numbered.ascends {first : Int} {events : List Log.WireEvent}
    (hnumbered : Log.Numbered first events) : Ascends Log.WireEvent.seq events :=
  List.pairwise_iff_getElem.2 fun i j hi hj hlt => by
    rw [hnumbered.getElem hi, hnumbered.getElem hj]
    omega

namespace Log.Subscriber

open FrameScan

variable {rt : Runtime} {start : ℕ} {fromSeq : Int} {now : Shared} {place : ℕ} {sub : Subscriber}

/-- The arithmetic of a subscriber's next turn stays in the range: the limit of
a page, the cursor behind an event, and the cursor behind a lag. -/
def ArithmeticInRange (now : Shared) (sub : Subscriber) : Prop :=
  match sub.phase with
  | .paging _ cursor => cursor ≤ now.ceiling →
      I64.InRange (now.ceiling - cursor) ∧ I64.InRange (now.ceiling - cursor + 1)
  | .page _ _ ceiling wires _ => ∀ ev ∈ wires.head?, ev.seq ≤ ceiling → I64.InRange (ev.seq + 1)
  | .live last => I64.InRange (last + 1)
  | .failed _ => True

/-- A cursor of a subscriber is the one it started with, or a seq of the log. -/
theorem At.inRange {cursor : Int} (hat : At fromSeq cursor place) (hfrom : I64.InRange fromSeq)
    (happlied : place = skipped fromSeq ∨ (place : Int) < now.state.nextSeq)
    (hseqs : I64.InRange now.state.nextSeq) : I64.InRange cursor := by
  unfold I64.InRange at *
  rcases hat with rfl | ⟨-, rfl⟩
  · rcases happlied with hplace | hplace
    · rw [skipped] at hplace
      omega
    · omega
  · exact hfrom

theorem Inv.arithmeticInRange (hinv : Inv rt start fromSeq now place sub)
    (hsound : now.Sound rt start) (hfrom : I64.InRange fromSeq)
    (hseqs : I64.InRange now.state.nextSeq)
    (hceiling : now.ceiling - (fromSeq - 1) ≤ 9223372036854775807) :
    ArithmeticInRange now sub := by
  have hphase := hinv.phase
  unfold ArithmeticInRange
  cases hcase : sub.phase with
  | paging loop cursor =>
      rw [hcase] at hphase
      intro hle
      have hcursor : fromSeq ≤ cursor ∨ 0 ≤ cursor := by
        rcases hphase.1 with hplace | ⟨-, hplace⟩ <;> omega
      unfold I64.InRange at hseqs ⊢
      unfold Shared.ceiling at *
      omega
  | page loop cursor ceiling wires short =>
      rw [hcase] at hphase
      obtain ⟨-, -, hwires, hbelow, -⟩ := hphase
      intro ev hev hle
      cases wires with
      | nil => cases hev
      | cons head rest =>
          obtain rfl : head = ev := Option.some.inj hev
          have hseq := hsound.seq_eq (next_of_page hwires).1
          unfold I64.InRange at hseqs ⊢
          omega
  | live last =>
      rw [hcase] at hphase
      exact hphase.1.inRange hfrom hinv.applied hseqs
  | failed err => trivial

theorem Step.time_le {shared : ℕ → Shared} {before after : ℕ × Subscriber}
    (hstep : Step rt shared before after) : before.1 ≤ after.1 := by
  cases hstep with
  | wait => exact Nat.le_succ _
  | readPage schedule hceiling hscan hlater =>
      exact schedule.catalog_le.trans ((schedule.read_le 0).trans (hlater 0))
  | readError schedule hceiling hscan hlater =>
      exact schedule.catalog_le.trans ((schedule.read_le 0).trans (hlater 0))
  | _ => exact le_rfl

theorem Reach.joined_le {shared : ℕ → Shared} {joined time : ℕ}
    (hreach : Reach rt shared fromSeq joined time sub) : joined ≤ time := by
  suffices hgen : ∀ target : ℕ × Subscriber, Relation.ReflTransGen (Step rt shared)
      (joined, Subscriber.start (shared joined) fromSeq) target → joined ≤ target.1 from
    hgen (time, sub) hreach
  intro target htarget
  induction htarget with
  | refl => exact le_rfl
  | tail _ hstep ih => exact ih.trans hstep.time_le

/-- A subscriber can be late with its first look. -/
theorem Reach.waiting (rt : Runtime) (shared : ℕ → Shared) (fromSeq : Int) {joined time : ℕ}
    (hle : joined ≤ time) :
    Reach rt shared fromSeq joined time (Subscriber.start (shared joined) fromSeq) := by
  induction time, hle using Nat.le_induction with
  | base => exact Relation.ReflTransGen.refl
  | succ time _ ih => exact Relation.ReflTransGen.tail ih Step.wait

theorem Inv.firstBehind {lastSeen : Int} (hinv : Inv rt start (lastSeen + 1) now place sub)
    (hsound : now.Sound rt start) :
    FirstBehind WireEvent.seq lastSeen (now.events rt) sub.yielded := by
  refine FirstBehind.of_isPrefix hsound.numbered.ascends ?_
  rw [hsound.numbered.filter_ge_eq_drop, hinv.yielded]
  exact (List.take_prefix place _).drop _

/-- A subscription of the log store: its arithmetic stays in the range exactly
while the watermark is not too far ahead of the last seq seen. -/
theorem cursor_iff {shared : ℕ → Shared} (htimeline : Timeline rt start shared)
    (hseqs : ∀ time, I64.InRange (shared time).state.nextSeq) {lastSeen : Int}
    (hfrom : I64.InRange (lastSeen + 1)) (joined : ℕ) :
    (∀ time sub, Reach rt shared (lastSeen + 1) joined time sub →
        ArithmeticInRange (shared time) sub ∧
          FirstBehind WireEvent.seq lastSeen ((shared time).events rt) sub.yielded) ↔
      ∀ time, joined ≤ time → (shared time).ceiling - lastSeen ≤ 9223372036854775807 := by
  constructor
  · intro hall time hle
    have hlook := (hall time _ (Reach.waiting rt shared (lastSeen + 1) hle)).1
    have hlimit : lastSeen + 1 ≤ (shared time).ceiling →
        I64.InRange ((shared time).ceiling - (lastSeen + 1)) ∧
          I64.InRange ((shared time).ceiling - (lastSeen + 1) + 1) := hlook
    unfold I64.InRange at hlimit
    by_contra hfar
    have hbelow : lastSeen + 1 ≤ (shared time).ceiling := by omega
    have := hlimit hbelow
    omega
  · intro hnear time sub hreach
    obtain ⟨place, hinv⟩ := inv_reach htimeline hreach
    have hceiling := hnear time hreach.joined_le
    exact ⟨hinv.arithmeticInRange (htimeline.sound time) hfrom (hseqs time) (by omega),
      hinv.firstBehind (htimeline.sound time)⟩

end Log.Subscriber

/-! ## The SQLite store -/

namespace Sqlite

open Sql

/-- The cursor of a stream behind the event that it hands out next stays in the
range. -/
def StreamInRange (stream : EventStream) : Prop :=
  ∀ batch, stream.phase = .yielding batch → ∀ ev ∈ batch.head?, I64.InRange (ev.seq + 1)

/-- The events of a book. -/
def bookEvents (db : Database) (book : String) : List EventRow :=
  db.events.filter fun row => row.book = book

theorem streamInRange {events : List EventRow} {start : Int} {stream : EventStream}
    (hexact : stream.Exact events start) (hstart : I64.InRange start)
    (hseqs : ∀ row ∈ events, row.seq < 9223372036854775807) : StreamInRange stream := by
  intro batch hphase ev hev
  cases batch with
  | nil => cases hev
  | cons head rest =>
      obtain rfl : head = ev := Option.some.inj hev
      have hhead := (hexact.batch _ hphase).2.subset List.mem_cons_self
      obtain ⟨hmem, -, hnext⟩ := mem_eventsFrom.1 hhead
      have hle := hexact.le_next
      have hlt := hseqs head hmem
      unfold I64.InRange at *
      omega

theorem firstBehind {db : Database} {lastSeen : Int} {stream : EventStream}
    (hascending : Ascending db.events)
    (hreceived : stream.received <+: eventsFrom db.events stream.book (lastSeen + 1)) :
    FirstBehind EventRow.seq lastSeen (bookEvents db stream.book) stream.received := by
  have hbook : Ascends EventRow.seq (bookEvents db stream.book) := by
    refine List.Pairwise.imp_of_mem (fun {left right} hleft hright hlt => ?_)
      (List.Pairwise.sublist List.filter_sublist hascending)
    have hsame : left.book = stream.book := of_decide_eq_true (List.mem_filter.1 hleft).2
    exact hlt (hsame.trans (of_decide_eq_true (List.mem_filter.1 hright).2).symm)
  refine FirstBehind.of_isPrefix hbook ?_
  have hfilter : (bookEvents db stream.book).filter (fun row => lastSeen + 1 ≤ row.seq) =
      eventsFrom db.events stream.book (lastSeen + 1) := by
    rw [bookEvents, List.filter_filter, eventsFrom]
    refine List.filter_congr fun row _ => ?_
    rw [← Bool.decide_and, decide_eq_decide, and_comm]
  rw [hfilter]
  exact hreceived

/-- A process over a database that a run has made. -/
theorem sound_exec {earlier : List Op} {db : Database} {events : List Event} {system : System}
    (hearlier : execSteps step .empty earlier = some db)
    (hexec : execSteps System.step (opened db) events = some system) : system.Sound := by
  have hnumbered : Numbered db :=
    invariant_exec (fun _ _ _ hnumbered hstep => hnumbered.step hstep) Numbered.empty hearlier
  exact invariant_exec (fun _ _ _ hsound hstep => hsound.step hstep)
    (System.Sound.opened hnumbered) hexec

end Sqlite

/-! ## From the caller to the store -/

namespace Client.Cursor

/-- A subscription of the log store, joined at a moment of a writer's life, does
no arithmetic outside the range, from the caller to its last page, and starts
with the next event behind the last one seen. -/
def SafeOnLog (cursor : Cursor) (rt : Log.Runtime) (shared : ℕ → Log.Shared) (joined : ℕ) : Prop :=
  ∃ start, cursor.path = some start ∧
    ∀ time sub, Log.Subscriber.Reach rt shared start joined time sub →
      Log.Subscriber.ArithmeticInRange (shared time) sub ∧
        FirstBehind Log.WireEvent.seq cursor.lastSeen ((shared time).events rt) sub.yielded

/-- The same of a subscription of the SQLite store, in every run of a process
over the database whose books stay below the last seq. -/
def SafeOnSqlite (cursor : Cursor) (db : Sql.Database) : Prop :=
  ∃ start, cursor.path = some start ∧
    ∀ events system, execSteps Sqlite.System.step (Sqlite.opened db) events = some system →
      (∀ row ∈ system.db.events, row.seq < 9223372036854775807) →
      ∀ sub ∈ system.subscriber, sub.start = start →
        Sqlite.StreamInRange sub.stream ∧
          FirstBehind Sql.EventRow.seq cursor.lastSeen
            (Sqlite.bookEvents system.db sub.stream.book) sub.stream.received

/-- What a store is asked for is an `i64` as well. -/
theorem start_inRange {cursor : Cursor} (haccepted : cursor.Accepted) (hfits : cursor.Fits) :
    I64.InRange (cursor.lastSeen + 1) := by
  cases cursor with
  | request header fromQuery =>
      have hrange := Server.lastSeen_inRange header haccepted
      simp only [lastSeen, Fits] at hfits ⊢
      cases hseen : Server.lastSeen header fromQuery with
      | none => decide
      | some seq =>
          rw [hseen] at hfits
          have hseq := hrange seq hseen
          have hne : seq ≠ 9223372036854775807 := fun h => hfits (congrArg some h)
          unfold I64.InRange at hseq ⊢
          rw [Option.getD_some]
          omega
  | client first =>
      rw [lastSeen, sub_add_cancel]
      exact haccepted
  | store first =>
      rw [lastSeen, sub_add_cancel]
      exact haccepted

/-- Whatever integer a caller picks, the arithmetic stays in the range and the
stream starts with the next event exactly when the way to the store does not
overflow and, on the log store, the watermark never gets too far ahead of the
last seq seen. -/
theorem safe_iff (cursor : Cursor) (haccepted : cursor.Accepted) :
    (∀ (rt : Log.Runtime) (opts : Log.LogStoreOptions) (io : Log.SpillIo)
        (actions : List Log.Action) (turns : List Log.Turn) (joined : ℕ),
      match (Log.Run.exec rt opts io actions).status with
      | .stopped _ => True
      | .live writer =>
          let shared := ((Log.Run.exec rt opts io actions).serve writer).atTime rt turns
          (∀ time, I64.InRange (shared time).state.nextSeq) →
            (cursor.SafeOnLog rt shared joined ↔ cursor.Fits ∧
              ∀ time, joined ≤ time →
                (shared time).ceiling - cursor.lastSeen ≤ 9223372036854775807)) ∧
    ∀ (earlier : List Sqlite.Op) (db : Sql.Database),
      execSteps Sqlite.step .empty earlier = some db → (cursor.SafeOnSqlite db ↔ cursor.Fits) := by
  refine ⟨fun rt opts io actions turns joined => ?_, fun earlier db hearlier => ?_⟩
  · cases hstatus : (Log.Run.exec rt opts io actions).status with
    | stopped disk => trivial
    | live writer =>
        intro hseqs
        have htimeline := ((Log.RunInv.exec rt opts io actions).serve hstatus).timeline turns
        constructor
        · rintro ⟨start, hpath, hall⟩
          obtain ⟨hfits, rfl⟩ := (path_eq_some haccepted).1 hpath
          exact ⟨hfits, (Log.Subscriber.cursor_iff htimeline hseqs
            (start_inRange haccepted hfits) joined).1 hall⟩
        · rintro ⟨hfits, hnear⟩
          exact ⟨_, (path_eq_some haccepted).2 ⟨hfits, rfl⟩, (Log.Subscriber.cursor_iff htimeline
            hseqs (start_inRange haccepted hfits) joined).2 hnear⟩
  · constructor
    · rintro ⟨start, hpath, -⟩
      exact ((path_eq_some haccepted).1 hpath).1
    · intro hfits
      refine ⟨_, (path_eq_some haccepted).2 ⟨hfits, rfl⟩, ?_⟩
      intro events system hexec hseqs sub hsub hstart
      have hsound := Sqlite.sound_exec hearlier hexec
      have hexact := (hsound.subscriber sub hsub).exact
      rw [hstart] at hexact
      exact ⟨Sqlite.streamInRange hexact (start_inRange haccepted hfits) hseqs,
        Sqlite.firstBehind hsound.numbered.ascend (hexact.received_isPrefix hsound.numbered.ascend)⟩

/-- A shop with its two accounts, each opened by an event of its own. -/
def openedShop : List Sqlite.Op :=
  [.registerAsset ⟨Sqlite.usd, .fiat, 2, "US dollar"⟩ 0,
    .openAccount ⟨Sqlite.cash, Sqlite.usd, .asset⟩ ⟨some .debit, none⟩ 1,
    .openAccount ⟨Sqlite.sales, Sqlite.usd, .income⟩ ⟨some .credit, none⟩ 2]

theorem safe_iff_headerWins :
    ∃ db, execSteps Sqlite.step .empty openedShop = some db ∧
      ((Cursor.request (some "1") (some 7)).SafeOnSqlite db ↔
        (Cursor.request (some "1") (some 7)).Fits) := by
  obtain ⟨db, hdb⟩ := Option.isSome_iff_exists.1
    (by decide +kernel : (execSteps Sqlite.step .empty openedShop).isSome = true)
  have haccepted : (Cursor.request (some "1") (some 7)).Accepted := by
    change ∀ value ∈ some (7 : Int), I64.InRange value
    decide
  exact ⟨db, hdb, (safe_iff _ haccepted).2 openedShop db hdb⟩

/-- A client that has seen the last seq there can be.  The addition overflows;
where it wraps around, the stream starts at the book's first event. -/
theorem overflow_restarts :
    let cursor := Cursor.request (some "9223372036854775807") none
    cursor.Accepted ∧ cursor.path = none ∧ (∀ db, ¬ cursor.SafeOnSqlite db) ∧
      ∃ db ∈ execSteps Sqlite.step .empty openedShop,
        ∃ system ∈ execSteps Sqlite.System.step (Sqlite.opened db)
          [.subscribe "shop" (I64.wrappingAdd cursor.lastSeen 1), .fetch, .handOut],
          ∃ sub ∈ system.subscriber, sub.stream.received.map Sql.EventRow.seq = [1] ∧
            ∀ row ∈ system.db.events, row.seq ≤ cursor.lastSeen := by
  have hpath : (Cursor.request (some "9223372036854775807") none).path = none := by
    decide +kernel
  have haccepted : (Cursor.request (some "9223372036854775807") none).Accepted := by
    change ∀ value ∈ (none : Option Int), I64.InRange value
    decide
  refine ⟨haccepted, hpath, ?_, ?_⟩
  · rintro db ⟨start, hstart, -⟩
    rw [hpath] at hstart
    cases hstart
  · decide +kernel

end Client.Cursor

end Talea
