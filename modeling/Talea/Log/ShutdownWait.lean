import Talea.Log.CallSteps

/-!
# What a shutdown waits for

A writer task ends when its job channel is empty and nobody holds a sender of
it.  `shutdown` takes the writers out of the map and waits for their ends in
turn, and counts on the senders that are left: those of calls in flight, which
return.  A subscription is a stream and does not return; it holds the handle it
got from the map, and with it a sender, and waits for the writer to broadcast.
-/

namespace Talea.Log

open LogTaleaStore

/-- A call that is neither a stream nor a `shutdown`, and has not returned. -/
def Call.InFlight (call : Call) : Prop :=
  call.op.isSubscribe = false ∧ call.op ≠ .shutdown ∧ ∀ results, call.stage ≠ .finished results

/-- A subscription that has received everything its writer has broadcast. -/
def Parked (store : LogTaleaStore) (call : Call) : Bool :=
  match call.op, call.stage, call.acquired with
  | .subscribe _, .tailing received, [some writer] =>
      decide ((store.writers[writer]?.map WriterTask.published).getD 0 ≤ received)
  | _, _, _ => false

/-- `shutdown` waits for a writer, the writer waits for a job, and all that hold
a sender of its channel are streams that wait for the writer. -/
def Stuck (store : LogTaleaStore) : Prop :=
  ∃ entry ∈ store.calls.sorted, ∃ writer ∈ entry.2.stage.waitsFor,
    (store.live writer).isSome ∧ store.Idle writer ∧ store.HasSender writer ∧
      (∀ book ∈ store.books.sorted, book.2 ≠ writer) ∧
      ∀ holder ∈ store.calls.sorted, writer ∈ holder.2.handles → Parked store holder.2 = true

instance (store : LogTaleaStore) : Decidable (Stuck store) :=
  inferInstanceAs (Decidable (∃ entry ∈ store.calls.sorted, ∃ writer ∈ entry.2.stage.waitsFor, _))

/-- The senders of a writer that `shutdown` waits for are those of calls in
flight, and when these have returned there are none. -/
def LastSenders (store : LogTaleaStore) : Prop :=
  ∀ id call writer, store.calls.lookup id = some call → call.stage.waitsFor = some writer →
    (∀ holder holderCall, store.calls.lookup holder = some holderCall →
      writer ∈ holderCall.handles → holderCall.InFlight) ∧
    ((∀ holder holderCall, store.calls.lookup holder = some holderCall →
      holderCall.InFlight → writer ∉ holderCall.handles) → ¬ store.HasSender writer)

/-- When the map is drained, no subscription holds a writer of it. -/
def DrainsNoSubscription (store : LogTaleaStore) : Event → Prop
  | .poll id _ => ∀ call ∈ store.calls.lookup id, call.stage.isDraining = true →
      ∀ holder ∈ store.calls.sorted, holder.2.op.isSubscribe = true →
        ∀ writer ∈ holder.2.handles, ∀ book ∈ store.books.sorted, book.2 ≠ writer
  | _ => True

instance (store : LogTaleaStore) : ∀ event, Decidable (DrainsNoSubscription store event)
  | .poll id _ => inferInstanceAs (Decidable (∀ call ∈ store.calls.lookup id,
      call.stage.isDraining = true → ∀ holder ∈ store.calls.sorted,
        holder.2.op.isSubscribe = true → ∀ writer ∈ holder.2.handles,
          ∀ book ∈ store.books.sorted, book.2 ≠ writer))
  | .call _ _ | .cancel _ | .take _ _ | .write _ _ | .fail _ _ _ | .answer _ | .exit _
  | .restart _ _ => isTrue trivial

/-! ## The invariant -/

/-- The writers in the map are there once. -/
structure BooksSound (store : LogTaleaStore) : Prop where
  bounded : ∀ book writer, store.books.lookup book = some writer → writer < store.writers.length
  injective : ∀ book other writer, store.books.lookup book = some writer →
    store.books.lookup other = some writer → book = other

/-- The handles of a call: a subscription has its writer from the map, and
`shutdown` has the ones that it took out. -/
structure Call.Holds (store : LogTaleaStore) (id : ℕ) (call : Call) : Prop where
  subscribes : call.op.isSubscribe = true → ∀ writer, some writer ∈ call.acquired →
    ∃ book, store.books.lookup book = some writer
  acquiresNone : call.op = .shutdown → ∀ writer, some writer ∉ call.acquired
  finished : ∀ results, call.stage = .finished results → call.acquired = []
  draining : call.stage = .draining → call.op = .shutdown
  joining : ∀ writers, call.stage = .joining writers → call.op = .shutdown ∧ writers.Nodup ∧
    ∀ writer ∈ writers, writer < store.writers.length ∧
      ∀ book, store.books.lookup book ≠ some writer
  creating : call.stage = .creating → store.booksWriter = some id ∧
    ∀ book, call.target = some book → store.books.lookup book = none

structure HandlesSound (store : LogTaleaStore) : Prop where
  books : BooksSound store
  calls : ∀ id call, store.calls.lookup id = some call → call.Holds store id
  disjoint : ∀ id call other otherCall writers otherWriters, id ≠ other →
    store.calls.lookup id = some call → call.stage = .joining writers →
    store.calls.lookup other = some otherCall → otherCall.stage = .joining otherWriters →
    writers.Disjoint otherWriters

section Holds

variable {store next : LogTaleaStore} {id : ℕ} {call : Call}

theorem Call.Holds.mono (hholds : call.Holds store id) (hbooks : next.books = store.books)
    (hlock : store.booksWriter = some id → next.booksWriter = some id)
    (hwriters : next.writers.length = store.writers.length) : call.Holds next id where
  subscribes := by
    rw [hbooks]
    exact hholds.subscribes
  acquiresNone := hholds.acquiresNone
  finished := hholds.finished
  draining := hholds.draining
  joining := by
    rw [hbooks, hwriters]
    exact hholds.joining
  creating hstage := by
    rw [hbooks]
    exact (hholds.creating hstage).imp_left hlock

theorem Call.Holds.moves {moved : Call} (hholds : call.Holds store id)
    (hmove : Moves store call moved) : moved.Holds store id := by
  cases hmove with
  | @go stage hstage =>
      refine ⟨hholds.subscribes, hholds.acquiresNone, ?_, ?_, ?_, ?_⟩
      all_goals cases stage <;> first | exact hstage.elim | nofun
  | looks htarget hvalid => exact ⟨hholds.subscribes, hholds.acquiresNone, nofun, nofun, nofun, nofun⟩
  | misses hstage => exact ⟨hholds.subscribes, hholds.acquiresNone, nofun, nofun, nofun, nofun⟩
  | finish => exact ⟨nofun, nofun, fun _ _ => rfl, nofun, nofun, nofun⟩
  | @acquire result hresult =>
      refine ⟨fun hop writer hmem => ?_, fun hop writer hmem => ?_, nofun, nofun, nofun, nofun⟩
      · rcases List.mem_append.1 hmem with hold | hnew
        · exact hholds.subscribes hop writer hold
        · rcases hresult writer (List.mem_singleton.1 hnew).symm with
            ⟨book, -, hlookup⟩ | ⟨book, -, hcached⟩
          · exact ⟨book, hlookup⟩
          · exact hholds.subscribes hop writer (Call.cached_eq_some hcached)
      · rcases List.mem_append.1 hmem with hold | hnew
        · exact hholds.acquiresNone hop writer hold
        · have htarget : call.target = none := by
            unfold Call.target
            rw [show call.op = .shutdown from hop]
            rfl
          rcases hresult writer (List.mem_singleton.1 hnew).symm with
            ⟨book, hbook, -⟩ | ⟨book, hbook, -⟩
          all_goals
            rw [htarget] at hbook
            cases hbook
  | refuse =>
      refine ⟨hholds.subscribes, hholds.acquiresNone, hholds.finished, ?_, ?_, ?_⟩
      · exact hholds.draining
      · exact hholds.joining
      · exact hholds.creating

theorem Moves.stage_ne_joining {moved : Call} (hmove : Moves store call moved)
    (hfrom : ¬ call.stage.Special) (writers : List ℕ) : moved.stage ≠ .joining writers := by
  cases hmove with
  | @go stage hstage =>
      rintro rfl
      exact hstage
  | refuse =>
      intro hstage
      exact hfrom (by rw [show call.stage = .joining writers from hstage]; trivial)
  | _ => nofun

/-- One call changes, and the others hold what they held. -/
theorem HandlesSound.ofCall (hsound : HandlesSound store)
    (hcalls : next.calls = store.calls.insert id call) (hcall : call.Holds next id)
    (hothers : ∀ other otherCall, other ≠ id → store.calls.lookup other = some otherCall →
      otherCall.Holds next other)
    (hjoining : ∀ writers other otherCall otherWriters, call.stage = .joining writers →
      other ≠ id → store.calls.lookup other = some otherCall →
      otherCall.stage = .joining otherWriters → writers.Disjoint otherWriters)
    (hbooks : BooksSound next) : HandlesSound next where
  books := hbooks
  calls other otherCall hother := by
    rw [hcalls, HashMap.lookup_insert_ite] at hother
    split at hother
    · next heq =>
        cases hother
        rwa [heq]
    · next hne => exact hothers other otherCall hne hother
  disjoint left leftCall right rightCall leftWriters rightWriters hne hleft hleftStage hright
      hrightStage := by
    rw [hcalls, HashMap.lookup_insert_ite] at hleft hright
    split at hleft
    · next hid =>
        cases hleft
        rw [if_neg fun hsame => hne (hid.trans hsame.symm)] at hright
        exact hjoining _ _ _ _ hleftStage (fun hsame => hne (hid.trans hsame.symm)) hright
          hrightStage
    · next hleftNe =>
        split at hright
        · next hid =>
            cases hright
            exact (hjoining _ _ _ _ hrightStage hleftNe hleft hleftStage).symm
        · exact hsound.disjoint left leftCall right rightCall _ _ hne hleft hleftStage hright
            hrightStage

/-- A call that does not end up waiting for writers changes, and nothing
happens to the map and the writers. -/
theorem HandlesSound.frame (hsound : HandlesSound store)
    (hcalls : next.calls = store.calls.insert id call) (hbooks : next.books = store.books)
    (hlock : next.booksWriter = store.booksWriter)
    (hwriters : next.writers.length = store.writers.length) (hcall : call.Holds next id)
    (hstage : ∀ writers, call.stage ≠ .joining writers) : HandlesSound next := by
  refine hsound.ofCall hcalls hcall (fun other otherCall _ hother => ?_)
    (fun writers _ _ _ h => absurd h (hstage writers)) ⟨?_, ?_⟩
  · exact (hsound.calls other otherCall hother).mono hbooks (fun h => hlock.trans h) hwriters
  · rw [hbooks, hwriters]
    exact hsound.books.bounded
  · rw [hbooks]
    exact hsound.books.injective

end Holds

/-! ## Steps -/

section Steps

variable {store next : LogTaleaStore} {id : ℕ}

/-- A spawned writer is behind all that are known. -/
theorem BooksSound.spawn (hsound : BooksSound store) (book : String) :
    BooksSound (store.spawnBook book) where
  bounded other writer hlookup := by
    rw [show (store.spawnBook book).writers.length = store.writers.length + 1 from
      List.length_append]
    rw [spawnBook, HashMap.lookup_insert_ite] at hlookup
    split at hlookup
    · cases hlookup
      omega
    · have := hsound.bounded other writer hlookup
      omega
  injective left right writer hleft hright := by
    rw [spawnBook, HashMap.lookup_insert_ite] at hleft hright
    split at hleft
    · next hleftEq =>
        split at hright
        · next hrightEq => rw [hleftEq, hrightEq]
        · cases hleft
          exact absurd (hsound.bounded right _ hright) (lt_irrefl _)
    · split at hright
      · cases hright
        exact absurd (hsound.bounded left _ hleft) (lt_irrefl _)
      · exact hsound.injective left right writer hleft hright

/-- A call that does not create anything keeps its handles when another one
creates a book. -/
theorem Call.Holds.spawn {other : ℕ} {call : Call} (hholds : call.Holds store other)
    {book : String} (hmiss : store.books.lookup book = none) (hcreating : call.stage ≠ .creating)
    (hbooks : next.books = store.books.insert book store.writers.length)
    (hwriters : next.writers.length = store.writers.length + 1) : call.Holds next other where
  subscribes hop writer hmem := by
    obtain ⟨name, hname⟩ := hholds.subscribes hop writer hmem
    refine ⟨name, ?_⟩
    rw [hbooks, HashMap.lookup_insert_ite, if_neg, hname]
    rintro rfl
    rw [hmiss] at hname
    cases hname
  acquiresNone := hholds.acquiresNone
  finished := hholds.finished
  draining := hholds.draining
  joining writers hstage := by
    obtain ⟨hop, hnodup, hbound⟩ := hholds.joining writers hstage
    refine ⟨hop, hnodup, fun writer hmem => ?_⟩
    obtain ⟨hlt, hnot⟩ := hbound writer hmem
    refine ⟨by omega, fun name hname => ?_⟩
    rw [hbooks, HashMap.lookup_insert_ite] at hname
    split at hname
    · cases hname
      exact lt_irrefl _ hlt
    · exact hnot name hname
  creating hstage := absurd hstage hcreating

theorem finish_holds (call : Call) (results : List (Option Answer)) :
    (call.finish results).Holds store id :=
  ⟨nofun, nofun, fun _ _ => rfl, nofun, nofun, nofun⟩

/-- The writers that `shutdown` takes out of the map. -/
theorem drained_nodup (hsound : BooksSound store) {order : List String} (hnodup : order.Nodup) :
    (order.filterMap fun book => store.books.lookup book).Nodup := by
  refine hnodup.filterMap fun left right writer hleft hright => ?_
  exact hsound.injective left right writer hleft hright

/-- At a drain that meets the condition, no subscription holds a writer at
all. -/
theorem HandlesSound.subscribes_none (hsound : HandlesSound store) {io : PollIo} {call : Call}
    (hdrains : DrainsNoSubscription store (.poll id io))
    (hcall : store.calls.lookup id = some call) (hstage : call.stage = .draining) {other : ℕ}
    {otherCall : Call} (hother : store.calls.lookup other = some otherCall)
    (hsub : otherCall.op.isSubscribe = true) (writer : ℕ) : some writer ∉ otherCall.acquired := by
  intro hmem
  have hholds := hsound.calls other otherCall hother
  obtain ⟨book, hbook⟩ := hholds.subscribes hsub writer hmem
  have hhandle : writer ∈ otherCall.handles := by
    refine (Call.mem_handles fun writers hjoining => ?_).2 hmem
    rw [(hholds.joining writers hjoining).1] at hsub
    cases hsub
  exact hdrains call hcall (by rw [hstage]; rfl) (other, otherCall) (HashMap.mem_sorted.2 hother)
    hsub writer hhandle (book, writer) (HashMap.mem_sorted.2 hbook) rfl

theorem HandlesSound.poll (hsound : HandlesSound store) {io : PollIo}
    (hdrains : DrainsNoSubscription store (.poll id io)) (hpoll : store.poll id io = some next) :
    HandlesSound next := by
  obtain ⟨call, hcall, hstep⟩ := poll_cases hpoll
  have hholds := hsound.calls id call hcall
  have hplain : ∀ stage : Stage, stage.Plain →
      Call.Holds store id { call with stage } := fun stage hstage => hholds.moves (.go hstage)
  cases hstep with
  | moves hfrom hmove =>
      exact hsound.frame rfl rfl rfl rfl ((hholds.moves hmove).mono rfl (fun h => h) rfl)
        (hmove.stage_ne_joining hfrom)
  | closes hop hfrom =>
      exact hsound.frame rfl rfl rfl rfl
        ⟨hholds.subscribes, hholds.acquiresNone, nofun, fun _ => hop, nofun, nofun⟩ nofun
  | locksRegistry hop hstage hfree hmiss =>
      exact hsound.frame rfl rfl rfl rfl ((hplain .enter trivial).mono rfl (fun h => h) rfl) nofun
  | @locksBooks book hstage hfree htarget hmiss =>
      refine hsound.ofCall rfl ?_ (fun other otherCall hne hother => ?_) (fun _ _ _ _ h => nomatch h)
        ⟨hsound.books.bounded, hsound.books.injective⟩
      · refine ⟨hholds.subscribes, hholds.acquiresNone, nofun, nofun, nofun, fun _ => ⟨rfl, ?_⟩⟩
        intro name hname
        rw [show call.target = some name from hname] at htarget
        cases htarget
        exact hmiss
      · refine (hsound.calls other otherCall hother).mono rfl (fun h => ?_) rfl
        rw [hfree] at h
        cases h
  | @spawns book hstage htarget =>
      obtain ⟨hlock, hbook⟩ := hholds.creating hstage
      have hmiss := hbook book htarget
      have hbooks := hsound.books.spawn book
      have hfailed : (call.acquire none).Holds store id := hholds.moves (.acquire nofun)
      refine hsound.ofCall rfl ?_ (fun other otherCall hne hother => ?_) (fun _ _ _ _ h => nomatch h)
        ⟨hbooks.bounded, hbooks.injective⟩
      · refine ⟨fun hop writer hmem => ?_, fun hop writer hmem => ?_, nofun, nofun, nofun, nofun⟩
        · rcases List.mem_append.1 hmem with hold | hnew
          · exact (hfailed.spawn hmiss nofun rfl List.length_append).subscribes hop writer
              (List.mem_append_left _ hold)
          · have hwriter : writer = store.writers.length := by simpa using hnew
            refine ⟨book, ?_⟩
            rw [hwriter]
            exact Finmap.lookup_insert store.books
        · unfold Call.target at htarget
          rw [show call.op = .shutdown from hop] at htarget
          cases htarget
      · refine (hsound.calls other otherCall hother).spawn hmiss (fun hcreating => ?_) rfl
          List.length_append
        have hother := ((hsound.calls other otherCall hother).creating hcreating).1
        rw [hlock] at hother
        exact hne (Option.some.inj hother).symm
  | spawnFails hstage =>
      have hfailed : (call.acquire none).Holds store id := hholds.moves (.acquire nofun)
      refine hsound.ofCall rfl ⟨hfailed.subscribes, hfailed.acquiresNone, nofun, nofun, nofun, nofun⟩
        (fun other otherCall hne hother => ?_) (fun _ _ _ _ h => nomatch h)
        ⟨hsound.books.bounded, hsound.books.injective⟩
      refine (hsound.calls other otherCall hother).mono rfl (fun h => ?_) rfl
      rw [(hholds.creating hstage).1] at h
      exact absurd (Option.some.inj h).symm hne
  | submits hstage hwriter htarget =>
      refine hsound.frame rfl rfl rfl rfl ⟨hholds.subscribes, hholds.acquiresNone, hholds.finished,
        hholds.draining, hholds.joining, hholds.creating⟩ ?_
      simp [hstage]
  | @returns idx hstage hlast =>
      unfold LogTaleaStore.returns
      dsimp only
      split
      · exact hsound.frame rfl rfl rfl rfl (finish_holds call _) nofun
      · exact hsound.frame rfl rfl rfl rfl (finish_holds call _) nofun
  | @drains order hstage hfree hnodup hkeys =>
      have hop := hholds.draining hstage
      have htaken : ∀ writer ∈ order.filterMap fun book => store.books.lookup book,
          ∃ book, store.books.lookup book = some writer := by
        intro writer hmem
        obtain ⟨book, -, hbook⟩ := List.mem_filterMap.1 hmem
        exact ⟨book, hbook⟩
      refine hsound.ofCall rfl ?_ (fun other otherCall hne hother => ?_) ?_ ⟨nofun, nofun⟩
      · refine ⟨fun hsub => ?_, hholds.acquiresNone, nofun, nofun, fun writers hwriters => ?_,
          nofun⟩
        · rw [show call.op.isSubscribe = true ↔ False by rw [hop]; exact ⟨nofun, nofun⟩] at hsub
          exact hsub.elim
        · cases hwriters
          refine ⟨hop, drained_nodup hsound.books hnodup, fun writer hmem => ⟨?_, nofun⟩⟩
          obtain ⟨book, hbook⟩ := htaken writer hmem
          exact hsound.books.bounded book writer hbook
      · have hotherHolds := hsound.calls other otherCall hother
        refine ⟨fun hsub writer hmem => ?_, hotherHolds.acquiresNone, hotherHolds.finished,
          hotherHolds.draining, fun writers hwriters => ?_, fun hcreating => ?_⟩
        · exact absurd hmem (hsound.subscribes_none hdrains hcall hstage hother hsub writer)
        · obtain ⟨hotherOp, hotherNodup, hbound⟩ := hotherHolds.joining writers hwriters
          exact ⟨hotherOp, hotherNodup, fun writer hmem => ⟨(hbound writer hmem).1, nofun⟩⟩
        · have hlocked := (hotherHolds.creating hcreating).1
          rw [hfree] at hlocked
          cases hlocked
      · intro writers other otherCall otherWriters hwriters hne hother hotherStage writer hmem
          hotherMem
        cases hwriters
        obtain ⟨book, hbook⟩ := htaken writer hmem
        exact (((hsound.calls other otherCall hother).joining _ hotherStage).2.2 writer
          hotherMem).2 book hbook
  | @joins writer rest hstage =>
      obtain ⟨hop, hnodup, hbound⟩ := hholds.joining _ hstage
      refine hsound.ofCall rfl ?_ (fun other otherCall hne hother => ?_) ?_
        ⟨hsound.books.bounded, hsound.books.injective⟩
      · refine ⟨hholds.subscribes, hholds.acquiresNone, nofun, nofun, fun writers hwriters => ?_,
          nofun⟩
        cases hwriters
        exact ⟨hop, hnodup.of_cons, fun other hmem => hbound other (List.mem_cons_of_mem _ hmem)⟩
      · exact (hsound.calls other otherCall hother).mono rfl (fun h => h) rfl
      · intro writers other otherCall otherWriters hwriters hne hother hotherStage
        cases hwriters
        exact List.disjoint_of_disjoint_cons_left
          (hsound.disjoint id call other otherCall _ _ hne.symm hcall hstage hother hotherStage)
  | unlocks hstage => exact hsound.frame rfl rfl rfl rfl (finish_holds call _) nofun

/-- A writer goes on. -/
theorem HandlesSound.ofWriters (hsound : HandlesSound store) (hcalls : next.calls = store.calls)
    (hbooks : next.books = store.books) (hlock : next.booksWriter = store.booksWriter)
    (hwriters : next.writers.length = store.writers.length) : HandlesSound next where
  books := by
    constructor
    · rw [hbooks, hwriters]
      exact hsound.books.bounded
    · rw [hbooks]
      exact hsound.books.injective
  calls other otherCall hother := by
    rw [hcalls] at hother
    exact (hsound.calls other otherCall hother).mono hbooks (fun h => hlock.trans h) hwriters
  disjoint := by
    rw [hcalls]
    exact hsound.disjoint

theorem HandlesSound.cancel (hsound : HandlesSound store) (hcancel : store.cancel id = some next) :
    HandlesSound next := by
  obtain ⟨call, -, rfl⟩ := cancel_cases hcancel
  refine hsound.ofCall rfl (finish_holds call []) (fun other otherCall hne hother => ?_)
    (fun _ _ _ _ h => nomatch h) ⟨hsound.books.bounded, hsound.books.injective⟩
  refine (hsound.calls other otherCall hother).mono rfl (fun h => ?_) rfl
  dsimp only
  rw [if_neg, h]
  rw [h]
  exact fun heq => hne (Option.some.inj heq)

theorem HandlesSound.of_restart {order : List String} {skipped : String → ℕ}
    (hrestart : store.restart order skipped = some next) : HandlesSound next := by
  obtain ⟨tasks, books, -, -, rfl, htasks, -, hbooks⟩ := restart_cases hrestart
  constructor
  · constructor
    · intro book writer hlookup
      have hbound := (List.getElem?_eq_some_iff.1 (hbooks book writer hlookup)).1
      rwa [htasks.length_eq] at hbound
    · intro left right writer hleft hright
      exact Option.some.inj ((hbooks left writer hleft).symm.trans (hbooks right writer hright))
  · intro other otherCall hother
    simp [onLogs] at hother
  · intro other otherCall _ _ _ _ _ hother
    simp [onLogs] at hother

/-- Every step that meets the condition keeps the invariant. -/
theorem HandlesSound.step (hsound : HandlesSound store) {event : Event}
    (hdrains : DrainsNoSubscription store event) (hstep : store.step event = some next) :
    HandlesSound next := by
  cases event with
  | call id op =>
      rw [(call_cases hstep).2]
      exact hsound.frame rfl rfl rfl rfl ⟨nofun, nofun, nofun, nofun, nofun, nofun⟩ nofun
  | poll id io => exact hsound.poll hdrains hstep
  | cancel id => exact hsound.cancel hstep
  | take writer count =>
      rw [(take_cases hstep).1]
      exact hsound.ofWriters rfl rfl rfl rfl
  | write writer io =>
      obtain ⟨task, -, -, rfl | ⟨batch, state, -, -, rfl⟩⟩ := write_cases hstep
      · exact hsound.ofWriters rfl rfl rfl List.length_set
      · exact hsound.ofWriters rfl rfl rfl List.length_set
  | fail writer io kept =>
      obtain ⟨task, wires, -, -, rfl, -⟩ := fail_cases hstep
      exact hsound.ofWriters rfl rfl rfl List.length_set
  | answer writer =>
      obtain ⟨task, -, rfl⟩ := answer_cases hstep
      exact hsound.ofWriters rfl rfl rfl List.length_set
  | exit writer =>
      obtain ⟨task, -, -, -, rfl⟩ := exit_cases hstep
      exact hsound.ofWriters rfl rfl rfl List.length_set
  | restart order skipped => exact .of_restart hstep

end Steps

/-! ## Runs -/

section Runs

variable {store : LogTaleaStore}

theorem HandlesSound.fresh : HandlesSound fresh where
  books := ⟨nofun, nofun⟩
  calls other otherCall hother := by simp [LogTaleaStore.fresh, onLogs] at hother
  disjoint other otherCall _ _ _ _ _ hother := by simp [LogTaleaStore.fresh, onLogs] at hother

theorem joining_of_waitsFor {stage : Stage} {writer : ℕ} (hwaits : stage.waitsFor = some writer) :
    ∃ rest, stage = .joining (writer :: rest) := by
  cases hstage : stage with
  | joining writers =>
      rw [hstage] at hwaits
      cases writers with
      | nil => cases hwaits
      | cons head rest =>
          cases hwaits
          exact ⟨rest, rfl⟩
  | _ =>
      rw [hstage] at hwaits
      cases hwaits

/-- A handle of a writer that `shutdown` waits for belongs to a call in
flight. -/
theorem HandlesSound.inFlight (hsound : HandlesSound store) {id : ℕ} {call : Call} {writer : ℕ}
    (hcall : store.calls.lookup id = some call) (hwaits : call.stage.waitsFor = some writer)
    {holder : ℕ} {holderCall : Call} (hholder : store.calls.lookup holder = some holderCall)
    (hmem : writer ∈ holderCall.handles) : holderCall.InFlight := by
  obtain ⟨rest, hstage⟩ := joining_of_waitsFor hwaits
  obtain ⟨-, hnodup, hbound⟩ := (hsound.calls id call hcall).joining _ hstage
  have hholds := hsound.calls holder holderCall hholder
  by_cases hjoining : ∃ writers, holderCall.stage = .joining writers
  · obtain ⟨writers, hwriters⟩ := hjoining
    have htail : writer ∈ writers.tail := by
      rwa [Call.handles, hwriters] at hmem
    by_cases hsame : id = holder
    · subst hsame
      rw [hcall] at hholder
      cases hholder
      rw [hstage] at hwriters
      cases hwriters
      exact absurd htail (List.nodup_cons.1 hnodup).1
    · exact absurd (List.mem_of_mem_tail htail)
        (hsound.disjoint id call holder holderCall _ _ hsame hcall hstage hholder hwriters
          List.mem_cons_self)
  · have hacquired := (Call.mem_handles fun writers h => hjoining ⟨writers, h⟩).1 hmem
    refine ⟨?_, fun hop => hholds.acquiresNone hop writer hacquired, fun results hfinished => ?_⟩
    · cases hsub : holderCall.op.isSubscribe with
      | false => rfl
      | true =>
          obtain ⟨book, hbook⟩ := hholds.subscribes hsub writer hacquired
          exact absurd hbook ((hbound writer List.mem_cons_self).2 book)
    · rw [hholds.finished results hfinished] at hacquired
      cases hacquired

theorem HandlesSound.lastSenders (hsound : HandlesSound store) : LastSenders store := by
  intro id call writer hcall hwaits
  obtain ⟨rest, hstage⟩ := joining_of_waitsFor hwaits
  refine ⟨fun holder holderCall hholder hmem => hsound.inFlight hcall hwaits hholder hmem, ?_⟩
  rintro hreturned (⟨⟨book, other⟩, hbook, rfl⟩ | ⟨⟨holder, holderCall⟩, hholder, hmem⟩)
  · exact (((hsound.calls id call hcall).joining _ hstage).2.2 other List.mem_cons_self).2 book
      (HashMap.mem_sorted.1 hbook)
  · have hlookup := HashMap.mem_sorted.1 hholder
    exact hreturned holder holderCall hlookup (hsound.inFlight hcall hwaits hlookup hmem) hmem

theorem isSubscribe_of_parked {call : Call} (hparked : Parked store call = true) :
    call.op.isSubscribe = true := by
  unfold Parked at hparked
  split at hparked
  · next hop _ _ => rw [hop]; rfl
  · cases hparked

/-- A parked stream goes on only when its writer has broadcast something. -/
theorem poll_of_parked {id : ℕ} {call : Call} (hcall : store.calls.lookup id = some call)
    (hparked : Parked store call = true) (io : PollIo) : store.poll id io = none := by
  unfold Parked at hparked
  split at hparked
  · next hop hstage hacquired =>
      have hreceived := of_decide_eq_true hparked
      simp [poll, hcall, hstage, pollTailing, hacquired, hreceived.not_gt]
  · cases hparked

/-- While every sender is that of a call in flight, nothing is stuck. -/
theorem LastSenders.not_stuck (hlast : LastSenders store) : ¬ Stuck store := by
  rintro ⟨⟨id, call⟩, hcall, writer, hwaits, -, -, hsender, hmap, hparked⟩
  rcases hsender with ⟨book, hbook, hwriter⟩ | ⟨⟨holder, holderCall⟩, hholder, hmem⟩
  · exact hmap book hbook hwriter
  · have hflight := (hlast id call writer (HashMap.mem_sorted.1 hcall) hwaits).1 holder holderCall
      (HashMap.mem_sorted.1 hholder) hmem
    have hsub := isSubscribe_of_parked (hparked (holder, holderCall) hholder hmem)
    rw [hflight.1] at hsub
    cases hsub

end Runs

/-- As long as no subscription holds a writer of the map when it is drained,
`shutdown` never waits for a writer that waits for it. -/
theorem shutdown_not_stuck (events : List Event)
    (hdrains : StepsMeet step DrainsNoSubscription fresh events) :
    StatesMeet step (fun store => ¬ Stuck store ∧ LastSenders store) fresh events := by
  have hkeeps : ∀ store event next, HandlesSound store → DrainsNoSubscription store event →
      step store event = some next → HandlesSound next :=
    fun _ _ _ hsound hcond hstep => hsound.step hcond hstep
  exact statesMeet_of_invariant hkeeps
    (fun _ hsound => ⟨hsound.lastSenders.not_stuck, hsound.lastSenders⟩) .fresh hdrains

namespace StreamGone

/-- A stream is dropped before the store is shut down, while a call still holds
its writer. -/
def run : List Event :=
  .call 0 (.subscribe "eur") :: polls 0 7 ++ .call 1 (.read "eur") :: polls 1 4 ++ [.cancel 0] ++
    .call 2 .shutdown :: polls 2 1 ++ [.poll 2 ⟨true, ["eur"]⟩] ++ polls 1 1 ++ [.exit 0] ++
    polls 2 2

end StreamGone

theorem shutdown_not_stuck_streamGone :
    StepsMeet step DrainsNoSubscription fresh StreamGone.run ∧
      StatesMeet step (fun store => ¬ Stuck store ∧ LastSenders store) fresh StreamGone.run :=
  have hdrains : StepsMeet step DrainsNoSubscription fresh StreamGone.run := by decide +kernel
  ⟨hdrains, shutdown_not_stuck StreamGone.run hdrains⟩

namespace StreamLeft

/-- An asset is registered and a stream tails the system book; then the store is
shut down. -/
def run : List Event :=
  .call 0 (.registerAsset ⟨⟨"EUR"⟩, .fiat, 2, "euro"⟩) :: polls 0 9 ++ serves 0 ++ polls 0 2 ++
    .call 1 (.subscribe "_system") :: polls 1 5 ++
    .call 2 .shutdown :: polls 2 1 ++ [.poll 2 ⟨true, ["_system"]⟩]

theorem run_stuck : ∃ store ∈ execSteps step fresh run, Stuck store := by
  decide +kernel

end StreamLeft

/-- With a live stream, `shutdown` waits for the writer, and the writer for the
stream, which waits for the writer. -/
theorem shutdown_stuck :
    (¬ ∀ events, StatesMeet step (fun store => ¬ Stuck store) fresh events) ∧
      ¬ ∀ events, StatesMeet step LastSenders fresh events := by
  obtain ⟨store, hexec, hstuck⟩ := StreamLeft.run_stuck
  constructor
  · intro hall
    exact (hall StreamLeft.run).last hexec hstuck
  · intro hall
    exact ((hall StreamLeft.run).last hexec).not_stuck hstuck

end Talea.Log
