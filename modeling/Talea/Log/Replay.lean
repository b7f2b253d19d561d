import Talea.Lib.ExceptFold
import Talea.Log.State

/-!
# Replaying events

The writer and recovery apply events by one function.  Two of its inputs do not
decide whether it succeeds or what it does to the ledger: the idempotency index
only collects the committed keys, and a frame's position only ends up in the
map of transaction positions.
-/

namespace Talea.Log

/-! ## The events of a replay -/

/-- The committed keys of a list of events, with the answers they received. -/
def commitsOf (events : List WireEvent) : List (String × Committed) :=
  events.filterMap WireEvent.committed

@[simp]
theorem commitsOf_append (left right : List WireEvent) :
    commitsOf (left ++ right) = commitsOf left ++ commitsOf right := by
  simp [commitsOf]

theorem commitsOf_cons (ev : WireEvent) (events : List WireEvent) :
    commitsOf (ev :: events) = ev.committed.toList ++ commitsOf events := by
  rw [commitsOf, List.filterMap_cons]
  cases ev.committed <;> rfl

/-- What applying an event does to the idempotency index. -/
def TieredIdem.record (idem : TieredIdem) (ev : WireEvent) : TieredIdem :=
  match ev.committed with
  | some (key, committed) => idem.insert key committed
  | none => idem

namespace BookState

def withIdem (state : BookState) (idem : TieredIdem) : BookState :=
  { state with idem }

def withTxids (state : BookState) (txids : HashMap ℕ (Int × FramePos)) : BookState :=
  { state with txids }

/-- The state without its idempotency index. -/
def forgetIdem (state : BookState) : BookState :=
  state.withIdem (.withCap 0)

@[simp]
theorem withIdem_self (state : BookState) : state.withIdem state.idem = state := rfl

@[simp]
theorem withIdem_withIdem (state : BookState) (first second : TieredIdem) :
    (state.withIdem first).withIdem second = state.withIdem second := rfl

@[simp]
theorem forgetIdem_withIdem (state : BookState) (idem : TieredIdem) :
    (state.withIdem idem).forgetIdem = state.forgetIdem := rfl

@[simp]
theorem idem_withIdem (state : BookState) (idem : TieredIdem) :
    (state.withIdem idem).idem = idem := rfl

theorem forgetIdem_eq_iff {left right : BookState} :
    left.forgetIdem = right.forgetIdem ↔ left = right.withIdem left.idem := by
  constructor
  · intro heq
    have := congrArg (fun state : BookState => state.withIdem left.idem) heq
    simpa [forgetIdem] using this
  · intro heq
    rw [heq]
    simp [forgetIdem]

theorem applyPosting_withIdem (tx : Transaction) (seq time : Int) (state : BookState)
    (idem : TieredIdem) (posting : Posting) :
    applyPosting tx seq time (state.withIdem idem) posting =
      (applyPosting tx seq time state posting).map fun next => next.withIdem idem := by
  simp only [applyPosting, withIdem]
  cases state.accounts.lookup posting.account.toKey with
  | none => rfl
  | some acct =>
      dsimp only
      cases Direction.move posting.direction acct.rawBalance posting.amount.minor <;> rfl

theorem applyPosting_withTxids (tx : Transaction) (seq time : Int) (state : BookState)
    (txids : HashMap ℕ (Int × FramePos)) (posting : Posting) :
    applyPosting tx seq time (state.withTxids txids) posting =
      (applyPosting tx seq time state posting).map fun next => next.withTxids txids := by
  simp only [applyPosting, withTxids]
  cases state.accounts.lookup posting.account.toKey with
  | none => rfl
  | some acct =>
      dsimp only
      cases Direction.move posting.direction acct.rawBalance posting.amount.minor <;> rfl

/-- Applying an event treats the rest of the state the same whatever the index
is, and records the committed key in the index. -/
theorem applyEvent_withIdem (state : BookState) (idem : TieredIdem)
    (item : WireEvent × FramePos) :
    (state.withIdem idem).applyEvent item =
      (state.applyEvent item).map fun next => next.withIdem (idem.record item.1) := by
  obtain ⟨⟨seq, time, event⟩, pos⟩ := item
  cases event with
  | assetRegistered asset => rfl
  | accountOpened account cfg => rfl
  | transactionPosted tx =>
      have hfold := foldlM_map_of_step
        (fun state posting => applyPosting_withIdem tx seq time state idem posting)
        tx.postings state
      simp only [applyEvent, tryApplyTransaction, hfold]
      cases tx.postings.foldlM (applyPosting tx seq time) state <;> rfl

theorem idem_of_applyEvent {state next : BookState} {item : WireEvent × FramePos}
    (happly : state.applyEvent item = .ok next) : next.idem = state.idem.record item.1 := by
  have heq := applyEvent_withIdem state state.idem item
  rw [withIdem_self, happly] at heq
  exact congrArg BookState.idem (Except.ok.inj heq)

/-- The position of a frame only shows in the map of transaction positions. -/
theorem applyEvent_withTxids (state : BookState) (txids : HashMap ℕ (Int × FramePos))
    (ev : WireEvent) (pos pos' : FramePos) :
    ∃ recorded, (state.withTxids txids).applyEvent (ev, pos') =
      (state.applyEvent (ev, pos)).map fun next => next.withTxids recorded := by
  obtain ⟨seq, time, event⟩ := ev
  cases event with
  | assetRegistered asset => exact ⟨txids, rfl⟩
  | accountOpened account cfg => exact ⟨txids, rfl⟩
  | transactionPosted tx =>
      have hfold := foldlM_map_of_step
        (fun state posting => applyPosting_withTxids tx seq time state txids posting)
        tx.postings state
      refine ⟨txids.insert tx.id.uuid (seq, pos'), ?_⟩
      simp only [applyEvent, tryApplyTransaction, hfold]
      cases tx.postings.foldlM (applyPosting tx seq time) state <;> rfl

theorem nextSeq_of_applyEvent {state next : BookState} {item : WireEvent × FramePos}
    (happly : state.applyEvent item = .ok next) :
    next.nextSeq = item.1.seq + 1 ∧ next.lastAt = some item.1.at' := by
  obtain ⟨⟨seq, time, event⟩, pos⟩ := item
  cases event with
  | assetRegistered asset => cases happly; exact ⟨rfl, rfl⟩
  | accountOpened account cfg => cases happly; exact ⟨rfl, rfl⟩
  | transactionPosted tx =>
      obtain ⟨applied, -, hnext⟩ := Except.bind_eq_ok.1 happly
      cases hnext
      exact ⟨rfl, rfl⟩

/-! ## Replays -/

@[simp]
theorem replay_nil (state : BookState) : state.replay [] = .ok state := rfl

theorem replay_cons (state : BookState) (item : WireEvent × FramePos)
    (items : List (WireEvent × FramePos)) :
    state.replay (item :: items) = (state.applyEvent item >>= fun next => next.replay items) :=
  List.foldlM_cons ..

theorem replay_append (state : BookState) (left right : List (WireEvent × FramePos)) :
    state.replay (left ++ right) = (state.replay left >>= fun mid => mid.replay right) :=
  List.foldlM_append ..

theorem replay_append_eq_ok {state final : BookState}
    {left right : List (WireEvent × FramePos)} :
    state.replay (left ++ right) = .ok final ↔
      ∃ mid, state.replay left = .ok mid ∧ mid.replay right = .ok final := by
  rw [replay_append, Except.bind_eq_ok]

theorem replay_concat_eq_ok {state final : BookState} {items : List (WireEvent × FramePos)}
    {item : WireEvent × FramePos} :
    state.replay (items ++ [item]) = .ok final ↔
      ∃ mid, state.replay items = .ok mid ∧ mid.applyEvent item = .ok final := by
  rw [replay_append_eq_ok]
  simp only [replay_cons, Except.bind_eq_ok, replay_nil, Except.ok.injEq, exists_eq_right]

/-- The index after a replay: every committed key recorded in turn. -/
theorem replay_withIdem (state : BookState) (idem : TieredIdem)
    (items : List (WireEvent × FramePos)) :
    (state.withIdem idem).replay items =
      (state.replay items).map fun next =>
        next.withIdem ((items.map Prod.fst).foldl TieredIdem.record idem) := by
  induction items generalizing state idem with
  | nil => rfl
  | cons item items ih =>
      rw [replay_cons, applyEvent_withIdem, replay_cons]
      cases state.applyEvent item with
      | error err => rfl
      | ok next => exact ih next (idem.record item.1)

theorem idem_of_replay {state next : BookState} {items : List (WireEvent × FramePos)}
    (hreplay : state.replay items = .ok next) :
    next.idem = (items.map Prod.fst).foldl TieredIdem.record state.idem := by
  have heq := replay_withIdem state state.idem items
  rw [withIdem_self, hreplay] at heq
  exact congrArg BookState.idem (Except.ok.inj heq)

/-- Two states with the same ledger replay to states with the same ledger. -/
theorem replay_forgetIdem {left right final : BookState}
    (hsame : left.forgetIdem = right.forgetIdem) {items : List (WireEvent × FramePos)}
    (hreplay : left.replay items = .ok final) :
    ∃ other, right.replay items = .ok other ∧ other.forgetIdem = final.forgetIdem := by
  rw [eq_comm, forgetIdem_eq_iff] at hsame
  rw [hsame, replay_withIdem, hreplay]
  exact ⟨_, rfl, rfl⟩

/-- Whether a replay succeeds does not depend on the positions of the
frames. -/
theorem replay_of_same_events {left right : List (WireEvent × FramePos)}
    (hevents : left.map Prod.fst = right.map Prod.fst) {state final : BookState}
    (hreplay : state.replay left = .ok final) (txids : HashMap ℕ (Int × FramePos)) :
    ∃ recorded, (state.withTxids txids).replay right = .ok (final.withTxids recorded) := by
  induction left generalizing right state txids with
  | nil =>
      obtain rfl : right = [] := by simpa using hevents.symm
      cases hreplay
      exact ⟨txids, rfl⟩
  | cons item left ih =>
      obtain ⟨ev, pos⟩ := item
      cases right with
      | nil => simp at hevents
      | cons other right =>
          obtain ⟨ev', pos'⟩ := other
          obtain ⟨rfl, hrest⟩ := List.cons.inj hevents
          obtain ⟨next, happly, hreplay⟩ := Except.bind_eq_ok.1 ((replay_cons ..).symm.trans hreplay)
          obtain ⟨recorded, hstep⟩ := applyEvent_withTxids state txids ev pos pos'
          obtain ⟨final', hfinal⟩ := ih hrest hreplay recorded
          refine ⟨final', ?_⟩
          rw [replay_cons, hstep, happly]
          exact hfinal

theorem replay_isOk_of_same_events {left right : List (WireEvent × FramePos)}
    (hevents : left.map Prod.fst = right.map Prod.fst) {state final : BookState}
    (hreplay : state.replay left = .ok final) : ∃ other, state.replay right = .ok other :=
  let ⟨_, hother⟩ := replay_of_same_events hevents hreplay state.txids
  ⟨_, hother⟩

/-- The seq and the clock floor after a replay are those of its last event. -/
theorem nextSeq_of_replay {state final : BookState} {items : List (WireEvent × FramePos)}
    (hreplay : state.replay items = .ok final) (hne : items ≠ []) :
    final.nextSeq = (items.getLast hne).1.seq + 1 ∧
      final.lastAt = some (items.getLast hne).1.at' := by
  obtain ⟨mid, -, happly⟩ :=
    replay_concat_eq_ok.1 ((List.dropLast_append_getLast hne).symm ▸ hreplay)
  exact nextSeq_of_applyEvent happly

end BookState

end Talea.Log
