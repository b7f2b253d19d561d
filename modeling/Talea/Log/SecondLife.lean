import Talea.Log.CallSteps
import Talea.Log.Invariant
import Talea.Log.Sequencing

/-!
# One writer for each directory

A writer counts its seqs from its own state, so a directory must not get a
second writer that starts from an empty state.  The map of the books prevents
that while it holds every writer.  `shutdown` sets its flag and then takes the
writers out of the map; but `book_writer` looks at the flag before it waits for
the lock of the map, and `subscribe` does not look at it at all.  A call that
misses the map behind the drain finds a book with events in it and creates it
again.
-/

namespace Talea.Log

open LogTaleaStore

/-! ## Logs and their writers -/

/-- Every directory with events has its one writer, and a live writer continues
the seqs of its log. -/
structure LogsSound (writers : List WriterTask) (log : String → List WireEvent) : Prop where
  nodup : (writers.map WriterTask.dir).Nodup
  named : ∀ task ∈ writers, task.dir ≠ ""
  found : ∀ dir, log dir ≠ [] → ∃ task ∈ writers, task.dir = dir
  numbered : ∀ dir, Numbered 1 (log dir)
  nextSeq : ∀ task ∈ writers, task.exited = false →
    task.state.nextSeq = (log task.dir).length + 1

namespace LogsSound

variable {writers : List WriterTask} {log log' : String → List WireEvent}

theorem log_eq_nil (hsound : LogsSound writers log) {dir : String}
    (hnone : ∀ task ∈ writers, task.dir ≠ dir) : log dir = [] := by
  by_contra hevents
  obtain ⟨task, hmem, hdir⟩ := hsound.found dir hevents
  exact hnone task hmem hdir

/-- A writer for a directory that has had none. -/
theorem spawn (hsound : LogsSound writers log) {dir : String} (hnamed : dir ≠ "")
    (hnone : ∀ task ∈ writers, task.dir ≠ dir) :
    LogsSound (writers ++ [.spawn dir .initial]) log where
  nodup := by
    rw [List.map_append, List.nodup_append]
    refine ⟨hsound.nodup, List.nodup_singleton _, ?_⟩
    rintro _ hold _ hnew
    obtain ⟨task, hmem, rfl⟩ := List.mem_map.1 hold
    rw [List.map_singleton, List.mem_singleton] at hnew
    rw [hnew]
    exact hnone task hmem
  named task hmem := by
    rcases List.mem_append.1 hmem with hold | hnew
    · exact hsound.named task hold
    · rw [List.mem_singleton.1 hnew]
      exact hnamed
  found other hevents := by
    obtain ⟨task, hmem, hdir⟩ := hsound.found other hevents
    exact ⟨task, List.mem_append_left _ hmem, hdir⟩
  numbered := hsound.numbered
  nextSeq task hmem hlive := by
    rcases List.mem_append.1 hmem with hold | hnew
    · exact hsound.nextSeq task hold hlive
    · rw [List.mem_singleton.1 hnew]
      have hempty : log dir = [] := hsound.log_eq_nil hnone
      simp [WriterTask.spawn, hempty, BookState.initial]

theorem map_dir_set {writer : ℕ} {task next : WriterTask} (htask : writers[writer]? = some task)
    (hdir : next.dir = task.dir) :
    (writers.set writer next).map WriterTask.dir = writers.map WriterTask.dir := by
  obtain ⟨hbound, hget⟩ := List.getElem?_eq_some_iff.1 htask
  have hmapped : writer < (writers.map WriterTask.dir).length := by rwa [List.length_map]
  have hold : next.dir = (writers.map WriterTask.dir)[writer] := by
    rw [List.getElem_map, hget, hdir]
  rw [List.map_set, hold]
  exact List.set_getElem_self hmapped

/-- A task of a changed list is the new one, or has another directory. -/
theorem mem_set (hnodup : (writers.map WriterTask.dir).Nodup) {writer : ℕ}
    {task next other : WriterTask} (htask : writers[writer]? = some task)
    (hmem : other ∈ writers.set writer next) :
    other = next ∨ (other ∈ writers ∧ other.dir ≠ task.dir) := by
  obtain ⟨idx, hidx⟩ := List.mem_iff_getElem?.1 hmem
  rw [List.getElem?_set] at hidx
  split at hidx
  · split at hidx
    · exact Or.inl (Option.some.inj hidx).symm
    · cases hidx
  · next hne =>
      refine Or.inr ⟨List.mem_of_getElem? hidx, fun hsame => hne ?_⟩
      have hbound : writer < (writers.map WriterTask.dir).length := by
        rw [List.length_map]
        exact (List.getElem?_eq_some_iff.1 htask).1
      refine (List.getElem?_inj hbound hnodup).1 ?_
      rw [List.getElem?_map, List.getElem?_map, htask, hidx, Option.map_some, Option.map_some,
        hsame]

/-- A live writer appends events behind its next seq. -/
theorem append (hsound : LogsSound writers log) {writer : ℕ} {task next : WriterTask}
    (htask : writers[writer]? = some task) (hlive : task.exited = false) (hdir : next.dir = task.dir)
    {wires : List WireEvent} (hwires : Numbered task.state.nextSeq wires)
    (hnext : next.exited = false → next.state.nextSeq = task.state.nextSeq + wires.length)
    (hlog : ∀ dir, log' dir = if dir = task.dir then log dir ++ wires else log dir) :
    LogsSound (writers.set writer next) log' := by
  have hmem : task ∈ writers := List.mem_of_getElem? htask
  have hseq := hsound.nextSeq task hmem hlive
  have hdirs := map_dir_set htask hdir
  have hother : ∀ dir, (∃ other ∈ writers, other.dir = dir) →
      ∃ other ∈ writers.set writer next, other.dir = dir := by
    intro dir hdir
    simpa [← List.mem_map, hdirs] using hdir
  constructor
  · rw [hdirs]
    exact hsound.nodup
  · intro other hin
    rcases mem_set hsound.nodup htask hin with rfl | ⟨hold, -⟩
    · rw [hdir]
      exact hsound.named task hmem
    · exact hsound.named other hold
  · intro dir hevents
    refine hother dir ?_
    rw [hlog] at hevents
    split at hevents
    · next heq => exact ⟨task, hmem, heq.symm⟩
    · exact hsound.found dir hevents
  · intro dir
    rw [hlog]
    split
    · next heq =>
        rw [numbered_append, heq, add_comm, ← hseq]
        exact ⟨hsound.numbered task.dir, hwires⟩
    · exact hsound.numbered dir
  · intro other hin halive
    rcases mem_set hsound.nodup htask hin with rfl | ⟨hold, hne⟩
    · rw [hnext halive, hlog, if_pos hdir, hdir, hseq, List.length_append]
      push_cast
      ring
    · rw [hlog, if_neg hne]
      exact hsound.nextSeq other hold halive

/-- A writer changes and its log does not. -/
theorem set (hsound : LogsSound writers log) {writer : ℕ} {task next : WriterTask}
    (htask : writers[writer]? = some task) (hlive : task.exited = false) (hdir : next.dir = task.dir)
    (hnext : next.exited = false → next.state = task.state) :
    LogsSound (writers.set writer next) log := by
  have hnone : Numbered task.state.nextSeq [] := trivial
  refine hsound.append htask hlive hdir hnone (fun halive => ?_) fun dir => ?_
  · rw [hnext halive]
    simp
  · simp

/-- The tasks that opening starts for the directories of the logs. -/
theorem restart {store : LogTaleaStore} (hsound : LogsSound writers store.log)
    {order : List String} {tasks : List WriterTask} (hnodup : order.Nodup) (hnamed : "" ∉ order)
    (hfound : ∀ dir, store.log dir ≠ [] → dir ∈ order)
    (htasks : List.Forall₂ (StartsOn store) order tasks) : LogsSound tasks store.log := by
  have hdirs := map_dir_of_startsOn htasks
  constructor
  · rwa [hdirs]
  · intro task hmem heq
    refine hnamed ?_
    rw [← hdirs, ← heq]
    exact List.mem_map_of_mem hmem
  · intro dir hevents
    have hin := hfound dir hevents
    rw [← hdirs] at hin
    exact List.mem_map.1 hin
  · exact hsound.numbered
  · intro task hmem _
    obtain ⟨state, hreplay, htask⟩ := startsOn_of_mem htasks hmem
    have hnumbered : Numbered 1
        (((store.log task.dir).map fun wire => (wire, ((0, 0) : FramePos))).map Prod.fst) := by
      simpa [Function.comp_def] using hsound.numbered task.dir
    have hseq := BookState.nextSeq_of_replay_initial hnumbered hreplay
    rw [htask, List.length_map] at *
    exact hseq

end LogsSound

/-! ## The invariant of the store -/

/-- A book that the store has had no writer for. -/
def NewBook (store : LogTaleaStore) (book : String) : Prop :=
  bookDir book ≠ "" ∧ ∀ task ∈ store.writers, task.dir ≠ bookDir book

/-- What is known of a call at a stage. -/
def Call.Sound (store : LogTaleaStore) (id : ℕ) (call : Call) : Prop :=
  match call.stage with
  | .fast | .slow => ∀ book, call.target = some book → validateBookName book = true
  | .creating => store.booksWriter = some id ∧
      ∀ book, call.target = some book → book ≠ "." ∧ NewBook store book
  | .draining => store.shutDown = true
  | _ => True

structure StoreSound (store : LogTaleaStore) : Prop where
  logs : LogsSound store.writers store.log
  calls : ∀ id call, store.calls.lookup id = some call → call.Sound store id
  held : store.shutDown = false → ∀ task ∈ store.writers, task.dir ∈ store.books

section Sound

variable {store next : LogTaleaStore} {id : ℕ} {call : Call}

theorem newBook_congr (hdirs : next.writers.map WriterTask.dir = store.writers.map WriterTask.dir)
    {book : String} : NewBook next book ↔ NewBook store book := by
  have hmem : ∀ dir, (∀ task ∈ next.writers, task.dir ≠ dir) ↔
      ∀ task ∈ store.writers, task.dir ≠ dir := by
    intro dir
    simpa using not_congr (show dir ∈ next.writers.map WriterTask.dir ↔
      dir ∈ store.writers.map WriterTask.dir by rw [hdirs])
  rw [NewBook, NewBook, hmem]

/-- What is known of a call stays, as long as nothing takes its lock or spawns
writers under it. -/
theorem Call.Sound.mono (hsound : call.Sound store id)
    (hlock : store.booksWriter = some id → next.booksWriter = some id ∧
      next.writers.map WriterTask.dir = store.writers.map WriterTask.dir)
    (hflag : store.shutDown = true → next.shutDown = true) : call.Sound next id := by
  unfold Call.Sound at hsound ⊢
  cases hstage : call.stage with
  | creating =>
      rw [hstage] at hsound
      obtain ⟨hkept, hdirs⟩ := hlock hsound.1
      exact ⟨hkept, fun book htarget =>
        (hsound.2 book htarget).imp_right (newBook_congr hdirs).2⟩
  | draining =>
      rw [hstage] at hsound
      exact hflag hsound
  | _ =>
      rw [hstage] at hsound
      exact hsound

theorem lookup_setCall (other : ℕ) :
    (store.setCall id call).calls.lookup other =
      if other = id then some call else store.calls.lookup other :=
  HashMap.lookup_insert_ite ..

/-- One call changes; the others are not concerned. -/
theorem StoreSound.ofCall (hsound : StoreSound store)
    (hcalls : next.calls = store.calls.insert id call) (hcall : call.Sound next id)
    (hothers : ∀ other, other ≠ id → store.booksWriter = some other →
      next.booksWriter = some other ∧
        next.writers.map WriterTask.dir = store.writers.map WriterTask.dir)
    (hflag : store.shutDown = true → next.shutDown = true)
    (hlogs : LogsSound next.writers next.log)
    (hheld : next.shutDown = false → ∀ task ∈ next.writers, task.dir ∈ next.books) :
    StoreSound next where
  logs := hlogs
  calls other otherCall hother := by
    rw [hcalls, HashMap.lookup_insert_ite] at hother
    split at hother
    · next heq =>
        cases hother
        rwa [heq]
    · next hne => exact (hsound.calls other otherCall hother).mono (hothers other hne) hflag
  held := hheld

/-- One writer changes. -/
theorem StoreSound.ofWriters (hsound : StoreSound store) (hcalls : next.calls = store.calls)
    (hlock : next.booksWriter = store.booksWriter) (hflag : next.shutDown = store.shutDown)
    (hbooks : next.books = store.books)
    (hdirs : next.writers.map WriterTask.dir = store.writers.map WriterTask.dir)
    (hlogs : LogsSound next.writers next.log) : StoreSound next where
  logs := hlogs
  calls other otherCall hother := by
    rw [hcalls] at hother
    exact (hsound.calls other otherCall hother).mono (fun h => ⟨hlock.trans h, hdirs⟩)
      fun h => hflag.trans h
  held hopen task hmem := by
    have hin : task.dir ∈ store.writers.map WriterTask.dir := by
      rw [← hdirs]
      exact List.mem_map_of_mem hmem
    obtain ⟨old, hold, heq⟩ := List.mem_map.1 hin
    rw [hbooks, ← heq]
    exact hsound.held (hflag.symm.trans hopen) old hold

theorem Call.Sound.moves {moved : Call} (hsound : call.Sound store id)
    (hmove : Moves store call moved) : moved.Sound store id := by
  cases hmove with
  | @go stage hstage =>
      unfold Call.Sound
      cases stage <;> trivial
  | @looks book htarget hvalid =>
      intro other hother
      rw [show call.target = some other from hother] at htarget
      cases htarget
      exact hvalid
  | misses hstage =>
      unfold Call.Sound at hsound
      rw [hstage] at hsound
      exact hsound
  | finish => trivial
  | acquire hresult => trivial
  | refuse => exact hsound

end Sound

/-! ## Steps -/

/-- A call that has the lock of the map and misses it looks for another name
than `.`, and when the flag is set, for a book whose directory the store has
had no writer for. -/
def MissesNewBook (store : LogTaleaStore) : Event → Prop
  | .poll id _ => ∀ call ∈ store.calls.lookup id, call.stage.isSlow = true →
      ∀ book ∈ call.target, store.books.lookup book = none →
        book ≠ "." ∧ (store.shutDown = true → ∀ task ∈ store.writers, task.dir ≠ bookDir book)
  | _ => True

instance (store : LogTaleaStore) : ∀ event, Decidable (MissesNewBook store event)
  | .poll id _ => inferInstanceAs (Decidable (∀ call ∈ store.calls.lookup id,
      call.stage.isSlow = true → ∀ book ∈ call.target, store.books.lookup book = none →
        book ≠ "." ∧ (store.shutDown = true → ∀ task ∈ store.writers, task.dir ≠ bookDir book)))
  | .call _ _ | .cancel _ | .take _ _ | .write _ _ | .fail _ _ _ | .answer _ | .exit _
  | .restart _ _ => isTrue trivial

section Steps

variable {store next : LogTaleaStore}

theorem bookDir_of_ne_dot {book : String} (hdot : book ≠ ".") : bookDir book = book :=
  if_neg hdot

theorem StoreSound.newBook (hsound : StoreSound store) {book : String} (hdot : book ≠ ".")
    (hvalid : validateBookName book = true) (hmiss : store.books.lookup book = none)
    (hflag : store.shutDown = true → ∀ task ∈ store.writers, task.dir ≠ bookDir book) :
    NewBook store book := by
  have hdir := bookDir_of_ne_dot hdot
  unfold NewBook
  rw [hdir] at hflag ⊢
  refine ⟨(of_decide_eq_true hvalid).1, fun task hmem heq => ?_⟩
  cases hopen : store.shutDown with
  | true => exact hflag hopen task hmem heq
  | false =>
      refine Finmap.lookup_eq_none.1 hmiss ?_
      rw [← heq]
      exact hsound.held hopen task hmem

theorem log_spawnBook (book dir : String) : (store.spawnBook book).log dir = store.log dir := by
  unfold LogTaleaStore.log spawnBook
  rw [HashMap.lookup_insert_ite]
  split
  · next heq => rw [heq]; rfl
  · rfl

theorem log_append (dir other : String) (wires : List WireEvent) :
    (store.append dir wires).log other =
      if other = dir then store.log other ++ wires else store.log other := by
  unfold LogTaleaStore.log append
  rw [HashMap.lookup_insert_ite]
  split
  · next heq => rw [heq]; rfl
  · rfl

theorem StoreSound.poll (hsound : StoreSound store) {id : ℕ} {io : PollIo}
    (hnew : MissesNewBook store (.poll id io)) (hpoll : store.poll id io = some next) :
    StoreSound next := by
  obtain ⟨call, hcall, hstep⟩ := poll_cases hpoll
  have hcallSound := hsound.calls id call hcall
  cases hstep with
  | moves hfrom hmove =>
      exact hsound.ofCall rfl (hcallSound.moves hmove) (fun _ _ h => ⟨h, rfl⟩) (fun h => h)
        hsound.logs hsound.held
  | closes hop hfrom =>
      exact hsound.ofCall rfl rfl (fun _ _ h => ⟨h, rfl⟩) (fun _ => rfl) hsound.logs nofun
  | locksRegistry hop hstage hfree hmiss =>
      exact hsound.ofCall rfl trivial (fun _ _ h => ⟨h, rfl⟩) (fun h => h) hsound.logs hsound.held
  | @locksBooks book hstage hfree htarget hmiss =>
      obtain ⟨hdot, hflag⟩ := hnew call hcall (by rw [hstage]; rfl) book htarget hmiss
      have hvalid : validateBookName book = true := by
        unfold Call.Sound at hcallSound
        rw [hstage] at hcallSound
        exact hcallSound book htarget
      refine hsound.ofCall rfl ⟨rfl, fun other hother => ?_⟩ (fun _ _ h => ?_) (fun h => h)
        hsound.logs hsound.held
      · rw [show call.target = some other from hother] at htarget
        cases htarget
        exact ⟨hdot, hsound.newBook hdot hvalid hmiss hflag⟩
      · rw [hfree] at h
        cases h
  | @spawns book hstage htarget =>
      unfold Call.Sound at hcallSound
      rw [hstage] at hcallSound
      obtain ⟨hlock, hbook⟩ := hcallSound
      obtain ⟨hdot, hnamed, hnone⟩ := hbook book htarget
      refine hsound.ofCall rfl trivial (fun other hne h => ?_) (fun h => h) ?_ ?_
      · rw [hlock] at h
        exact absurd (Option.some.inj h).symm hne
      · have hlogs := hsound.logs.spawn hnamed hnone
        have hsame : (store.spawnBook book).log = store.log := funext (log_spawnBook book)
        exact hsame ▸ hlogs
      · intro hopen task hmem
        rcases List.mem_append.1 hmem with hold | hnew
        · exact Finmap.mem_insert.2 (Or.inr (hsound.held hopen task hold))
        · rw [List.mem_singleton.1 hnew]
          exact Finmap.mem_insert.2 (Or.inl (bookDir_of_ne_dot hdot))
  | spawnFails hstage =>
      unfold Call.Sound at hcallSound
      rw [hstage] at hcallSound
      refine hsound.ofCall rfl trivial (fun other hne h => ?_) (fun h => h) hsound.logs hsound.held
      rw [hcallSound.1] at h
      exact absurd (Option.some.inj h).symm hne
  | submits hstage hwriter htarget =>
      refine hsound.ofCall rfl ?_ (fun _ _ h => ⟨h, rfl⟩) (fun h => h) hsound.logs hsound.held
      simp [Call.Sound, hstage]
  | @returns idx hstage hlast =>
      unfold LogTaleaStore.returns
      dsimp only
      split
      · exact hsound.ofCall rfl trivial (fun _ _ h => ⟨h, rfl⟩) (fun h => h) hsound.logs
          hsound.held
      · exact hsound.ofCall rfl trivial (fun _ _ h => ⟨h, rfl⟩) (fun h => h) hsound.logs
          hsound.held
  | drains hstage hfree hnodup hkeys =>
      have hflag : store.shutDown = true := by
        unfold Call.Sound at hcallSound
        rwa [hstage] at hcallSound
      refine hsound.ofCall rfl trivial (fun _ _ h => ⟨h, rfl⟩) (fun h => h) hsound.logs
        fun hopen => ?_
      rw [show store.shutDown = false from hopen] at hflag
      cases hflag
  | joins hstage =>
      exact hsound.ofCall rfl trivial (fun _ _ h => ⟨h, rfl⟩) (fun h => h) hsound.logs hsound.held
  | unlocks hstage =>
      exact hsound.ofCall rfl trivial (fun _ _ h => ⟨h, rfl⟩) (fun h => h) hsound.logs hsound.held

theorem StoreSound.cancel (hsound : StoreSound store) {id : ℕ}
    (hcancel : store.cancel id = some next) : StoreSound next := by
  obtain ⟨call, -, rfl⟩ := cancel_cases hcancel
  refine hsound.ofCall rfl trivial (fun other hne h => ⟨?_, rfl⟩) (fun h => h) hsound.logs
    hsound.held
  dsimp only
  rw [if_neg, h]
  rw [h]
  exact fun heq => hne (Option.some.inj heq)

/-- A live writer dies, and what it has written stays. -/
theorem StoreSound.kill (hsound : StoreSound store) {writer : ℕ} {task : WriterTask}
    (hlive : store.live writer = some task) {wires : List WireEvent}
    (hwires : Numbered task.state.nextSeq wires) : StoreSound (store.kill writer task wires) := by
  obtain ⟨htask, halive⟩ := live_eq_some.1 hlive
  exact hsound.ofWriters rfl rfl rfl rfl (LogsSound.map_dir_set htask rfl)
    (hsound.logs.append htask halive rfl hwires nofun (log_append task.dir · wires))

/-- Every step that meets the condition keeps the invariant. -/
theorem StoreSound.step (hsound : StoreSound store) {event : Event}
    (hnew : MissesNewBook store event) (hstep : store.step event = some next) :
    StoreSound next := by
  cases event with
  | call id op =>
      rw [(call_cases hstep).2]
      exact hsound.ofCall rfl trivial (fun _ _ h => ⟨h, rfl⟩) (fun h => h) hsound.logs hsound.held
  | poll id io => exact hsound.poll hnew hstep
  | cancel id => exact hsound.cancel hstep
  | take writer count =>
      rw [(take_cases hstep).1]
      exact hsound.ofWriters rfl rfl rfl rfl rfl hsound.logs
  | write writer io =>
      obtain ⟨task, hlive, -, rfl | ⟨batch, state, hbatch, happly, rfl⟩⟩ := write_cases hstep
      · exact hsound.kill hlive trivial
      · obtain ⟨htask, halive⟩ := live_eq_some.1 hlive
        have happlies := applies_classify hbatch
        have hseq : state.nextSeq = task.state.nextSeq + batch.wires.length := by
          have hnumbered : Numbered task.state.nextSeq
              ((batch.staged.map fun entry => (entry.wire, entry.pos)).map Prod.fst) := by
            rw [List.map_map]
            exact happlies.numbered
          rw [BookState.nextSeq_of_replay_numbered hnumbered happly, List.length_map,
            Classified.wires, List.length_map]
        exact hsound.ofWriters rfl rfl rfl rfl (LogsSound.map_dir_set htask rfl)
          (hsound.logs.append htask halive rfl happlies.numbered (fun _ => hseq)
            (log_append task.dir · batch.wires))
  | fail writer io kept =>
      obtain ⟨task, wires, hlive, -, rfl, rfl | ⟨batch, hbatch, rfl⟩⟩ := fail_cases hstep
      · exact hsound.kill hlive trivial
      · exact hsound.kill hlive
          ((applies_classify hbatch).numbered.of_isPrefix (List.take_prefix kept batch.wires))
  | answer writer =>
      obtain ⟨task, hlive, rfl⟩ := answer_cases hstep
      obtain ⟨htask, halive⟩ := live_eq_some.1 hlive
      exact hsound.ofWriters rfl rfl rfl rfl (LogsSound.map_dir_set htask rfl)
        (hsound.logs.set htask halive rfl fun _ => rfl)
  | exit writer =>
      obtain ⟨task, hlive, -, -, rfl⟩ := exit_cases hstep
      obtain ⟨htask, halive⟩ := live_eq_some.1 hlive
      exact hsound.ofWriters rfl rfl rfl rfl (LogsSound.map_dir_set htask rfl)
        (hsound.logs.set htask halive rfl fun hexited => Bool.noConfusion hexited)
  | restart order skipped =>
      obtain ⟨tasks, books, hnodup, hkeys, rfl, htasks, hnames, -⟩ := restart_cases hstep
      have hmem : ∀ dir, dir ∈ order ↔ dir ≠ "" ∧ dir ∈ store.logs := by
        intro dir
        rw [← List.mem_toFinset, hkeys, Finset.mem_erase, Finmap.mem_keys]
      constructor
      · refine hsound.logs.restart hnodup (fun hin => ((hmem "").1 hin).1 rfl) (fun dir hevents => ?_)
          htasks
        obtain ⟨task, htask, rfl⟩ := hsound.logs.found dir hevents
        refine (hmem task.dir).2 ⟨hsound.logs.named task htask, ?_⟩
        by_contra habsent
        exact hevents (by rw [LogTaleaStore.log, Finmap.lookup_eq_none.2 habsent]; rfl)
      · intro id call hcall
        simp [onLogs] at hcall
      · intro _ task htask
        refine hnames task.dir ?_
        rw [← map_dir_of_startsOn htasks]
        exact List.mem_map_of_mem htask

end Steps

/-! ## Runs -/

/-- The writers that a step starts. -/
def started (store next : LogTaleaStore) : Event → List WriterTask
  | .restart _ _ => next.writers
  | _ => next.writers.drop store.writers.length

/-- The step starts no writer over an empty state on a directory that holds
events. -/
def NoSecondLife (store : LogTaleaStore) (event : Event) : Prop :=
  ∀ next, store.step event = some next → ∀ task ∈ started store next event,
    task.state = .initial → store.log task.dir = []

/-- No log has a seq twice. -/
def SeqsOnce (store : LogTaleaStore) : Prop :=
  ∀ dir, ((store.log dir).map WireEvent.seq).Nodup

theorem StoreSound.fresh : StoreSound fresh where
  logs := ⟨List.nodup_nil, nofun, fun dir h => absurd rfl h, fun _ => trivial, nofun⟩
  calls id call hcall := by simp [LogTaleaStore.fresh, onLogs] at hcall
  held _ := nofun

section Runs

variable {store next : LogTaleaStore}

theorem StoreSound.seqsOnce (hsound : StoreSound store) : SeqsOnce store := by
  intro dir
  rw [(hsound.logs.numbered dir).map_seq]
  refine List.Nodup.map (fun left right heq => ?_) List.nodup_range
  simpa using heq

/-- Only a poll at the stage `creating` starts a writer, and opening. -/
theorem started_poll {id : ℕ} {io : PollIo} (hpoll : store.poll id io = some next)
    {task : WriterTask} (htask : task ∈ next.writers.drop store.writers.length) :
    ∃ call book, store.calls.lookup id = some call ∧ call.stage = .creating ∧
      call.target = some book ∧ task = .spawn (bookDir book) .initial := by
  obtain ⟨call, hcall, hstep⟩ := poll_cases hpoll
  cases hstep with
  | @spawns book hstage htarget =>
      refine ⟨call, book, hcall, hstage, htarget, ?_⟩
      simpa [setCall, spawnBook] using htask
  | returns hstage hlast =>
      unfold LogTaleaStore.returns at htask
      dsimp only at htask
      split at htask
      · simp [setCall] at htask
      · simp [setCall] at htask
  | _ => simp [setCall] at htask

theorem StoreSound.noSecondLife (hsound : StoreSound store) (event : Event) :
    NoSecondLife store event := by
  intro next hstep task htask hinitial
  have hkept : task ∉ store.writers.drop store.writers.length := by simp
  have hset : ∀ writer (other : WriterTask),
      task ∉ (store.writers.set writer other).drop store.writers.length := by
    intro writer other
    rw [List.drop_of_length_le (by rw [List.length_set])]
    exact List.not_mem_nil
  cases event with
  | call id op =>
      rw [(call_cases hstep).2] at htask
      exact absurd htask hkept
  | poll id io =>
      obtain ⟨call, book, hcall, hstage, htarget, rfl⟩ := started_poll hstep htask
      have hsafe := hsound.calls id call hcall
      unfold Call.Sound at hsafe
      rw [hstage] at hsafe
      exact hsound.logs.log_eq_nil (hsafe.2 book htarget).2.2
  | cancel id =>
      obtain ⟨call, -, rfl⟩ := cancel_cases hstep
      exact absurd htask hkept
  | take writer count =>
      rw [(take_cases hstep).1] at htask
      exact absurd htask hkept
  | write writer io =>
      obtain ⟨other, -, -, rfl | ⟨batch, state, -, -, rfl⟩⟩ := write_cases hstep
      · exact absurd htask (hset _ _)
      · exact absurd htask (hset _ _)
  | fail writer io kept =>
      obtain ⟨other, wires, -, -, rfl, -⟩ := fail_cases hstep
      exact absurd htask (hset _ _)
  | answer writer =>
      obtain ⟨other, -, rfl⟩ := answer_cases hstep
      exact absurd htask (hset _ _)
  | exit writer =>
      obtain ⟨other, -, -, -, rfl⟩ := exit_cases hstep
      exact absurd htask (hset _ _)
  | restart order skipped =>
      obtain ⟨tasks, books, -, -, rfl, htasks, -, -⟩ := restart_cases hstep
      obtain ⟨state, hreplay, heq⟩ := startsOn_of_mem htasks htask
      have hnumbered : Numbered 1
          (((store.log task.dir).map fun wire => (wire, ((0, 0) : FramePos))).map Prod.fst) := by
        simpa [Function.comp_def] using hsound.logs.numbered task.dir
      have hseq := BookState.nextSeq_of_replay_initial hnumbered hreplay
      rw [heq] at hinitial
      rw [show state = .initial from hinitial, List.length_map] at hseq
      refine List.length_eq_zero_iff.1 ?_
      have hone : BookState.initial.nextSeq = 1 := rfl
      omega

end Runs

/-- As long as no call creates a book again behind a drain, no writer starts
over an empty state on events, and no event is appended with a seq that its log
has. -/
theorem no_second_life (events : List Event)
    (hnew : StepsMeet step MissesNewBook fresh events) :
    StatesMeet step SeqsOnce fresh events ∧ StepsMeet step NoSecondLife fresh events := by
  have hkeeps : ∀ store event next, StoreSound store → MissesNewBook store event →
      step store event = some next → StoreSound next :=
    fun _ _ _ hsound hcond hstep => hsound.step hcond hstep
  exact invariant_run hkeeps (fun _ hsound => hsound.seqsOnce)
    (fun _ event hsound _ => hsound.noSecondLife event) .fresh hnew

namespace Departure

/-- An asset is registered, and then the store is shut down. -/
def run : List Event :=
  .call 0 (.registerAsset ⟨⟨"USD"⟩, .fiat, 2, "dollar"⟩) :: polls 0 9 ++ serves 0 ++ polls 0 2 ++
    .call 1 .shutdown :: polls 1 1 ++ [.poll 1 ⟨true, ["_system"]⟩, .exit 0] ++ polls 1 2

end Departure

theorem no_second_life_departure :
    StepsMeet step MissesNewBook fresh Departure.run ∧
      StatesMeet step SeqsOnce fresh Departure.run ∧
      StepsMeet step NoSecondLife fresh Departure.run :=
  have hnew : StepsMeet step MissesNewBook fresh Departure.run := by decide +kernel
  ⟨hnew, no_second_life Departure.run hnew⟩

/-! ## Behind the drain -/

/-- A call that is creating a directory with events in it is a second life. -/
theorem not_noSecondLife_of_creating {store : LogTaleaStore} {id : ℕ} {call : Call}
    {book : String} (hcall : store.calls.lookup id = some call)
    (hstage : call.stage.isCreating = true) (htarget : call.target = some book)
    (hevents : store.log (bookDir book) ≠ []) : ¬ NoSecondLife store (.poll id ⟨true, []⟩) := by
  intro hnone
  have hcreating : call.stage = .creating := by
    cases hcases : call.stage <;> simp [hcases, Stage.isCreating] at hstage
    rfl
  have hpoll : store.step (.poll id ⟨true, []⟩) =
      some { (store.spawnBook book).setCall id (call.acquire (some store.writers.length)) with
        booksWriter := none } := by
    simp [step, poll, hcall, hcreating, pollCreating, htarget]
  refine hevents (hnone _ hpoll (.spawn (bookDir book) .initial) ?_ rfl)
  simp [started, setCall, spawnBook]

namespace LateCall

/-- A dollar is registered; then a call for the euro gets past the flag, and
waits for the map while the store is shut down.  It misses the map. -/
def misses : List Event :=
  .call 0 (.registerAsset ⟨⟨"USD"⟩, .fiat, 2, "dollar"⟩) :: polls 0 9 ++ serves 0 ++ polls 0 2 ++
    .call 1 (.registerAsset ⟨⟨"EUR"⟩, .fiat, 2, "euro"⟩) :: polls 1 3 ++
    .call 2 .shutdown :: polls 2 1 ++ [.poll 2 ⟨true, ["_system"]⟩, .exit 0] ++ polls 2 2 ++
    polls 1 2

/-- It goes on. -/
def registers : List Event :=
  misses ++ polls 1 4 ++ serves 1 ++ polls 1 2

theorem misses_creating : ∃ store call, execSteps step fresh misses = some store ∧
    store.calls.lookup 1 = some call ∧ call.stage.isCreating = true ∧
    call.target = some "_system" ∧ store.log (bookDir "_system") ≠ [] := by
  have hrun : ∃ store ∈ execSteps step fresh misses, ∃ call ∈ store.calls.lookup 1,
      call.stage.isCreating = true ∧ call.target = some "_system" ∧
      store.log (bookDir "_system") ≠ [] := by
    decide +kernel
  obtain ⟨store, hstore, call, hcall, hrest⟩ := hrun
  exact ⟨store, call, hstore, hcall, hrest⟩

theorem registers_seqs : (execSteps step fresh registers).map
    (fun store => (store.log "_system").map WireEvent.seq) = some [1, 1] := by
  decide +kernel

end LateCall

/-- After a shutdown, the log of the system book gets a second event with the
seq 1. -/
theorem second_life_behind_drain :
    (¬ ∀ events, StepsMeet step NoSecondLife fresh events) ∧
      ¬ ∀ events, StatesMeet step SeqsOnce fresh events := by
  constructor
  · intro hall
    obtain ⟨store, call, hexec, hcall, hstage, htarget, hevents⟩ := LateCall.misses_creating
    exact not_noSecondLife_of_creating hcall hstage htarget hevents
      ((hall (LateCall.misses ++ [.poll 1 ⟨true, []⟩])).last hexec)
  · intro hall
    obtain ⟨store, hexec, hseqs⟩ := Option.map_eq_some_iff.1 LateCall.registers_seqs
    have honce := (hall LateCall.registers).last hexec "_system"
    rw [hseqs] at honce
    exact absurd honce (by decide)

end Talea.Log
