import Talea.Lib.Places
import Talea.Log.AssetRegistry

/-!
# Registrations, poll by poll

What a poll can do to the registry: nothing, for a call that registers nothing
and for one that waits for the lock; and for the call that has it, the look for
the writer of the system book, the one job, and the answer that takes the asset
into the registry and gives the lock back.
-/

namespace Talea.Log

open LogTaleaStore

section Polls

variable {store next : LogTaleaStore} {call : Call} {asset : AssetDef}

/-! ## Other calls -/

theorem Moves.op_eq {moved : Call} (hmove : Moves store call moved) : moved.op = call.op := by
  cases hmove <;> rfl

theorem asset_of_op {moved : Call} (hop : moved.op = call.op) : moved.asset = call.asset := by
  unfold Call.asset
  rw [hop]

theorem asset_eq_some_iff : call.asset = some asset ↔ call.op = .registerAsset asset := by
  unfold Call.asset
  cases call.op <;> simp

theorem Job.asset_eq_some_iff {job : Job} :
    job.asset = some asset ↔ job = .registerAsset asset := by
  unfold Job.asset
  cases job <;> simp

/-- Only a registration sends the job of one. -/
theorem asset_of_target {idx : ℕ} {book : String} {job : Job}
    (htarget : call.op.targets[idx]? = some (book, some job)) (hasset : job.asset = some asset) :
    call.asset = some asset := by
  rw [Job.asset_eq_some_iff] at hasset
  subst hasset
  have hmem := List.mem_of_getElem? htarget
  unfold Call.asset
  cases hop : call.op with
  | registerAsset other =>
      rw [hop] at hmem
      simp only [Op.targets, List.mem_singleton, Prod.mk.injEq, Option.some.injEq,
        Job.registerAsset.injEq] at hmem
      exact congrArg some hmem.2.symm
  | _ =>
      rw [hop] at hmem
      simp [Op.targets] at hmem

/-- Jobs that are sent only now take no turn. -/
theorem RegistrySound.turns_append (hsound : RegistrySound store) {more : List SentJob}
    (hmore : ∀ sent ∈ more, sent.status = .queued) :
    ∀ taken ∈ store.jobs ++ more, ∀ written ∈ store.jobs ++ more, taken.status = .taken →
      ∀ answer, written.status = .written answer → taken.writer ≠ written.writer := by
  intro taken htaken written hwritten hstatus answer hanswer
  rcases List.mem_append.1 htaken with htaken | hnew
  · rcases List.mem_append.1 hwritten with hwritten | hnew
    · exact hsound.turns taken htaken written hwritten hstatus answer hanswer
    · rw [hmore written hnew] at hanswer
      cases hanswer
  · rw [hmore taken hnew] at hstatus
    cases hstatus

/-- A call that registers nothing goes on, and may send a job that registers
nothing. -/
theorem RegistrySound.ofCall (hsound : RegistrySound store) {id : ℕ}
    (hcall : store.calls.lookup id = some call) (hasset : call.asset = none)
    (more : List SentJob) (hext : LeavesRegistry store next) {moved : Call}
    (hcalls : next.calls = store.calls.insert id moved) (hmoved : moved.asset = none)
    (hhome : ∀ writer, next.books.lookup systemBook.name = some writer →
      ∃ task, next.writers[writer]? = some task ∧ task.dir = systemBook.name)
    (hjobs : next.jobs = store.jobs ++ more)
    (hmore : ∀ sent ∈ more, sent.status = .queued ∧ sent.job.asset = none) :
    RegistrySound next := by
  have hlookup : ∀ other, next.calls.lookup other =
      if other = id then some moved else store.calls.lookup other := by
    intro other
    rw [hcalls]
    exact HashMap.lookup_insert_ite ..
  have hheld : ∀ {other call asset}, store.calls.lookup other = some call →
      call.Registers store asset → next.calls.lookup other = some call := by
    intro other holder asset hholder hregisters
    rw [hlookup, if_neg, hholder]
    rintro rfl
    obtain rfl := Option.some.inj (hcall.symm.trans hholder)
    rw [asset_eq_some_iff.2 hregisters.op] at hasset
    cases hasset
  refine hsound.frame hext hhome (fun other otherCall hother hlock => ?_)
    (fun other otherCall otherAsset hlock hother hregisters =>
      ⟨otherCall, hheld hother hregisters, hregisters.mono hext, fun _ h => h⟩)
    (fun idx sent found hjob hfound => Or.inl ?_) ?_
    (hsound.landed_eq hext fun other holder hlock hholder => ?_)
  · rw [hlookup] at hother
    split at hother
    · cases hother
      exact Or.inl hmoved
    · exact Or.inr (Or.inr hother)
  · rw [hjobs, List.getElem?_append] at hjob
    split at hjob
    · exact ⟨sent, hjob, .refl sent⟩
    · rw [(hmore sent (List.mem_of_getElem? hjob)).2] at hfound
      cases hfound
  · rw [hjobs]
    exact hsound.turns_append fun sent hmem => (hmore sent hmem).1
  · obtain ⟨found, asset, hfound, hregisters⟩ := hsound.holder other hlock
    obtain rfl := Option.some.inj (hholder.symm.trans hfound)
    exact ⟨holder, hheld hholder hregisters, rfl⟩

/-- Jobs are added behind the others, and the writers and logs stay. -/
theorem LeavesRegistry.of_jobs (more : List SentJob) (tasks : List WriterTask)
    (hregistry : next.registry = store.registry)
    (hlock : next.registryWriter = store.registryWriter)
    (hlog : ∀ dir, next.log dir = store.log dir) (hjobs : next.jobs = store.jobs ++ more)
    (hwriters : next.writers = store.writers ++ tasks) : LeavesRegistry store next where
  registry := hregistry
  lock := hlock
  log dir := congrArg registrations (hlog dir)
  writers writer task htask := by
    rw [hwriters, List.getElem?_append_left (List.getElem?_eq_some_iff.1 htask).1]
    exact ⟨task, htask, rfl⟩
  jobs idx sent hjob := by
    rw [hjobs, List.getElem?_append_left (List.getElem?_eq_some_iff.1 hjob).1]
    exact ⟨sent, hjob, .refl sent⟩

theorem bookDir_systemBook : bookDir systemBook.name = systemBook.name := by
  decide

/-- A new book has a writer of its own. -/
theorem RegistrySound.home_spawn (hsound : RegistrySound store) (book : String) (writer : ℕ)
    (hlookup : (store.spawnBook book).books.lookup systemBook.name = some writer) :
    ∃ task, (store.spawnBook book).writers[writer]? = some task ∧
      task.dir = systemBook.name := by
  unfold spawnBook at hlookup ⊢
  dsimp only at hlookup ⊢
  rw [HashMap.lookup_insert_ite] at hlookup
  split at hlookup
  · next hbook =>
      cases hlookup
      refine ⟨.spawn (bookDir book) .initial, by simp, ?_⟩
      rw [← hbook]
      exact bookDir_systemBook
  · obtain ⟨task, htask, hdir⟩ := hsound.home writer hlookup
    refine ⟨task, ?_, hdir⟩
    rw [List.getElem?_append_left (List.getElem?_eq_some_iff.1 htask).1]
    exact htask

/-- A poll of a call that registers nothing. -/
theorem RegistrySound.pollOther (hsound : RegistrySound store) {id : ℕ}
    (hcall : store.calls.lookup id = some call) (hasset : call.asset = none)
    (hstep : PollStep store id call next) : RegistrySound next := by
  have hplain : ∀ {moved : Call} {later : LogTaleaStore},
      later.calls = store.calls.insert id moved → moved.op = call.op →
      later.registry = store.registry → later.registryWriter = store.registryWriter →
      later.logs = store.logs → later.writers = store.writers → later.books = store.books →
      later.jobs = store.jobs → RegistrySound later := by
    intro moved later hcalls hop hregistry hlock hlogs hwriters hbooks hjobs
    refine hsound.ofCall hcall hasset []
      (.of_jobs [] [] hregistry hlock
        (fun dir => by rw [log, hlogs, log]) (by simpa using hjobs) (by simpa using hwriters))
      hcalls ((asset_of_op hop).trans hasset) (fun writer hlookup => ?_) (by simpa using hjobs)
      (by simp)
    rw [hbooks] at hlookup
    rw [hwriters]
    exact hsound.home writer hlookup
  cases hstep with
  | moves hfrom hmove =>
      exact hplain rfl hmove.op_eq rfl rfl rfl rfl rfl rfl
  | closes hop hfrom => exact hplain rfl rfl rfl rfl rfl rfl rfl rfl
  | locksRegistry hop hstage hfree hnew =>
      rw [asset_eq_some_iff.2 hop] at hasset
      cases hasset
  | locksBooks hstage hfree htarget hmiss => exact hplain rfl rfl rfl rfl rfl rfl rfl rfl
  | @spawns book hstage htarget =>
      exact hsound.ofCall hcall hasset []
        (.of_jobs [] _ rfl rfl (log_spawnBook book) (by simp [setCall, spawnBook]) rfl)
        rfl hasset (hsound.home_spawn book) (by simp [setCall, spawnBook]) (by simp)
  | spawnFails hstage => exact hplain rfl rfl rfl rfl rfl rfl rfl rfl
  | @submits writer book job hstage hwriter htarget =>
      refine hsound.ofCall hcall hasset _
        (.of_jobs _ [] rfl rfl (fun _ => rfl) rfl (by simp [setCall])) rfl hasset hsound.home
        rfl fun sent hmem => ?_
      rw [List.mem_singleton.1 hmem]
      refine ⟨rfl, ?_⟩
      cases hjob : job.asset with
      | none => rfl
      | some asset =>
          rw [asset_of_target htarget hjob] at hasset
          cases hasset
  | returns hstage hlast =>
      unfold LogTaleaStore.returns
      dsimp only
      split
      · next asset hop =>
          rw [asset_eq_some_iff.2 hop] at hasset
          cases hasset
      · exact hplain rfl rfl rfl rfl rfl rfl rfl rfl
  | drains hstage hfree hnodup hkeys =>
      refine hsound.ofCall hcall hasset []
        (.of_jobs [] [] rfl rfl (fun _ => rfl) (by simp [setCall])
          (by simp [setCall])) rfl hasset (fun writer hlookup => ?_) (by simp [setCall]) (by simp)
      simp at hlookup
  | joins hstage => exact hplain rfl rfl rfl rfl rfl rfl rfl rfl
  | unlocks hstage => exact hplain rfl rfl rfl rfl rfl rfl rfl rfl

/-! ## Registrations -/

/-- What the poll of a registration can do that has no lock. -/
theorem poll_waits {id : ℕ} {io : PollIo} (hcall : store.calls.lookup id = some call)
    (hop : call.op = .registerAsset asset) (hwaits : call.Waits)
    (hpoll : store.poll id io = some next) :
    (∃ moved : Call, moved.Waits ∧ moved.op = call.op ∧ next = store.setCall id moved) ∨
      store.registryWriter = none ∧ store.registry.lookup asset.id = none ∧
        next = { store.setCall id { call with stage := .enter } with
          registryWriter := some id } := by
  have hfinish : ∀ (call : Call) results, (call.finish results).Waits := fun call results =>
    ⟨Or.inr (Or.inr ⟨results, rfl⟩), rfl, rfl⟩
  obtain ⟨op, stage, acquired, sent⟩ := call
  obtain rfl : op = .registerAsset asset := hop
  unfold poll at hpoll
  rw [hcall] at hpoll
  dsimp only at hpoll
  rcases hwaits.stage with rfl | rfl | ⟨results, rfl⟩
  · cases hpoll
    unfold pollStart
    dsimp only
    split
    · exact Or.inl ⟨_, hfinish _ _, rfl, rfl⟩
    · have hmoved : Call.Waits ⟨.registerAsset asset, .registry, acquired, sent⟩ :=
        ⟨Or.inr (Or.inl rfl), hwaits.acquired, hwaits.sent⟩
      exact Or.inl ⟨_, hmoved, rfl, rfl⟩
  · dsimp only at hpoll
    unfold pollRegistry at hpoll
    split at hpoll
    · cases hpoll
    next hfree =>
    dsimp only at hpoll
    cases hlookup : store.registry.lookup asset.id with
    | some existing =>
        rw [hlookup] at hpoll
        dsimp only at hpoll
        split at hpoll
        · cases hpoll
          exact Or.inl ⟨_, hfinish _ _, rfl, rfl⟩
        · cases hpoll
          exact Or.inl ⟨_, hfinish _ _, rfl, rfl⟩
    | none =>
        rw [hlookup] at hpoll
        cases hpoll
        exact Or.inr ⟨by simpa using hfree, rfl, rfl⟩
  · cases hpoll

/-- What the poll of one can do that has the lock. -/
inductive RegisterStep (store : LogTaleaStore) (id : ℕ) (call : Call) (asset : AssetDef) :
    LogTaleaStore → Prop
  | goes (stage : Stage) (booksWriter : Option ℕ) (hstage : stage.Locked)
      (hread : ∀ idx job, stage = .awaiting (idx + 1) → call.sent = [some job] →
        ∃ sent answer, store.jobs[job]? = some sent ∧ sent.status = .answered answer) :
      RegisterStep store id call asset
        { store.setCall id { call with stage } with booksWriter }
  | acquires {result : Option ℕ} (booksWriter : Option ℕ) (hfirst : call.acquired = [])
      (hresult : ∀ writer, result = some writer →
        store.books.lookup systemBook.name = some writer) :
      RegisterStep store id call asset { store.setCall id (call.acquire result) with booksWriter }
  | spawns (hfirst : call.acquired = []) :
      RegisterStep store id call asset
        { (store.spawnBook systemBook.name).setCall id
            (call.acquire (some store.writers.length)) with booksWriter := none }
  | refuses (hstage : call.stage = .submitting)
      (hroom : call.sent.length < call.acquired.length) :
      RegisterStep store id call asset (store.setCall id { call with sent := call.sent ++ [none] })
  | submits {writer : ℕ} (hstage : call.stage = .submitting)
      (hwriter : call.acquired[call.sent.length]? = some (some writer)) :
      RegisterStep store id call asset
        { store.setCall id { call with sent := call.sent ++ [some store.jobs.length] } with
          jobs := store.jobs ++ [⟨writer, .registerAsset asset, .queued⟩] }
  | returns {idx : ℕ} (hstage : call.stage = .awaiting idx) (hlast : call.sent[idx]? = none) :
      RegisterStep store id call asset (store.returns id call)

theorem target_registers (hop : call.op = .registerAsset asset) {book : String}
    (htarget : call.target = some book) : book = systemBook.name ∧ call.acquired = [] := by
  unfold Call.target at htarget
  rw [hop] at htarget
  cases hacquired : call.acquired with
  | nil =>
      rw [hacquired] at htarget
      exact ⟨(Option.some.inj htarget).symm, rfl⟩
  | cons first rest =>
      rw [hacquired] at htarget
      cases htarget

theorem poll_registers {id : ℕ} {io : PollIo} (hcall : store.calls.lookup id = some call)
    (hregisters : call.Registers store asset) (hpoll : store.poll id io = some next) :
    RegisterStep store id call asset next := by
  have hop := hregisters.op
  have hlocked := hregisters.stage
  unfold poll at hpoll
  rw [hcall] at hpoll
  dsimp only at hpoll
  cases hstage : call.stage with
  | enter =>
      rw [hstage] at hpoll
      cases hpoll
      unfold pollEnter
      cases htarget : call.target with
      | none =>
          have hafter : store.afterAcquire call = { call with stage := .submitting } := by
            unfold afterAcquire
            rw [hop]
          dsimp only
          rw [hafter]
          exact .goes .submitting store.booksWriter trivial nofun
      | some book =>
          obtain ⟨rfl, hfirst⟩ := target_registers hop htarget
          have hcached : call.cached systemBook.name = none := by
            unfold Call.cached
            rw [hfirst, List.zip_nil_right]
            rfl
          dsimp only
          rw [hcached]
          dsimp only
          split
          · exact .acquires store.booksWriter hfirst nofun
          · exact .goes .fast store.booksWriter trivial nofun
  | fast =>
      rw [hstage] at hpoll
      dsimp only at hpoll
      unfold pollFast at hpoll
      split at hpoll
      · cases hpoll
      cases htarget : call.target with
      | none => simp [htarget] at hpoll
      | some book =>
          obtain ⟨rfl, hfirst⟩ := target_registers hop htarget
          rw [htarget] at hpoll
          dsimp only at hpoll
          cases hlookup : store.books.lookup systemBook.name with
          | some writer =>
              rw [hlookup] at hpoll
              cases hpoll
              exact .acquires store.booksWriter hfirst fun other hother => by
                rw [hlookup, hother]
          | none =>
              have hcreates : call.op.creates = true := by
                rw [hop]
                rfl
              rw [hlookup] at hpoll
              dsimp only at hpoll
              rw [if_pos hcreates] at hpoll
              cases hpoll
              exact .goes .slow store.booksWriter trivial nofun
  | slow =>
      rw [hstage] at hpoll
      dsimp only at hpoll
      unfold pollSlow at hpoll
      split at hpoll
      · cases hpoll
      cases htarget : call.target with
      | none => simp [htarget] at hpoll
      | some book =>
          obtain ⟨rfl, hfirst⟩ := target_registers hop htarget
          rw [htarget] at hpoll
          dsimp only at hpoll
          cases hlookup : store.books.lookup systemBook.name with
          | some writer =>
              rw [hlookup] at hpoll
              cases hpoll
              exact .acquires store.booksWriter hfirst fun other hother => by
                rw [hlookup, hother]
          | none =>
              rw [hlookup] at hpoll
              cases hpoll
              exact .goes .creating (some id) trivial nofun
  | creating =>
      rw [hstage] at hpoll
      dsimp only at hpoll
      unfold pollCreating at hpoll
      cases htarget : call.target with
      | none => simp [htarget] at hpoll
      | some book =>
          obtain ⟨rfl, hfirst⟩ := target_registers hop htarget
          rw [htarget] at hpoll
          dsimp only at hpoll
          split at hpoll
          · cases hpoll
            exact .spawns hfirst
          · cases hpoll
            exact .acquires none hfirst nofun
  | submitting =>
      rw [hstage] at hpoll
      dsimp only at hpoll
      unfold pollSubmitting at hpoll
      dsimp only at hpoll
      split at hpoll
      · next writer book job hwriter htarget =>
          split at hpoll
          · cases hpoll
            exact .refuses hstage (List.getElem?_eq_some_iff.1 hwriter).1
          · split at hpoll
            · cases hpoll
              have hjob : job = .registerAsset asset := by
                rw [hop] at htarget
                have hmem := List.mem_of_getElem? htarget
                simp only [Op.targets, List.mem_singleton, Prod.mk.injEq, Option.some.injEq] at hmem
                exact hmem.2
              rw [hjob]
              exact .submits hstage hwriter
            · cases hpoll
      · next hacquired _ =>
          cases hpoll
          exact .refuses hstage (List.getElem?_eq_some_iff.1 hacquired).1
      · cases hpoll
        exact .goes (.awaiting 0) store.booksWriter trivial nofun
  | awaiting idx =>
      rw [hstage] at hpoll
      dsimp only at hpoll
      unfold pollAwaiting at hpoll
      split at hpoll
      · next hlast =>
          cases hpoll
          exact .returns hstage hlast
      · next hnone =>
          cases hpoll
          refine .goes (.awaiting (idx + 1)) store.booksWriter trivial fun other job _ hsent => ?_
          rw [hsent] at hnone
          cases idx <;> simp at hnone
      · next job hsome =>
          split at hpoll
          · next writer found answer hjob =>
              cases hpoll
              refine .goes (.awaiting (idx + 1)) store.booksWriter trivial
                fun other job' _ hsent => ?_
              have hsame : job = job' := by
                rw [hsent] at hsome
                cases idx <;> simp at hsome
                exact hsome.symm
              rw [← hsame]
              exact ⟨_, answer, hjob, rfl⟩
          · cases hpoll
  | _ =>
      rw [hstage] at hlocked
      exact hlocked.elim

theorem LeavesRegistry.of_eq (hregistry : next.registry = store.registry)
    (hlock : next.registryWriter = store.registryWriter) (hlogs : next.logs = store.logs)
    (hjobs : next.jobs = store.jobs) (hwriters : next.writers = store.writers) :
    LeavesRegistry store next :=
  .of_jobs [] [] hregistry hlock (fun dir => by rw [LogTaleaStore.log, hlogs]; rfl)
    (by simpa using hjobs) (by simpa using hwriters)

/-- A call without the lock, which is at its start or at its end. -/
theorem RegistrySound.ofWaiting (hsound : RegistrySound store) {id : ℕ}
    (hlock : store.registryWriter ≠ some id) {moved : Call} (hmoved : moved.Waits)
    (hcalls : next.calls = store.calls.insert id moved) (hregistry : next.registry = store.registry)
    (hsame : next.registryWriter = store.registryWriter) (hlogs : next.logs = store.logs)
    (hjobs : next.jobs = store.jobs) (hwriters : next.writers = store.writers)
    (hbooks : next.books = store.books) : RegistrySound next := by
  have hext : LeavesRegistry store next := .of_eq hregistry hsame hlogs hjobs hwriters
  have hlookup : ∀ other, next.calls.lookup other =
      if other = id then some moved else store.calls.lookup other := by
    intro other
    rw [hcalls]
    exact HashMap.lookup_insert_ite ..
  have hheld : ∀ {other found}, store.registryWriter = some other →
      store.calls.lookup other = some found → next.calls.lookup other = some found := by
    intro other found hholder hfound
    rw [hlookup, if_neg, hfound]
    rintro rfl
    exact hlock hholder
  refine hsound.frame hext (by rw [hbooks, hwriters]; exact hsound.home)
    (fun other found hfound _ => ?_)
    (fun other found otherAsset hholder hfound hregisters =>
      ⟨found, hheld hholder hfound, hregisters.mono hext, fun _ h => h⟩)
    (fun idx sent found hjob _ => Or.inl ⟨sent, hjobs ▸ hjob, .refl sent⟩)
    (hjobs.symm ▸ hsound.turns)
    (hsound.landed_eq hext fun other found hholder hfound => ⟨found, hheld hholder hfound, rfl⟩)
  rw [hlookup] at hfound
  split at hfound
  · cases hfound
    exact Or.inr (Or.inl hmoved)
  · exact Or.inr (Or.inr hfound)

theorem RegistrySound.pollWaits (hsound : RegistrySound store) {id : ℕ} {io : PollIo}
    (hcall : store.calls.lookup id = some call) (hop : call.op = .registerAsset asset)
    (hlock : store.registryWriter ≠ some id) (hpoll : store.poll id io = some next) :
    RegistrySound next := by
  have hwaits := hsound.waits id call asset hcall (asset_eq_some_iff.2 hop) hlock
  rcases poll_waits hcall hop hwaits hpoll with ⟨moved, hmoved, -, rfl⟩ | ⟨hfree, hnew, rfl⟩
  · exact hsound.ofWaiting hlock hmoved rfl rfl rfl rfl rfl rfl rfl
  · have hcalls : ∀ other, ({ store.setCall id { call with stage := .enter } with
        registryWriter := some id } : LogTaleaStore).calls.lookup other =
        if other = id then some { call with stage := .enter } else store.calls.lookup other :=
      fun other => HashMap.lookup_insert_ite ..
    have hunlocked : ∀ other, store.registryWriter ≠ some other := by
      rw [hfree]
      exact fun other h => by cases h
    constructor
    · exact hsound.home
    · exact hsound.elsewhere
    · intro other found otherAsset hfound hasset hother
      rw [hcalls, if_neg fun heq => hother (by rw [heq])] at hfound
      exact hsound.waits other found otherAsset hfound hasset (hunlocked other)
    · intro other hother
      cases hother
      refine ⟨_, asset, by rw [hcalls, if_pos rfl], ?_⟩
      exact ⟨hop, trivial, hnew, by simp [hwaits.acquired], by simp [hwaits.acquired],
        by simp [hwaits.sent], fun idx hsent => by simp [hwaits.sent] at hsent,
        fun idx hstage => by cases hstage⟩
    · intro idx sent found hjob hasset
      obtain ⟨hhome, hfits, hheld⟩ := hsound.jobs idx sent found hjob hasset
      refine ⟨hhome, hfits, Or.inl (hheld.resolve_right ?_)⟩
      rintro ⟨other, -, hother, -⟩
      exact hunlocked other hother
    · exact hsound.turns
    · obtain ⟨settled, hregistry, hregistered⟩ := hsound.current
      refine ⟨settled, hregistry, hregistered.trans ?_⟩
      rw [landed_of_unlocked hfree, landed_of_no_job rfl (by rw [hcalls, if_pos rfl])]
      rw [hwaits.sent]
      rfl
    · exact hsound.once

/-- The registration with the lock goes on, and may send its job. -/
theorem RegistrySound.ofHolder (hsound : RegistrySound store) {id : ℕ}
    (hlock : store.registryWriter = some id) (hcall : store.calls.lookup id = some call)
    (hregisters : call.Registers store asset) (hext : LeavesRegistry store next) {moved : Call}
    (hcalls : next.calls = store.calls.insert id moved) (hmoved : moved.Registers next asset)
    (hsent : ∀ idx, call.sent = [some idx] → moved.sent = [some idx])
    (hhome : ∀ writer, next.books.lookup systemBook.name = some writer →
      ∃ task, next.writers[writer]? = some task ∧ task.dir = systemBook.name)
    (hjobs : ∀ idx (sent : SentJob) asset, next.jobs[idx]? = some sent →
      sent.job.asset = some asset →
      (∃ old, store.jobs[idx]? = some old ∧ old.Follows sent) ∨ sent.Registers next idx asset)
    (hturns : ∀ taken ∈ next.jobs, ∀ written ∈ next.jobs, taken.status = .taken →
      ∀ answer, written.status = .written answer → taken.writer ≠ written.writer)
    (hlanded : next.landed = store.landed) : RegistrySound next := by
  have hlookup : ∀ other, next.calls.lookup other =
      if other = id then some moved else store.calls.lookup other := by
    intro other
    rw [hcalls]
    exact HashMap.lookup_insert_ite ..
  refine hsound.frame hext hhome (fun other found hfound hother => ?_)
    (fun other found otherAsset hother hfound hothers => ?_) hjobs hturns hlanded
  · rw [hlookup, if_neg fun heq => hother (by rw [heq, hlock])] at hfound
    exact Or.inr (Or.inr hfound)
  · rw [hlock] at hother
    cases hother
    obtain rfl := Option.some.inj (hcall.symm.trans hfound)
    obtain rfl := Op.registerAsset.inj (hregisters.op.symm.trans hothers.op)
    exact ⟨moved, by rw [hlookup, if_pos rfl], hmoved, hsent⟩

/-- It stays with the jobs it has. -/
theorem RegistrySound.holderStays (hsound : RegistrySound store) {id : ℕ}
    (hlock : store.registryWriter = some id) (hcall : store.calls.lookup id = some call)
    (hregisters : call.Registers store asset) (hext : LeavesRegistry store next) {moved : Call}
    (hcalls : next.calls = store.calls.insert id moved) (hmoved : moved.Registers next asset)
    (hjobs : next.jobs = store.jobs) (hhead : moved.sent.head?.join = call.sent.head?.join)
    (hsent : ∀ idx, call.sent = [some idx] → moved.sent = [some idx])
    (hhome : ∀ writer, next.books.lookup systemBook.name = some writer →
      ∃ task, next.writers[writer]? = some task ∧ task.dir = systemBook.name) :
    RegistrySound next := by
  refine hsound.ofHolder hlock hcall hregisters hext hcalls hmoved hsent hhome
    (fun idx sent found hjob _ => Or.inl ⟨sent, hjobs ▸ hjob, .refl sent⟩)
    (hjobs.symm ▸ hsound.turns) ?_
  have hlater : next.calls.lookup id = some moved := by
    rw [hcalls]
    exact Finmap.lookup_insert _
  have hflight : next.flight = store.flight := by
    rw [flight_eq hlock hcall, flight_eq (hext.lock.trans hlock) hlater, hhead, hjobs]
  rw [landed, landed, hflight]

theorem Call.Registers.sent_eq_nil (hregisters : call.Registers store asset)
    (hroom : call.sent.length < call.acquired.length) : call.sent = [] := by
  have hone := hregisters.one
  exact List.length_eq_zero_iff.1 (by omega)

/-- It has looked for the writer. -/
theorem Call.Registers.acquire (hregisters : call.Registers store asset)
    (hfirst : call.acquired = []) (hext : LeavesRegistry store next) {result : Option ℕ}
    (hresult : ∀ writer, result = some writer →
      ∃ task, next.writers[writer]? = some task ∧ task.dir = systemBook.name) :
    (call.acquire result).Registers next asset := by
  have hnone : call.sent = [] := by
    have hlength := hregisters.sent
    rw [hfirst] at hlength
    exact List.length_eq_zero_iff.1 (Nat.le_zero.1 hlength)
  have hacquired : (call.acquire result).acquired = [result] := by
    rw [Call.acquire, hfirst]
    rfl
  have hsent : (call.acquire result).sent = [] := hnone
  refine ⟨hregisters.op, trivial, hext.registry ▸ hregisters.new, by simp [hacquired], ?_,
    by simp [hsent], fun idx hidx => by simp [hsent] at hidx, fun idx hidx => by cases hidx⟩
  intro writer hmem
  rw [hacquired, List.mem_singleton] at hmem
  exact hresult writer hmem.symm

/-- It has sent its job, or could not. -/
theorem Call.Registers.send (hregisters : call.Registers store asset)
    (hstage : call.stage = .submitting) (hroom : call.sent.length < call.acquired.length)
    (hext : LeavesRegistry store next)
    {job : Option ℕ} (hjob : ∀ idx, job = some idx →
      ∃ sent, next.jobs[idx]? = some sent ∧ sent.job = .registerAsset asset) :
    Call.Registers next { call with sent := call.sent ++ [job] } asset := by
  have hlater := hregisters.mono hext
  have hsent : call.sent ++ [job] = [job] := by
    rw [hregisters.sent_eq_nil hroom]
    rfl
  rw [hsent]
  refine ⟨hlater.op, hlater.stage, hlater.new, hlater.one, hlater.acquired, ?_, fun idx hidx => ?_,
    fun idx hidx => ?_⟩
  · have hpos : 0 < call.acquired.length := Nat.zero_lt_of_lt hroom
    exact hpos
  · exact hjob idx (List.singleton_inj.1 hidx)
  · rw [show call.stage = .awaiting (idx + 1) from hidx] at hstage
    cases hstage

/-- The lock is given back, when the job is answered or none was sent. -/
theorem RegistrySound.release (hsound : RegistrySound store) {id : ℕ}
    (hlock : store.registryWriter = some id) (hcall : store.calls.lookup id = some call)
    {results : List (Option Answer)}
    (hcalls : next.calls = store.calls.insert id (call.finish results))
    (hfree : next.registryWriter = none) (hjobs : next.jobs = store.jobs)
    (hwriters : next.writers = store.writers) (hlogs : next.logs = store.logs)
    (hbooks : next.books = store.books)
    (hregistry : next.registry = register store.registry store.landed)
    (hdone : ∀ idx, call.sent = [some idx] →
      ∃ sent answer, store.jobs[idx]? = some sent ∧ sent.status = .answered answer) :
    RegistrySound next := by
  have hlog : ∀ dir, next.log dir = store.log dir := by
    intro dir
    rw [LogTaleaStore.log, hlogs]
    rfl
  have hregistered : next.registered = store.registered := congrArg registrations (hlog _)
  constructor
  · rw [hbooks, hwriters]
    exact hsound.home
  · exact fun dir hdir => (congrArg registrations (hlog dir)).trans (hsound.elsewhere dir hdir)
  · intro other found otherAsset hfound hasset _
    rw [hcalls, HashMap.lookup_insert_ite] at hfound
    split at hfound
    · cases hfound
      exact ⟨Or.inr (Or.inr ⟨results, rfl⟩), rfl, rfl⟩
    · next hne =>
        refine hsound.waits other found otherAsset hfound hasset fun hother => hne ?_
        exact Option.some.inj (hother.symm.trans hlock)
  · intro other hother
    rw [hfree] at hother
    cases hother
  · intro idx sent found hjob hasset
    rw [hjobs] at hjob
    obtain ⟨hhome, hfits, hheld⟩ := hsound.jobs idx sent found hjob hasset
    refine ⟨hwriters.symm ▸ hhome, hfits, Or.inl ?_⟩
    rcases hheld with hanswered | ⟨other, holder, hother, hholder, hsent⟩
    · exact hanswered
    · obtain rfl := Option.some.inj (hother.symm.trans hlock)
      obtain rfl := Option.some.inj (hholder.symm.trans hcall)
      obtain ⟨sent', answer, hjob', hanswered⟩ := hdone idx hsent
      obtain rfl := Option.some.inj (hjob.symm.trans hjob')
      exact ⟨answer, hanswered⟩
  · rw [hjobs]
    exact hsound.turns
  · obtain ⟨settled, hold, hregisteredOld⟩ := hsound.current
    refine ⟨settled ++ store.landed, ?_, ?_⟩
    · rw [hregistry, hold, register_append]
    · rw [hregistered, landed_of_unlocked hfree, List.append_nil]
      exact hregisteredOld
  · rw [hregistered]
    exact hsound.once

theorem answerOf_of_answered {idx : ℕ} {sent : SentJob} {answer : Option Answer}
    (hjob : store.jobs[idx]? = some sent) (hanswered : sent.status = .answered answer) :
    store.answerOf (some idx) = answer := by
  obtain ⟨writer, job, status⟩ := sent
  obtain rfl : status = .answered answer := hanswered
  unfold answerOf
  rw [Option.bind_some, hjob]

/-- A registration returns: what has landed enters the registry. -/
theorem RegistrySound.returns (hsound : RegistrySound store) {id idx : ℕ}
    (hlock : store.registryWriter = some id) (hcall : store.calls.lookup id = some call)
    (hregisters : call.Registers store asset) (hstage : call.stage = .awaiting idx)
    (hlast : call.sent[idx]? = none) : RegistrySound (store.returns id call) := by
  have hdone : ∀ job, call.sent = [some job] →
      ∃ sent answer, store.jobs[job]? = some sent ∧ sent.status = .answered answer := by
    intro job hjob
    cases idx with
    | zero =>
        rw [hjob] at hlast
        cases hlast
    | succ idx => exact hregisters.read idx hstage job hjob
  obtain ⟨op, stage, acquired, sent⟩ := call
  obtain rfl : op = .registerAsset asset := hregisters.op
  refine hsound.release hlock hcall rfl rfl rfl rfl rfl rfl ?_ hdone
  have hlength : sent.length ≤ 1 := hregisters.sent.trans hregisters.one
  cases sent with
  | nil =>
      rw [landed_of_no_job hlock hcall rfl]
      rfl
  | cons first rest =>
      rw [List.length_cons] at hlength
      obtain rfl := List.length_eq_zero_iff.1 (by omega : rest.length = 0)
      cases first with
      | none =>
          rw [landed_of_no_job hlock hcall rfl]
          rfl
      | some job =>
          obtain ⟨sent, answer, hjob, hanswered⟩ := hdone job rfl
          obtain ⟨sent', hjob', hasset⟩ := hregisters.job job rfl
          obtain rfl := Option.some.inj (hjob.symm.trans hjob')
          have hfits := (hsound.jobs job sent asset hjob
            (Job.asset_eq_some_iff.2 hasset)).fits
          rw [landed_of_job hlock hcall rfl hjob, SentJob.landed, hanswered, hasset]
          rw [hanswered] at hfits
          have hanswers : [some job].map store.answerOf = [answer] :=
            congrArg (· :: []) (answerOf_of_answered hjob hanswered)
          unfold LogTaleaStore.returns
          dsimp only
          rw [hanswers]
          rcases hfits with rfl | rfl
          · rfl
          · rfl

/-- The poll of a registration with the lock. -/
theorem RegistrySound.pollRegisters (hsound : RegistrySound store) {id : ℕ} {io : PollIo}
    (hlock : store.registryWriter = some id) (hcall : store.calls.lookup id = some call)
    (hregisters : call.Registers store asset) (hpoll : store.poll id io = some next) :
    RegistrySound next := by
  cases poll_registers hcall hregisters hpoll with
  | goes stage booksWriter hstage hread =>
      have hext : LeavesRegistry store
          { store.setCall id { call with stage } with booksWriter } := .of_eq rfl rfl rfl rfl rfl
      exact hsound.holderStays hlock hcall hregisters hext rfl
        { hregisters.mono hext with
          stage := hstage
          read := fun idx hstage job => hread idx job hstage } rfl rfl (fun _ h => h) hsound.home
  | @acquires result booksWriter hfirst hresult =>
      have hext : LeavesRegistry store
          { store.setCall id (call.acquire result) with booksWriter } := .of_eq rfl rfl rfl rfl rfl
      refine hsound.holderStays hlock hcall hregisters hext rfl
        (hregisters.acquire hfirst hext fun writer hwriter => ?_) rfl rfl (fun _ h => h) hsound.home
      exact hsound.home writer (hresult writer hwriter)
  | spawns hfirst =>
      have hext : LeavesRegistry store
          { (store.spawnBook systemBook.name).setCall id
              (call.acquire (some store.writers.length)) with booksWriter := none } :=
        .of_jobs [] _ rfl rfl (log_spawnBook _) (by simp [setCall, spawnBook]) rfl
      refine hsound.holderStays hlock hcall hregisters hext rfl
        (hregisters.acquire hfirst hext fun writer hwriter => ?_) rfl rfl (fun _ h => h)
        (hsound.home_spawn systemBook.name)
      cases hwriter
      exact ⟨.spawn (bookDir systemBook.name) .initial, by simp [setCall, spawnBook],
        bookDir_systemBook⟩
  | refuses hstage hroom =>
      have hext : LeavesRegistry store
          (store.setCall id { call with sent := call.sent ++ [none] }) := .of_eq rfl rfl rfl rfl rfl
      have hnone := hregisters.sent_eq_nil hroom
      refine hsound.holderStays hlock hcall hregisters hext rfl
        (hregisters.send hstage hroom hext fun idx hidx => ?_) rfl ?_ (fun idx hidx => ?_)
        hsound.home
      · cases hidx
      · rw [hnone]
        rfl
      · rw [hnone] at hidx
        cases hidx
  | @submits writer hstage hwriter =>
      have hroom := (List.getElem?_eq_some_iff.1 hwriter).1
      have hnone := hregisters.sent_eq_nil hroom
      have hext : LeavesRegistry store
          { store.setCall id { call with sent := call.sent ++ [some store.jobs.length] } with
            jobs := store.jobs ++ [⟨writer, .registerAsset asset, .queued⟩] } :=
        .of_jobs _ [] rfl rfl (fun _ => rfl) rfl (by simp [setCall])
      have hlookup : ({ store.setCall id { call with sent := call.sent ++ [some store.jobs.length] }
          with jobs := store.jobs ++ [⟨writer, .registerAsset asset, .queued⟩] } :
            LogTaleaStore).calls.lookup id =
          some { call with sent := call.sent ++ [some store.jobs.length] } :=
        Finmap.lookup_insert _
      have hlast : (store.jobs ++ [(⟨writer, .registerAsset asset, .queued⟩ :
          SentJob)])[store.jobs.length]? = some ⟨writer, .registerAsset asset, .queued⟩ := by
        simp
      refine hsound.ofHolder hlock hcall hregisters hext rfl
        (hregisters.send hstage hroom hext fun idx hidx => ?_) (fun idx hidx => ?_) hsound.home
        (fun idx sent found hjob hfound => ?_) ?_ ?_
      · cases hidx
        exact ⟨_, hlast, rfl⟩
      · rw [hnone] at hidx
        cases hidx
      · rcases getElem?_concat_eq_some.1 hjob with hold | ⟨rfl, rfl⟩
        · exact Or.inl ⟨sent, hold, .refl sent⟩
        · refine Or.inr ⟨hext.home (hregisters.acquired writer (List.mem_of_getElem? hwriter)),
            trivial, Or.inr ⟨id, _, hlock, hlookup, ?_⟩⟩
          rw [hnone]
          rfl
      · exact hsound.turns_append fun sent hmem => by rw [List.mem_singleton.1 hmem]
      · have hnext := landed_of_job (hext.lock.trans hlock) hlookup (by rw [hnone]; rfl) hlast
        rw [landed_of_no_job hlock hcall (by rw [hnone]; rfl), hnext]
        rfl
  | returns hstage hlast => exact hsound.returns hlock hcall hregisters hstage hlast

end Polls

end Talea.Log
