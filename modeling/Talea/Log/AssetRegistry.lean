import Talea.Log.JobFlow
import Talea.Log.SecondLife

/-!
# The asset registry

`register_asset` holds the write lock of the registry from its look into it until
its job is answered, so that no asset gets two events.  It is the call that puts
the asset into the registry, behind the answer.  A call that is dropped in
between gives the lock back, and its job goes on without it: the event is in the
log of the system book, and the registry does not hear of it.
-/

namespace Talea.Log

open LogTaleaStore

/-! ## What the registry should be -/

/-- The asset that a call registers. -/
def Call.asset (call : Call) : Option AssetDef :=
  match call.op with
  | .registerAsset asset => some asset
  | _ => none

namespace LogTaleaStore

variable (store : LogTaleaStore)

/-- The assets that the log of the system book registers. -/
def registered : List AssetDef :=
  registrations (store.log systemBook.name)

/-- A registration is queued or running: its job is not answered, or a call has
still to take the answer. -/
def Registering : Prop :=
  ∃ entry ∈ store.jobs.zipIdx, entry.1.job.asset.isSome = true ∧
    (entry.1.isOpen entry.1.writer = true ∨
      ∃ named ∈ store.calls.sorted, some entry.2 ∈ named.2.sent)

instance : Decidable store.Registering :=
  inferInstanceAs (Decidable (∃ entry ∈ store.jobs.zipIdx, entry.1.job.asset.isSome = true ∧
    (entry.1.isOpen entry.1.writer = true ∨
      ∃ named ∈ store.calls.sorted, some entry.2 ∈ named.2.sent)))

/-- The registry holds the assets of the log, and no id has two events. -/
structure RegistryExact : Prop where
  assets : ∀ id asset, store.registry.lookup id = some asset ↔
    asset ∈ store.registered ∧ asset.id = id
  once : (store.registered.map AssetDef.id).Nodup

/-- Unless a registration is queued or running, the registry is exact. -/
def RegistrySettled : Prop :=
  ¬ store.Registering → store.RegistryExact

end LogTaleaStore

/-- No writer fails, and when the store is opened again the system book is
replayed as a whole. -/
def Undamaged (_ : LogTaleaStore) : Event → Prop
  | .fail _ _ _ => False
  | .restart _ skipped => skipped systemBook.name = 0
  | _ => True

/-- No call is dropped that has sent the job of a registration. -/
def KeepsRegistrations (store : LogTaleaStore) : Event → Prop
  | .cancel id => ∀ call ∈ store.calls.lookup id, call.asset.isSome = true →
      ∀ job ∈ call.sent, job = none
  | _ => True

instance (store : LogTaleaStore) : ∀ event, Decidable (Undamaged store event)
  | .fail _ _ _ => isFalse id
  | .restart _ skipped => inferInstanceAs (Decidable (skipped systemBook.name = 0))
  | .call _ _ | .poll _ _ | .cancel _ | .take _ _ | .write _ _ | .answer _ | .exit _ =>
      isTrue trivial

instance (store : LogTaleaStore) : ∀ event, Decidable (KeepsRegistrations store event)
  | .cancel id => inferInstanceAs (Decidable (∀ call ∈ store.calls.lookup id,
      call.asset.isSome = true → ∀ job ∈ call.sent, job = none))
  | .call _ _ | .poll _ _ | .take _ _ | .write _ _ | .fail _ _ _ | .answer _ | .exit _
  | .restart _ _ => isTrue trivial

/-! ## Filling the registry -/

theorem register_append (registry : HashMap AssetId AssetDef) (left right : List AssetDef) :
    register registry (left ++ right) = register (register registry left) right :=
  List.foldl_append

theorem lookup_register {assets : List AssetDef} (hnodup : (assets.map AssetDef.id).Nodup)
    {id : AssetId} {asset : AssetDef} :
    (register ∅ assets).lookup id = some asset ↔ asset ∈ assets ∧ asset.id = id := by
  induction assets using List.reverseRecOn with
  | nil => simp [register]
  | append_singleton assets last ih =>
      rw [List.map_append, List.nodup_append] at hnodup
      obtain ⟨hbefore, -, hapart⟩ := hnodup
      rw [register_append]
      show ((register ∅ assets).insert last.id last).lookup id = some asset ↔ _
      rw [HashMap.lookup_insert_ite, List.mem_append, List.mem_singleton]
      split
      · next hid =>
          rw [Option.some.injEq]
          constructor
          · rintro rfl
            exact ⟨Or.inr rfl, hid.symm⟩
          · rintro ⟨hmem | rfl, hsame⟩
            · refine absurd ?_ (hapart asset.id (List.mem_map_of_mem hmem) last.id (by simp))
              rw [hsame, hid]
            · rfl
      · next hid =>
          rw [ih hbefore]
          constructor
          · rintro ⟨hmem, hsame⟩
            exact ⟨Or.inl hmem, hsame⟩
          · rintro ⟨hmem | rfl, hsame⟩
            · exact ⟨hmem, hsame⟩
            · exact absurd hsame.symm hid

theorem lookup_register_eq_none {assets : List AssetDef} {id : AssetId} :
    (register ∅ assets).lookup id = none ↔ id ∉ assets.map AssetDef.id := by
  induction assets using List.reverseRecOn with
  | nil => simp [register]
  | append_singleton assets last ih =>
      rw [register_append]
      show ((register ∅ assets).insert last.id last).lookup id = none ↔ _
      rw [HashMap.lookup_insert_ite, List.map_append, List.mem_append]
      split
      · next hid => simp [hid]
      · next hid => simpa [hid] using ih

/-! ## A registration on its way -/

/-- A job that registers is answered `Ok`, or its writer goes. -/
def JobStatus.Fits : JobStatus → Prop
  | .written answer => answer = some (.done (.ok ()))
  | .answered answer => answer = none ∨ answer = some (.done (.ok ()))
  | _ => True

/-- What a job has registered: its event is in the log. -/
def SentJob.landed (sent : SentJob) : List AssetDef :=
  match sent.status with
  | .written (some _) | .answered (some _) => sent.job.asset.toList
  | _ => []

theorem SentJob.Follows.landed {old new : SentJob} (hfollows : old.Follows new) :
    new.landed = old.landed := by
  obtain ⟨-, hjob, hstatus⟩ := hfollows
  unfold SentJob.landed
  rw [hjob]
  generalize new.status = after at hstatus ⊢
  generalize old.status = before at hstatus ⊢
  cases hstatus with
  | answered answer => cases answer <;> rfl
  | _ => rfl

theorem SentJob.Follows.fits {old new : SentJob} (hfollows : old.Follows new)
    (hfits : old.status.Fits) : new.status.Fits := by
  obtain ⟨-, -, hstatus⟩ := hfollows
  generalize new.status = after at hstatus ⊢
  generalize old.status = before at hstatus hfits
  cases hstatus with
  | same => exact hfits
  | taken => trivial
  | answered answer => exact Or.inr hfits
  | dropQueued => exact Or.inl rfl
  | dropTaken => exact Or.inl rfl

/-- What is answered stays so. -/
theorem SentJob.Follows.isAnswered {old new : SentJob} (hfollows : old.Follows new)
    {answer : Option Answer} (hanswered : old.status = .answered answer) :
    new.status = .answered answer := by
  obtain ⟨-, -, hstatus⟩ := hfollows
  generalize new.status = after at hstatus ⊢
  rw [hanswered] at hstatus
  cases hstatus
  rfl

/-- The stages of a registration that has the lock of the registry. -/
def Stage.Locked : Stage → Prop
  | .enter | .fast | .slow | .creating | .submitting | .awaiting _ => True
  | _ => False

/-- A registration that has no lock has not begun, or has come to its end. -/
structure Call.Waits (call : Call) : Prop where
  stage : call.stage = .start ∨ call.stage = .registry ∨ ∃ results, call.stage = .finished results
  acquired : call.acquired = []
  sent : call.sent = []

/-- One that has the lock: it looks for the writer of the system book, sends one
job, and waits for the answer. -/
structure Call.Registers (store : LogTaleaStore) (call : Call) (asset : AssetDef) : Prop where
  op : call.op = .registerAsset asset
  stage : call.stage.Locked
  new : store.registry.lookup asset.id = none
  one : call.acquired.length ≤ 1
  acquired : ∀ writer, some writer ∈ call.acquired →
    ∃ task, store.writers[writer]? = some task ∧ task.dir = systemBook.name
  sent : call.sent.length ≤ call.acquired.length
  job : ∀ idx, call.sent = [some idx] →
    ∃ sent, store.jobs[idx]? = some sent ∧ sent.job = .registerAsset asset
  read : ∀ idx, call.stage = .awaiting (idx + 1) → ∀ job, call.sent = [some job] →
    ∃ sent answer, store.jobs[job]? = some sent ∧ sent.status = .answered answer

/-- The job of a registration belongs to the system book, and its call waits for
it until it is answered. -/
structure SentJob.Registers (store : LogTaleaStore) (idx : ℕ) (sent : SentJob)
    (asset : AssetDef) : Prop where
  home : ∃ task, store.writers[sent.writer]? = some task ∧ task.dir = systemBook.name
  fits : sent.status.Fits
  held : (∃ answer, sent.status = .answered answer) ∨
    ∃ id call, store.registryWriter = some id ∧ store.calls.lookup id = some call ∧
      call.sent = [some idx]

namespace LogTaleaStore

/-- The job that the call with the lock has sent. -/
def flight (store : LogTaleaStore) : Option SentJob :=
  store.registryWriter.bind fun id => (store.calls.lookup id).bind fun call =>
    call.sent.head?.join.bind fun idx => store.jobs[idx]?

/-- The asset in the log that is not yet in the registry. -/
def landed (store : LogTaleaStore) : List AssetDef :=
  (store.flight.map SentJob.landed).getD []

end LogTaleaStore

structure RegistrySound (store : LogTaleaStore) : Prop where
  home : ∀ writer, store.books.lookup systemBook.name = some writer →
    ∃ task, store.writers[writer]? = some task ∧ task.dir = systemBook.name
  elsewhere : ∀ dir, dir ≠ systemBook.name → registrations (store.log dir) = []
  waits : ∀ id call asset, store.calls.lookup id = some call → call.asset = some asset →
    store.registryWriter ≠ some id → call.Waits
  holder : ∀ id, store.registryWriter = some id →
    ∃ call asset, store.calls.lookup id = some call ∧ call.Registers store asset
  jobs : ∀ idx (sent : SentJob) asset, store.jobs[idx]? = some sent →
    sent.job.asset = some asset →
    sent.Registers store idx asset
  turns : ∀ taken ∈ store.jobs, ∀ written ∈ store.jobs, taken.status = .taken →
    ∀ answer, written.status = .written answer → taken.writer ≠ written.writer
  current : ∃ settled, store.registry = register ∅ settled ∧
    store.registered = settled ++ store.landed
  once : (store.registered.map AssetDef.id).Nodup

section Sound

variable {store next : LogTaleaStore}

theorem landed_of_flight {sent : SentJob} (hflight : store.flight = some sent) :
    store.landed = sent.landed := by
  rw [landed, hflight]
  rfl

theorem landed_of_no_flight (hflight : store.flight = none) : store.landed = [] := by
  rw [landed, hflight]
  rfl

/-- Where no registration is under way, the registry is exact. -/
theorem RegistrySound.settled (hsound : RegistrySound store) : store.RegistrySettled := by
  intro hquiet
  obtain ⟨settled, hregistry, hregistered⟩ := hsound.current
  have hlanded : store.landed = [] := by
    cases hflight : store.flight with
    | none => exact landed_of_no_flight hflight
    | some sent =>
        obtain ⟨id, hlock, hcall⟩ := Option.bind_eq_some_iff.1 hflight
        obtain ⟨call, hcall, hsent⟩ := Option.bind_eq_some_iff.1 hcall
        obtain ⟨idx, hidx, hjob⟩ := Option.bind_eq_some_iff.1 hsent
        obtain ⟨call', asset, hcall', hregisters⟩ := hsound.holder id hlock
        obtain rfl := Option.some.inj (hcall.symm.trans hcall')
        have hhead : some idx ∈ call.sent :=
          List.mem_of_mem_head? (Option.join_eq_some_iff.1 hidx)
        have hone : call.sent = [some idx] := by
          have hlength := hregisters.sent.trans hregisters.one
          obtain ⟨first, hfirst⟩ := List.length_eq_one_iff.1
            (le_antisymm hlength (List.length_pos_of_mem hhead))
          rw [hfirst, List.mem_singleton] at hhead
          rw [hfirst, hhead]
        obtain ⟨found, hfound, hjobIs⟩ := hregisters.job idx hone
        obtain rfl := Option.some.inj (hjob.symm.trans hfound)
        refine absurd ⟨(sent, idx), List.mem_zipIdx_iff_getElem?.2 hjob, ?_, Or.inr
          ⟨(id, call), HashMap.mem_sorted.2 hcall, hhead⟩⟩ hquiet
        rw [hjobIs]
        rfl
  rw [hlanded, List.append_nil] at hregistered
  refine ⟨fun id asset => ?_, hsound.once⟩
  rw [hregistry, hregistered]
  exact lookup_register (hregistered ▸ hsound.once)

/-- What a step may do to a store without touching the registry. -/
structure LeavesRegistry (store next : LogTaleaStore) : Prop where
  registry : next.registry = store.registry
  lock : next.registryWriter = store.registryWriter
  log : ∀ dir, registrations (next.log dir) = registrations (store.log dir)
  writers : ∀ (writer : ℕ) (task : WriterTask), store.writers[writer]? = some task →
    ∃ later : WriterTask, next.writers[writer]? = some later ∧ later.dir = task.dir
  jobs : ∀ (idx : ℕ) (sent : SentJob), store.jobs[idx]? = some sent →
    ∃ later, next.jobs[idx]? = some later ∧ sent.Follows later

variable {call : Call} {asset : AssetDef}

theorem LeavesRegistry.home (hext : LeavesRegistry store next) {writer : ℕ}
    (hhome : ∃ task, store.writers[writer]? = some task ∧ task.dir = systemBook.name) :
    ∃ task, next.writers[writer]? = some task ∧ task.dir = systemBook.name := by
  obtain ⟨task, htask, hdir⟩ := hhome
  obtain ⟨later, hlater, hsame⟩ := hext.writers writer task htask
  exact ⟨later, hlater, hsame.trans hdir⟩

theorem Call.Registers.mono (hregisters : call.Registers store asset)
    (hext : LeavesRegistry store next) : call.Registers next asset where
  op := hregisters.op
  stage := hregisters.stage
  new := hext.registry ▸ hregisters.new
  one := hregisters.one
  acquired writer hmem := hext.home (hregisters.acquired writer hmem)
  sent := hregisters.sent
  job idx hsent := by
    obtain ⟨sent, hjob, hasset⟩ := hregisters.job idx hsent
    obtain ⟨later, hlater, hfollows⟩ := hext.jobs idx sent hjob
    exact ⟨later, hlater, hfollows.job.trans hasset⟩
  read idx hstage job hsent := by
    obtain ⟨sent, answer, hjob, hanswered⟩ := hregisters.read idx hstage job hsent
    obtain ⟨later, hlater, hfollows⟩ := hext.jobs job sent hjob
    exact ⟨later, answer, hlater, hfollows.isAnswered hanswered⟩

/-- A registration has sent nothing, or one job, or none for want of a writer. -/
theorem Call.Registers.sent_cases (hregisters : call.Registers store asset) :
    call.sent.head?.join = none ∧ (∀ idx, call.sent ≠ [some idx]) ∨
      ∃ idx, call.sent = [some idx] := by
  have hlength := hregisters.sent.trans hregisters.one
  cases hsent : call.sent with
  | nil => exact Or.inl ⟨rfl, fun idx h => by simp at h⟩
  | cons first rest =>
      rw [hsent, List.length_cons] at hlength
      obtain rfl := List.length_eq_zero_iff.1 (by omega : rest.length = 0)
      cases first with
      | none => exact Or.inl ⟨rfl, fun idx h => by simp at h⟩
      | some idx => exact Or.inr ⟨idx, rfl⟩

theorem flight_eq {id : ℕ} (hlock : store.registryWriter = some id)
    (hcall : store.calls.lookup id = some call) :
    store.flight = call.sent.head?.join.bind fun idx => store.jobs[idx]? := by
  unfold flight
  rw [hlock, Option.bind_some, hcall, Option.bind_some]

theorem landed_of_unlocked (hlock : store.registryWriter = none) : store.landed = [] :=
  landed_of_no_flight (by rw [flight, hlock]; rfl)

/-- The call with the lock has sent no job. -/
theorem landed_of_no_job {id : ℕ} (hlock : store.registryWriter = some id)
    (hcall : store.calls.lookup id = some call) (hnone : call.sent.head?.join = none) :
    store.landed = [] :=
  landed_of_no_flight (by rw [flight_eq hlock hcall, hnone]; rfl)

theorem landed_of_job {id idx : ℕ} {sent : SentJob} (hlock : store.registryWriter = some id)
    (hcall : store.calls.lookup id = some call) (hsent : call.sent = [some idx])
    (hjob : store.jobs[idx]? = some sent) : store.landed = sent.landed :=
  landed_of_flight (by rw [flight_eq hlock hcall, hsent]; exact hjob)

/-- A step next to the registry keeps the invariant. -/
theorem RegistrySound.frame (hsound : RegistrySound store) (hext : LeavesRegistry store next)
    (hhome : ∀ writer, next.books.lookup systemBook.name = some writer →
      ∃ task, next.writers[writer]? = some task ∧ task.dir = systemBook.name)
    (hwaits : ∀ id call, next.calls.lookup id = some call → store.registryWriter ≠ some id →
      call.asset = none ∨ call.Waits ∨ store.calls.lookup id = some call)
    (hholder : ∀ id call asset, store.registryWriter = some id →
      store.calls.lookup id = some call → call.Registers store asset →
      ∃ moved, next.calls.lookup id = some moved ∧ moved.Registers next asset ∧
        ∀ idx, call.sent = [some idx] → moved.sent = [some idx])
    (hjobs : ∀ idx (sent : SentJob) asset, next.jobs[idx]? = some sent →
      sent.job.asset = some asset →
      (∃ old, store.jobs[idx]? = some old ∧ old.Follows sent) ∨ sent.Registers next idx asset)
    (hturns : ∀ taken ∈ next.jobs, ∀ written ∈ next.jobs, taken.status = .taken →
      ∀ answer, written.status = .written answer → taken.writer ≠ written.writer)
    (hlanded : next.landed = store.landed) : RegistrySound next where
  home := hhome
  elsewhere dir hdir := (hext.log dir).trans (hsound.elsewhere dir hdir)
  waits id call asset hcall hasset hlock := by
    rw [hext.lock] at hlock
    rcases hwaits id call hcall hlock with hnone | hwaits | hold
    · rw [hnone] at hasset
      cases hasset
    · exact hwaits
    · exact hsound.waits id call asset hold hasset hlock
  holder id hlock := by
    rw [hext.lock] at hlock
    obtain ⟨call, asset, hcall, hregisters⟩ := hsound.holder id hlock
    obtain ⟨moved, hmoved, hlater, -⟩ := hholder id call asset hlock hcall hregisters
    exact ⟨moved, asset, hmoved, hlater⟩
  jobs idx sent asset hjob hasset := by
    rcases hjobs idx sent asset hjob hasset with ⟨old, hold, hfollows⟩ | hregisters
    · have hsame : old.job.asset = some asset := by rw [← hfollows.job, hasset]
      obtain ⟨hhome, hfits, hheld⟩ := hsound.jobs idx old asset hold hsame
      refine ⟨?_, hfollows.fits hfits, ?_⟩
      · rw [hfollows.writer]
        exact hext.home hhome
      · rcases hheld with ⟨answer, hanswered⟩ | ⟨id, call, hlock, hcall, hsent⟩
        · exact Or.inl ⟨answer, hfollows.isAnswered hanswered⟩
        · obtain ⟨call', asset', hcall', hregisters⟩ := hsound.holder id hlock
          obtain rfl := Option.some.inj (hcall.symm.trans hcall')
          obtain ⟨moved, hmoved, -, hkept⟩ := hholder id call asset' hlock hcall hregisters
          exact Or.inr ⟨id, moved, hext.lock.trans hlock, hmoved, hkept idx hsent⟩
    · exact hregisters
  turns := hturns
  current := by
    obtain ⟨settled, hregistry, hregistered⟩ := hsound.current
    refine ⟨settled, hext.registry.trans hregistry, ?_⟩
    rw [hlanded, ← hregistered]
    exact hext.log systemBook.name
  once := by
    rw [registered, hext.log]
    exact hsound.once

/-- What has landed depends on the job of the lock's holder only. -/
theorem RegistrySound.landed_eq (hsound : RegistrySound store) (hext : LeavesRegistry store next)
    (hholder : ∀ id call, store.registryWriter = some id → store.calls.lookup id = some call →
      ∃ moved, next.calls.lookup id = some moved ∧ moved.sent = call.sent) :
    next.landed = store.landed := by
  cases hlock : store.registryWriter with
  | none => rw [landed_of_unlocked hlock, landed_of_unlocked (hext.lock.trans hlock)]
  | some id =>
      obtain ⟨call, asset, hcall, hregisters⟩ := hsound.holder id hlock
      obtain ⟨moved, hmoved, hsent⟩ := hholder id call hlock hcall
      have hnext := hext.lock.trans hlock
      rcases hregisters.sent_cases with ⟨hnone, -⟩ | ⟨idx, hidx⟩
      · rw [landed_of_no_job hlock hcall hnone, landed_of_no_job hnext hmoved (hsent ▸ hnone)]
      · obtain ⟨sent, hjob, -⟩ := hregisters.job idx hidx
        obtain ⟨later, hlater, hfollows⟩ := hext.jobs idx sent hjob
        rw [landed_of_job hlock hcall hidx hjob,
          landed_of_job hnext hmoved (hsent.trans hidx) hlater, hfollows.landed]

end Sound

end Talea.Log
