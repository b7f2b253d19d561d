import Talea.Log.Registrations

/-!
# The registry over whole runs

Writers take, write and answer what was sent to them, and the store is opened
again: the invariant of the registry goes through each step, as long as no call
is dropped behind its job.
-/

namespace Talea.Log

open LogTaleaStore

/-! ## Calls come and go -/

section Steps

variable {store next : LogTaleaStore}

theorem RegistrySound.call (hsound : RegistrySound store) {id : ℕ} {op : Op}
    (hcall : store.step (.call id op) = some next) : RegistrySound next := by
  obtain ⟨habsent, rfl⟩ := call_cases hcall
  refine hsound.ofWaiting (fun hlock => ?_) ⟨Or.inl rfl, rfl, rfl⟩ rfl rfl rfl rfl
    rfl rfl rfl
  obtain ⟨call, asset, hfound, -⟩ := hsound.holder id hlock
  rw [habsent] at hfound
  cases hfound

theorem RegistrySound.poll (hsound : RegistrySound store) {id : ℕ} {io : PollIo}
    (hpoll : store.poll id io = some next) : RegistrySound next := by
  obtain ⟨call, hcall, hstep⟩ := poll_cases hpoll
  cases hasset : call.asset with
  | none => exact hsound.pollOther hcall hasset hstep
  | some asset =>
      by_cases hlock : store.registryWriter = some id
      · obtain ⟨holder, other, hholder, hregisters⟩ := hsound.holder id hlock
        obtain rfl := Option.some.inj (hcall.symm.trans hholder)
        exact hsound.pollRegisters hlock hcall hregisters hpoll
      · exact hsound.pollWaits hcall (asset_eq_some_iff.1 hasset) hlock hpoll

theorem RegistrySound.cancel (hsound : RegistrySound store) {id : ℕ}
    (hkeeps : KeepsRegistrations store (.cancel id)) (hcancel : store.cancel id = some next) :
    RegistrySound next := by
  obtain ⟨call, hcall, rfl⟩ := cancel_cases hcancel
  by_cases hlock : store.registryWriter = some id
  · obtain ⟨holder, asset, hholder, hregisters⟩ := hsound.holder id hlock
    obtain rfl := Option.some.inj (hcall.symm.trans hholder)
    have hsent : ∀ idx, call.sent ≠ [some idx] := by
      intro idx hidx
      have hnone := hkeeps call hcall (by rw [asset_eq_some_iff.2 hregisters.op]; rfl) (some idx)
        (by rw [hidx]; exact List.mem_singleton_self _)
      cases hnone
    refine hsound.release hlock hcall rfl (if_pos hlock) rfl rfl rfl rfl ?_ fun idx hidx =>
      absurd hidx (hsent idx)
    rcases hregisters.sent_cases with ⟨hquiet, -⟩ | ⟨idx, hidx⟩
    · rw [landed_of_no_job hlock hcall hquiet]
      rfl
    · exact absurd hidx (hsent idx)
  · exact hsound.ofWaiting hlock ⟨Or.inr (Or.inr ⟨[], rfl⟩), rfl, rfl⟩ rfl rfl (if_neg hlock)
      rfl rfl rfl rfl

/-! ## Writers go on -/

theorem writers_of_map_dir
    (hdirs : next.writers.map WriterTask.dir = store.writers.map WriterTask.dir)
    (writer : ℕ) (task : WriterTask) (htask : store.writers[writer]? = some task) :
    ∃ later : WriterTask, next.writers[writer]? = some later ∧ later.dir = task.dir := by
  have hget := congrArg (fun dirs => dirs[writer]?) hdirs
  rw [List.getElem?_map, List.getElem?_map, htask, Option.map_some, Option.map_eq_some_iff] at hget
  exact hget

/-- A writer moves its jobs on, and its log registers nothing more. -/
theorem RegistrySound.ofWriters (hsound : RegistrySound store) (hcalls : next.calls = store.calls)
    (hregistry : next.registry = store.registry)
    (hlock : next.registryWriter = store.registryWriter) (hbooks : next.books = store.books)
    (hdirs : next.writers.map WriterTask.dir = store.writers.map WriterTask.dir)
    (hlog : ∀ dir, registrations (next.log dir) = registrations (store.log dir))
    (hjobs : List.Forall₂ SentJob.Follows store.jobs next.jobs)
    (hturns : ∀ taken ∈ next.jobs, ∀ written ∈ next.jobs, taken.status = .taken →
      ∀ answer, written.status = .written answer → taken.writer ≠ written.writer) :
    RegistrySound next := by
  have hext : LeavesRegistry store next :=
    ⟨hregistry, hlock, hlog, writers_of_map_dir hdirs, fun idx sent hjob =>
      getElem?_of_forall₂ hjobs hjob⟩
  refine hsound.frame hext (fun writer hlookup => ?_) (fun id call hcall _ => ?_)
    (fun id call asset _ hcall hregisters => ?_) (fun idx sent asset hjob hasset => Or.inl ?_)
    hturns (hsound.landed_eq hext fun id call _ hcall => ⟨call, hcalls ▸ hcall, rfl⟩)
  · rw [hbooks] at hlookup
    exact hext.home (hsound.home writer hlookup)
  · rw [hcalls] at hcall
    exact Or.inr (Or.inr hcall)
  · exact ⟨call, hcalls ▸ hcall, hregisters.mono hext, fun _ h => h⟩
  · have hflip : List.Forall₂ (fun new old => SentJob.Follows old new) next.jobs store.jobs :=
      hjobs.flip
    exact getElem?_of_forall₂ hflip hjob

theorem JobStatus.Follows.written {old new : JobStatus} (hfollows : old.Follows new)
    {answer : Option Answer} (hwritten : new = .written answer) : old = .written answer := by
  rw [hwritten] at hfollows
  cases hfollows
  rfl

theorem RegistrySound.take (hsound : RegistrySound store) {writer count : ℕ}
    (htake : store.take writer count = some next) : RegistrySound next := by
  obtain ⟨rfl, hnone⟩ := take_cases htake
  have hfollows := follows_takeJobs writer count store.jobs
  refine hsound.ofWriters rfl rfl rfl rfl rfl (fun _ => rfl) hfollows ?_
  intro taken htaken written hwritten hstatus answer hanswer
  obtain ⟨idx, hidx⟩ := List.mem_iff_getElem?.1 hwritten
  obtain ⟨old, hold, hsame⟩ := getElem?_of_forall₂ hfollows.flip hidx
  have holdWritten := hsame.status.written hanswer
  rw [hsame.writer]
  rcases mem_takeJobs htaken hstatus with hmine | hbefore
  · rw [hmine]
    intro heq
    exact (hnone old (List.mem_of_getElem? hold)).2
      (SentJob.isWritten_iff.2 ⟨⟨answer, holdWritten⟩, heq.symm⟩)
  · exact hsound.turns taken hbefore old (List.mem_of_getElem? hold) hstatus answer holdWritten

/-- Jobs that stay or come to an answer take no turn. -/
theorem RegistrySound.turns_map (hsound : RegistrySound store) {step : SentJob → SentJob}
    (hstep : ∀ sent, step sent = sent ∨ ∃ answer, (step sent).status = .answered answer) :
    ∀ taken ∈ store.jobs.map step, ∀ written ∈ store.jobs.map step, taken.status = .taken →
      ∀ answer, written.status = .written answer → taken.writer ≠ written.writer := by
  intro taken htaken written hwritten hstatus answer hanswer
  obtain ⟨left, hleft, rfl⟩ := List.mem_map.1 htaken
  obtain ⟨right, hright, rfl⟩ := List.mem_map.1 hwritten
  rcases hstep left with hsame | ⟨other, hother⟩
  · rcases hstep right with hsame' | ⟨other, hother⟩
    · rw [hsame] at hstatus ⊢
      rw [hsame'] at hanswer ⊢
      exact hsound.turns left hleft right hright hstatus answer hanswer
    · rw [hother] at hanswer
      cases hanswer
  · rw [hother] at hstatus
    cases hstatus

theorem answerJob_cases (writer : ℕ) (sent : SentJob) :
    answerJob writer sent = sent ∨ ∃ answer, (answerJob writer sent).status = .answered answer := by
  unfold answerJob
  split
  · split
    · exact Or.inr ⟨_, rfl⟩
    · exact Or.inl rfl
  · exact Or.inl rfl

theorem dropJob_cases (writer : ℕ) (sent : SentJob) :
    dropJob writer sent = sent ∨ ∃ answer, (dropJob writer sent).status = .answered answer := by
  unfold dropJob
  split
  · exact Or.inr ⟨_, rfl⟩
  · exact Or.inl rfl

theorem RegistrySound.answer (hsound : RegistrySound store) {writer : ℕ}
    (hanswer : store.answer writer = some next) : RegistrySound next := by
  obtain ⟨task, hlive, rfl⟩ := answer_cases hanswer
  obtain ⟨htask, -⟩ := live_eq_some.1 hlive
  exact hsound.ofWriters rfl rfl rfl rfl (LogsSound.map_dir_set htask rfl) (fun _ => rfl)
    (follows_map fun sent _ => SentJob.follows_answerJob writer sent)
    (hsound.turns_map (answerJob_cases writer))

theorem RegistrySound.exit (hsound : RegistrySound store) {writer : ℕ}
    (hexit : store.exit writer = some next) : RegistrySound next := by
  obtain ⟨task, hlive, -, -, rfl⟩ := exit_cases hexit
  obtain ⟨htask, -⟩ := live_eq_some.1 hlive
  exact hsound.ofWriters rfl rfl rfl rfl (LogsSound.map_dir_set htask rfl) (fun _ => rfl)
    (List.forall₂_same.2 fun sent _ => .refl sent) hsound.turns

/-- A writer dies before it has written anything of its batch. -/
theorem RegistrySound.kill (hsound : RegistrySound store) {writer : ℕ} {task : WriterTask}
    (hlive : store.live writer = some task)
    (htaken : ∃ sent ∈ store.jobs, sent.isTaken writer = true) :
    RegistrySound (store.kill writer task []) := by
  obtain ⟨htask, -⟩ := live_eq_some.1 hlive
  obtain ⟨taken, hmem, htaken⟩ := htaken
  obtain ⟨hstatus, hwriter⟩ := SentJob.isTaken_iff.1 htaken
  refine hsound.ofWriters rfl rfl rfl rfl (LogsSound.map_dir_set htask rfl) (fun dir => ?_)
    (follows_map fun sent hsent => SentJob.follows_dropJob ?_)
    (hsound.turns_map (dropJob_cases writer))
  · have hlog : (store.kill writer task []).log dir = store.log dir := by
      refine (log_append task.dir dir []).trans ?_
      rw [List.append_nil, ite_self]
    rw [hlog]
  · cases hwritten : sent.isWritten writer with
    | false => rfl
    | true =>
        obtain ⟨⟨answer, hanswer⟩, hmine⟩ := SentJob.isWritten_iff.1 hwritten
        exact absurd (hwriter.trans hmine.symm)
          (hsound.turns taken hmem sent hsent hstatus answer hanswer)

/-! ## A batch is written -/

theorem filterMap_eq_singleton {α β : Type} {f : α → Option β} {items : List α} {idx : ℕ}
    {item : α} {value : β} (hitem : items[idx]? = some item) (hvalue : f item = some value)
    (hothers : ∀ other found, items[other]? = some found → (f found).isSome = true → other = idx) :
    items.filterMap f = [value] := by
  induction items generalizing idx with
  | nil => cases hitem
  | cons head items ih =>
      cases idx with
      | zero =>
          cases hitem
          rw [List.filterMap_cons_some hvalue, List.filterMap_eq_nil_iff.2]
          intro found hfound
          obtain ⟨other, hother⟩ := List.mem_iff_getElem?.1 hfound
          cases hnone : f found with
          | none => rfl
          | some value' => cases hothers (other + 1) found hother (by rw [hnone]; rfl)
      | succ idx =>
          have hhead : f head = none := by
            cases hnone : f head with
            | none => rfl
            | some value' => cases hothers 0 head rfl (by rw [hnone]; rfl)
          rw [List.filterMap_cons_none hhead]
          refine ih hitem fun other found hother hsome => ?_
          exact Nat.succ.inj (hothers (other + 1) found hother hsome)

/-- The assets that the batch of a writer registers. -/
def batchAssets (store : LogTaleaStore) (writer : ℕ) : List AssetDef :=
  store.jobs.filterMap fun sent => if sent.isTaken writer then sent.job.asset else none

theorem filterMap_batchJobs (store : LogTaleaStore) (writer : ℕ) (io : WriteIo) :
    ((store.batchJobs writer io).filterMap fun job => job.1.asset) = batchAssets store writer := by
  have hzip : ∀ (jobs : List Job) (start : ℕ),
      ((jobs.zipIdx start).filterMap fun slot => slot.1.asset) = jobs.filterMap Job.asset := by
    intro jobs
    induction jobs with
    | nil => exact fun _ => rfl
    | cons job jobs ih =>
        intro start
        rw [List.zipIdx_cons, List.filterMap_cons, List.filterMap_cons, ih]
  unfold batchJobs batchAssets
  rw [List.filterMap_map]
  refine (hzip _ 0).trans ?_
  rw [List.filterMap_map, List.filterMap_filter]
  rfl

/-- The answer that the batch of a writer has for a job in it. -/
theorem batchAnswers_of_taken {writer idx : ℕ} {task : WriterTask} {io : WriteIo}
    {batch : Classified} {sent : SentJob} {asset : AssetDef}
    (hbatch : classify task.state io.resolved io.startNow (store.batchJobs writer io) = .ok batch)
    (hjob : store.jobs[idx]? = some sent) (htaken : sent.isTaken writer = true)
    (hasset : sent.job = .registerAsset asset) :
    (batchAnswers io (store.batchJobs writer io) batch)[(store.jobs.take idx).countP
      (·.isTaken writer)]?.join = some (.done (.ok ())) := by
  have hplace := getElem?_filter_countP (fun sent => sent.isTaken writer) hjob htaken
  have hslot : (store.batchJobs writer io)[(store.jobs.take idx).countP (·.isTaken writer)]? =
      some (.registerAsset asset, io.nows ((store.jobs.take idx).countP (·.isTaken writer))) := by
    unfold batchJobs
    rw [List.getElem?_map, List.getElem?_zipIdx, List.getElem?_map, hplace]
    simp [hasset]
  rw [batchAnswers_registerAsset hbatch hslot]
  rfl

/-- A batch registers the asset of the call with the lock, or nothing. -/
theorem RegistrySound.batchAssets_cases (hsound : RegistrySound store) (writer : ℕ) :
    batchAssets store writer = [] ∨
      ∃ id call asset idx sent, store.registryWriter = some id ∧
        store.calls.lookup id = some call ∧ call.Registers store asset ∧
        call.sent = [some idx] ∧ store.jobs[idx]? = some sent ∧ sent.isTaken writer = true ∧
        sent.job = .registerAsset asset ∧ batchAssets store writer = [asset] := by
  by_cases hnone : ∀ sent ∈ store.jobs,
      (if sent.isTaken writer then sent.job.asset else none) = none
  · exact Or.inl (List.filterMap_eq_nil_iff.2 hnone)
  right
  push Not at hnone
  obtain ⟨sent, hmem, hsome⟩ := hnone
  -- a job in a batch is not answered, and so its call has the lock
  have hheld : ∀ {idx : ℕ} {sent : SentJob}, store.jobs[idx]? = some sent →
      (if sent.isTaken writer then sent.job.asset else none) ≠ none →
      sent.isTaken writer = true ∧ ∃ asset, sent.job.asset = some asset ∧
        ∃ id call, store.registryWriter = some id ∧ store.calls.lookup id = some call ∧
          call.sent = [some idx] := by
    intro idx sent hjob hsome
    cases htaken : sent.isTaken writer with
    | false => simp [htaken] at hsome
    | true =>
        rw [htaken, if_pos rfl] at hsome
        obtain ⟨asset, hasset⟩ := Option.ne_none_iff_exists'.1 hsome
        refine ⟨rfl, asset, hasset, ?_⟩
        rcases (hsound.jobs idx sent asset hjob hasset).held with ⟨answer, hanswered⟩ | hheld
        · rw [(SentJob.isTaken_iff.1 htaken).1] at hanswered
          cases hanswered
        · exact hheld
  obtain ⟨idx, hjob⟩ := List.mem_iff_getElem?.1 hmem
  obtain ⟨htaken, asset, hasset, id, call, hlock, hcall, hsent⟩ := hheld hjob hsome
  obtain ⟨call', asset', hcall', hregisters⟩ := hsound.holder id hlock
  obtain rfl := Option.some.inj (hcall.symm.trans hcall')
  obtain ⟨sent', hjob', hisJob⟩ := hregisters.job idx hsent
  obtain rfl := Option.some.inj (hjob.symm.trans hjob')
  rw [hisJob] at hasset
  obtain rfl : asset' = asset := Option.some.inj hasset
  refine ⟨id, call, asset', idx, sent, hlock, hcall, hregisters, hsent, hjob, htaken, hisJob, ?_⟩
  refine filterMap_eq_singleton hjob (by rw [if_pos htaken, hisJob]; rfl) ?_
  intro other found hfound hregistersToo
  obtain ⟨-, -, -, id', holder, hlock', hholder, hother⟩ := hheld hfound
    (Option.isSome_iff_ne_none.1 hregistersToo)
  obtain rfl := Option.some.inj (hlock'.symm.trans hlock)
  obtain rfl := Option.some.inj (hholder.symm.trans hcall)
  rw [hsent] at hother
  exact (Option.some.inj (List.singleton_inj.1 hother)).symm

/-- A job behind the writing of a batch: it is as before, or it was in the batch
and knows its answer. -/
theorem writeJobs_cases {writer : ℕ} {answers : List (Option Answer)} {idx : ℕ} {sent : SentJob}
    (hjob : (writeJobs writer store.jobs answers)[idx]? = some sent) :
    ∃ old, store.jobs[idx]? = some old ∧
      (old.isTaken writer = false ∧ sent = old ∨
        old.isTaken writer = true ∧ sent = ⟨old.writer, old.job, .written
          (answers[(store.jobs.take idx).countP (·.isTaken writer)]?.join)⟩) := by
  rw [getElem?_writeJobs, Option.map_eq_some_iff] at hjob
  obtain ⟨old, hold, rfl⟩ := hjob
  refine ⟨old, hold, ?_⟩
  cases htaken : old.isTaken writer with
  | false => exact Or.inl ⟨rfl, if_neg Bool.false_ne_true⟩
  | true => exact Or.inr ⟨rfl, if_pos rfl⟩

theorem getElem?_writeJobs_of_not_taken {writer : ℕ} {answers : List (Option Answer)} {idx : ℕ}
    {sent : SentJob} (hjob : store.jobs[idx]? = some sent) (htaken : sent.isTaken writer = false) :
    (writeJobs writer store.jobs answers)[idx]? = some sent := by
  rw [getElem?_writeJobs, hjob, Option.map_some, htaken, if_neg Bool.false_ne_true]

/-- The registration of a batch is new, and its writer is that of the system
book. -/
theorem RegistrySound.batchAssets_new (hsound : RegistrySound store) {writer : ℕ}
    {task : WriterTask} (htask : store.writers[writer]? = some task)
    (hsome : batchAssets store writer ≠ []) :
    task.dir = systemBook.name ∧
      ((store.registered ++ batchAssets store writer).map AssetDef.id).Nodup := by
  obtain hnone | ⟨id, call, asset, idx, sent, hlock, hcall, hregisters, hsent, hjob, htaken,
    hisJob, hassets⟩ := hsound.batchAssets_cases writer
  · exact absurd hnone hsome
  obtain ⟨hstatus, hwriter⟩ := SentJob.isTaken_iff.1 htaken
  have hown := hsound.jobs idx sent asset hjob (Job.asset_eq_some_iff.2 hisJob)
  constructor
  · obtain ⟨home, hhome, hdir⟩ := hown.home
    rw [hwriter, htask] at hhome
    cases hhome
    exact hdir
  · have hlanded : store.landed = [] := by
      rw [landed_of_job hlock hcall hsent hjob, SentJob.landed, hstatus]
    obtain ⟨settled, hregistry, hregistered⟩ := hsound.current
    rw [hlanded, List.append_nil] at hregistered
    have hnew := hregisters.new
    rw [hregistry, lookup_register_eq_none, ← hregistered] at hnew
    rw [hassets, List.map_append, List.nodup_append]
    refine ⟨hsound.once, List.nodup_singleton _, fun other hother last hlast => ?_⟩
    rw [List.map_singleton, List.mem_singleton] at hlast
    rintro rfl
    exact hnew (hlast ▸ hother)

/-- What lands with a batch. -/
theorem RegistrySound.landed_written (hsound : RegistrySound store) {writer : ℕ}
    {task : WriterTask} {io : WriteIo} {batch : Classified}
    (hbatch : classify task.state io.resolved io.startNow (store.batchJobs writer io) = .ok batch)
    (hcalls : next.calls = store.calls) (hlock : next.registryWriter = store.registryWriter)
    (hjobs : next.jobs = writeJobs writer store.jobs
      (batchAnswers io (store.batchJobs writer io) batch)) :
    next.landed = store.landed ++ batchAssets store writer := by
  rcases hsound.batchAssets_cases writer with hnone | ⟨id, call, asset, idx, sent, hheld, hcall,
    hregisters, hsent, hjob, htaken, hisJob, hassets⟩
  · rw [hnone, List.append_nil]
    cases hheld : store.registryWriter with
    | none => rw [landed_of_unlocked hheld, landed_of_unlocked (hlock.trans hheld)]
    | some id =>
        obtain ⟨call, asset, hcall, hregisters⟩ := hsound.holder id hheld
        have hnext := hlock.trans hheld
        have hcall' : next.calls.lookup id = some call := hcalls ▸ hcall
        rcases hregisters.sent_cases with ⟨hquiet, -⟩ | ⟨idx, hsent⟩
        · rw [landed_of_no_job hheld hcall hquiet, landed_of_no_job hnext hcall' hquiet]
        · obtain ⟨sent, hjob, hisJob⟩ := hregisters.job idx hsent
          have huntaken : sent.isTaken writer = false := by
            cases htaken : sent.isTaken writer with
            | false => rfl
            | true =>
                have hempty := List.filterMap_eq_nil_iff.1 hnone sent (List.mem_of_getElem? hjob)
                rw [if_pos htaken, hisJob] at hempty
                cases hempty
          have hjob' : next.jobs[idx]? = some sent := by
            rw [hjobs]
            exact getElem?_writeJobs_of_not_taken hjob huntaken
          rw [landed_of_job hheld hcall hsent hjob, landed_of_job hnext hcall' hsent hjob']
  · have hjob' : next.jobs[idx]? =
        some { sent with status := .written (some (.done (.ok ()))) } := by
      rw [hjobs, getElem?_writeJobs, hjob, Option.map_some, if_pos htaken,
        batchAnswers_of_taken hbatch hjob htaken hisJob]
    have hcall' : next.calls.lookup id = some call := hcalls ▸ hcall
    have hbefore : sent.landed = [] := by
      rw [SentJob.landed, (SentJob.isTaken_iff.1 htaken).1]
    rw [landed_of_job hheld hcall hsent hjob,
      landed_of_job (hlock.trans hheld) hcall' hsent hjob', hassets, hbefore, SentJob.landed]
    dsimp only
    rw [hisJob]
    rfl

/-- A batch is written, with the registration in it. -/
theorem RegistrySound.written (hsound : RegistrySound store) {writer : ℕ} {task : WriterTask}
    (hlive : store.live writer = some task) {io : WriteIo} {batch : Classified}
    (hbatch : classify task.state io.resolved io.startNow (store.batchJobs writer io) = .ok batch)
    (hcalls : next.calls = store.calls) (hregistry : next.registry = store.registry)
    (hlock : next.registryWriter = store.registryWriter) (hbooks : next.books = store.books)
    (hdirs : next.writers.map WriterTask.dir = store.writers.map WriterTask.dir)
    (hlog : ∀ dir, next.log dir =
      if dir = task.dir then store.log dir ++ batch.wires else store.log dir)
    (hjobs : next.jobs = writeJobs writer store.jobs
      (batchAnswers io (store.batchJobs writer io) batch)) : RegistrySound next := by
  obtain ⟨htask, -⟩ := live_eq_some.1 hlive
  have hwires : registrations batch.wires = batchAssets store writer := by
    rw [registrations_classify hbatch, filterMap_batchJobs]
  have hhome : ∀ {writer : ℕ}, (∃ task, store.writers[writer]? = some task ∧
      task.dir = systemBook.name) →
      ∃ task, next.writers[writer]? = some task ∧ task.dir = systemBook.name := by
    rintro writer ⟨task, htask, hdir⟩
    obtain ⟨later, hlater, hsame⟩ := writers_of_map_dir hdirs writer task htask
    exact ⟨later, hlater, hsame.trans hdir⟩
  have hregistered : next.registered = store.registered ++ batchAssets store writer := by
    unfold registered
    rw [hlog]
    split
    · rw [registrations_append, hwires]
    · next hne =>
        by_cases hnone : batchAssets store writer = []
        · rw [hnone, List.append_nil]
        · exact absurd (hsound.batchAssets_new htask hnone).1.symm hne
  constructor
  · intro writer hlookup
    rw [hbooks] at hlookup
    exact hhome (hsound.home writer hlookup)
  · intro dir hdir
    rw [hlog]
    split
    · next heq =>
        rw [registrations_append, hsound.elsewhere dir hdir, hwires, List.nil_append]
        by_contra hsome
        exact hdir (heq.trans (hsound.batchAssets_new htask hsome).1)
    · exact hsound.elsewhere dir hdir
  · rw [hcalls, hlock]
    exact hsound.waits
  · intro id hheld
    rw [hlock] at hheld
    obtain ⟨call, asset, hcall, hregisters⟩ := hsound.holder id hheld
    refine ⟨call, asset, hcalls ▸ hcall, ?_⟩
    exact { hregisters with
      new := hregistry ▸ hregisters.new
      acquired := fun writer hmem => hhome (hregisters.acquired writer hmem)
      job := fun idx hsent => by
        obtain ⟨sent, hjob, hisJob⟩ := hregisters.job idx hsent
        refine ⟨_, by rw [hjobs, getElem?_writeJobs, hjob, Option.map_some], ?_⟩
        split
        · exact hisJob
        · exact hisJob
      read := fun idx hstage job hsent => by
        obtain ⟨sent, answer, hjob, hanswered⟩ := hregisters.read idx hstage job hsent
        refine ⟨sent, answer, ?_, hanswered⟩
        rw [hjobs]
        refine getElem?_writeJobs_of_not_taken hjob ?_
        unfold SentJob.isTaken
        rw [hanswered] }
  · intro idx sent asset hjob hasset
    rw [hjobs] at hjob
    obtain ⟨old, hold, ⟨-, rfl⟩ | ⟨htaken, rfl⟩⟩ := writeJobs_cases hjob
    · obtain ⟨home, hfits, hheld⟩ := hsound.jobs idx sent asset hold hasset
      exact ⟨hhome home, hfits, hcalls.symm ▸ hlock.symm ▸ hheld⟩
    · obtain ⟨home, -, hheld⟩ := hsound.jobs idx old asset hold hasset
      refine ⟨hhome home, ?_, ?_⟩
      · exact batchAnswers_of_taken hbatch hold htaken (Job.asset_eq_some_iff.1 hasset)
      · rcases hheld with ⟨answer, hanswered⟩ | hheld
        · rw [(SentJob.isTaken_iff.1 htaken).1] at hanswered
          cases hanswered
        · exact Or.inr (hcalls.symm ▸ hlock.symm ▸ hheld)
  · intro taken hmemTaken written hmemWritten hstatus answer hanswer
    rw [hjobs] at hmemTaken hmemWritten
    obtain ⟨idx, hidx⟩ := List.mem_iff_getElem?.1 hmemTaken
    obtain ⟨idx', hidx'⟩ := List.mem_iff_getElem?.1 hmemWritten
    obtain ⟨old, hold, ⟨huntaken, rfl⟩ | ⟨-, rfl⟩⟩ := writeJobs_cases hidx
    · have hother : taken.writer ≠ writer := by
        rintro heq
        rw [SentJob.isTaken_iff.2 ⟨hstatus, heq⟩] at huntaken
        cases huntaken
      obtain ⟨old', hold', ⟨-, rfl⟩ | ⟨htaken', rfl⟩⟩ := writeJobs_cases hidx'
      · exact hsound.turns taken (List.mem_of_getElem? hold) written
          (List.mem_of_getElem? hold') hstatus answer hanswer
      · rw [(SentJob.isTaken_iff.1 htaken').2]
        exact hother
    · cases hstatus
  · obtain ⟨settled, hold, hcurrent⟩ := hsound.current
    refine ⟨settled, hregistry.trans hold, ?_⟩
    rw [hregistered, hsound.landed_written hbatch hcalls hlock hjobs, hcurrent,
      List.append_assoc]
  · rw [hregistered]
    by_cases hnone : batchAssets store writer = []
    · rw [hnone, List.append_nil]
      exact hsound.once
    · exact (hsound.batchAssets_new htask hnone).2

theorem RegistrySound.write (hsound : RegistrySound store) {writer : ℕ} {io : WriteIo}
    (hwrite : store.write writer io = some next) : RegistrySound next := by
  obtain ⟨task, hlive, htaken, rfl | ⟨batch, state, hbatch, -, rfl⟩⟩ := write_cases hwrite
  · exact hsound.kill hlive htaken
  · exact hsound.written hlive hbatch rfl rfl rfl rfl
      (LogsSound.map_dir_set (live_eq_some.1 hlive).1 rfl) (log_append task.dir · batch.wires) rfl

/-! ## Opening again -/

theorem registrations_drop_eq_nil {wires : List WireEvent} (hnone : registrations wires = [])
    (count : ℕ) : registrations (wires.drop count) = [] :=
  List.filterMap_eq_nil_iff.2 fun wire hmem =>
    List.filterMap_eq_nil_iff.1 hnone wire (List.mem_of_mem_drop hmem)

/-- Only the system book has registrations to replay. -/
theorem RegistrySound.registryOf_eq (hsound : RegistrySound store) {skipped : String → ℕ}
    (hskipped : skipped systemBook.name = 0) {order : List String} (hnodup : order.Nodup)
    (registry : HashMap AssetId AssetDef) :
    order.foldl (fun registry dir => register registry
        (registrations ((store.log dir).drop (skipped dir)))) registry =
      if systemBook.name ∈ order then register registry store.registered else registry := by
  induction order generalizing registry with
  | nil => rfl
  | cons dir order ih =>
      obtain ⟨hfresh, hrest⟩ := List.nodup_cons.1 hnodup
      rw [List.foldl_cons, ih hrest]
      by_cases hdir : dir = systemBook.name
      · subst hdir
        rw [if_neg hfresh, if_pos List.mem_cons_self, hskipped, List.drop_zero, registered]
      · rw [registrations_drop_eq_nil (hsound.elsewhere dir hdir)]
        have hmem : systemBook.name ∈ dir :: order ↔ systemBook.name ∈ order := by
          rw [List.mem_cons, or_iff_right fun heq => hdir heq.symm]
        simp only [hmem]
        rfl

theorem RegistrySound.restart (hsound : RegistrySound store) {order : List String}
    {skipped : String → ℕ} (hskipped : skipped systemBook.name = 0)
    (hrestart : store.restart order skipped = some next) : RegistrySound next := by
  obtain ⟨tasks, books, hnodup, hkeys, rfl, htasks, -, hbooks⟩ := restart_cases hrestart
  constructor
  · intro writer hlookup
    have hdirs := congrArg (fun dirs => dirs[writer]?) (map_dir_of_startsOn htasks)
    rw [List.getElem?_map, hbooks _ _ hlookup, Option.map_eq_some_iff] at hdirs
    exact hdirs
  · exact hsound.elsewhere
  · intro id call asset hcall
    simp [onLogs] at hcall
  · intro id hlock
    simp [onLogs] at hlock
  · intro idx sent asset hjob
    simp [onLogs] at hjob
  · intro taken hmem
    simp [onLogs] at hmem
  · refine ⟨store.registered, ?_, (List.append_nil _).symm⟩
    have hregistry := hsound.registryOf_eq hskipped hnodup ∅
    refine hregistry.trans ?_
    split
    · rfl
    · next habsent =>
        have hnone : store.logs.lookup systemBook.name = none := by
          refine Finmap.lookup_eq_none.2 fun hin => habsent ?_
          rw [← List.mem_toFinset, hkeys, Finset.mem_erase, Finmap.mem_keys]
          exact ⟨by decide, hin⟩
        rw [registered, LogTaleaStore.log, hnone]
        rfl
  · exact hsound.once

/-- Every step that meets the conditions keeps the invariant. -/
theorem RegistrySound.step (hsound : RegistrySound store) {event : Event}
    (hundamaged : Undamaged store event) (hkeeps : KeepsRegistrations store event)
    (hstep : store.step event = some next) : RegistrySound next := by
  cases event with
  | call id op => exact hsound.call hstep
  | poll id io => exact hsound.poll hstep
  | cancel id => exact hsound.cancel hkeeps hstep
  | take writer count => exact hsound.take hstep
  | write writer io => exact hsound.write hstep
  | fail writer io kept => exact hundamaged.elim
  | answer writer => exact hsound.answer hstep
  | exit writer => exact hsound.exit hstep
  | restart order skipped => exact hsound.restart hundamaged hstep

theorem RegistrySound.fresh : RegistrySound fresh where
  home writer hlookup := by simp [LogTaleaStore.fresh, onLogs] at hlookup
  elsewhere dir _ := rfl
  waits id call asset hcall := by simp [LogTaleaStore.fresh, onLogs] at hcall
  holder id hlock := by simp [LogTaleaStore.fresh, onLogs] at hlock
  jobs idx sent asset hjob := by simp [LogTaleaStore.fresh, onLogs] at hjob
  turns taken hmem := by simp [LogTaleaStore.fresh, onLogs] at hmem
  current := ⟨[], rfl, rfl⟩
  once := List.nodup_nil

end Steps

/-! ## Runs -/

/-- Whatever calls there are and wherever they are dropped, as long as none is
dropped that has sent the job of a registration: unless a registration is queued
or running, the registry holds exactly the assets of the log, and no id has two
events. -/
theorem registrations_atomic (events : List Event)
    (hundamaged : StepsMeet step Undamaged fresh events)
    (hkeeps : StepsMeet step KeepsRegistrations fresh events) :
    StatesMeet step RegistrySettled fresh events :=
  statesMeet_of_invariant
    (fun _ _ _ hsound hcond hstep => RegistrySound.step hsound hcond.1 hcond.2 hstep)
    (fun _ hsound => hsound.settled) .fresh (hundamaged.and hkeeps)

namespace DroppedCall

def dollar : AssetDef :=
  ⟨⟨"USD"⟩, .fiat, 2, "dollar"⟩

/-- A registration is dropped while it waits for the lock of the map; the next
one goes through, and the store is opened again. -/
def early : List Event :=
  .call 0 (.registerAsset dollar) :: polls 0 4 ++ .cancel 0 ::
    .call 1 (.registerAsset dollar) :: polls 1 9 ++ serves 0 ++ polls 1 2 ++
    [.restart ["_system"] fun _ => 0]

/-- One is dropped behind its job, which the writer goes on with. -/
def late : List Event :=
  .call 0 (.registerAsset dollar) :: polls 0 8 ++ .cancel 0 :: serves 0

/-- The same asset is registered once more. -/
def again : List Event :=
  late ++ .call 1 (.registerAsset dollar) :: polls 1 7 ++ serves 0 ++ polls 1 2

theorem undamaged_early : StepsMeet step Undamaged fresh early := by
  decide +kernel

theorem keeps_early : StepsMeet step KeepsRegistrations fresh early := by
  decide +kernel

theorem undamaged_again : StepsMeet step Undamaged fresh again := by
  decide +kernel

theorem again_twice : (execSteps step fresh again).map
    (fun store => (decide store.Registering, store.registered)) =
      some (false, [dollar, dollar]) := by
  decide +kernel

end DroppedCall

theorem registrations_atomic_early :
    StatesMeet step RegistrySettled fresh DroppedCall.early :=
  registrations_atomic DroppedCall.early DroppedCall.undamaged_early DroppedCall.keeps_early

/-- A call that is dropped behind its job leaves an event that the registry has
not heard of, and the asset gets a second one. -/
theorem registrations_torn : ¬ ∀ events, StepsMeet step Undamaged fresh events →
    StatesMeet step RegistrySettled fresh events := by
  intro hall
  obtain ⟨store, hexec, hstore⟩ := Option.map_eq_some_iff.1 DroppedCall.again_twice
  obtain ⟨hquiet, hregistered⟩ := Prod.mk.inj hstore
  have hexact := (hall DroppedCall.again DroppedCall.undamaged_again).last hexec
    (of_decide_eq_false hquiet)
  have honce := hexact.once
  rw [hregistered] at honce
  exact absurd honce (by decide)

end Talea.Log
