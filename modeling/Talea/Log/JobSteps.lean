import Talea.Log.Classification

/-!
# What classifying one job does

Phase 2c goes through the jobs of a batch in order.  Here is everything one job
can do to the classification so far, and the induction over the jobs that
invariants of a batch are proved by.
-/

namespace Talea.Log

/-- An invariant of a fold over indexed items, which may speak of how many
items have been folded. -/
theorem foldlM_zipIdx_invariant {ε σ α : Type} {step : σ → α × ℕ → Except ε σ}
    {Inv : ℕ → σ → Prop} {items : List α}
    (hstep : ∀ idx item state next, items[idx]? = some item → Inv idx state →
      step state (item, idx) = .ok next → Inv (idx + 1) next)
    {state final : σ} (hinit : Inv 0 state)
    (hfold : items.zipIdx.foldlM step state = .ok final) : Inv items.length final := by
  suffices hgen : ∀ (rest : List α) (start : ℕ) (state : σ), items.drop start = rest →
      Inv start state → (rest.zipIdx start).foldlM step state = .ok final →
      Inv (start + rest.length) final by
    have := hgen items 0 state rfl hinit hfold
    rwa [Nat.zero_add] at this
  intro rest
  induction rest with
  | nil =>
      intro start state _ hinv hnil
      cases hnil
      exact hinv
  | cons item rest ih =>
      intro start state hdrop hinv hcons
      rw [List.zipIdx_cons, List.foldlM_cons, Except.bind_eq_ok] at hcons
      obtain ⟨next, hnext, hrest⟩ := hcons
      have hitem : items[start]? = some item := by
        rw [← List.head?_drop, hdrop, List.head?_cons]
      have hlater : items.drop (start + 1) = rest := by
        rw [← List.tail_drop, hdrop, List.tail_cons]
      have hfinal := ih (start + 1) next hlater (hstep start item state next hitem hinv hnext) hrest
      rw [List.length_cons]
      convert hfinal using 1
      omega

variable (state : BookState) (resolved : HashMap String CommittedRec)

/-- The committed record of a key, from the hot map or from the run files. -/
def seenRecord (key : String) : Option CommittedRec :=
  (state.idem.getHot key).or (resolved.lookup key)

/-- Classifying the job with index `idx` at the clock reading `now`. -/
inductive JobStep (acc : Classified) (idx : ℕ) (now : Int) : Job → Classified → Prop
  | dup {tx : Transaction} {rec : CommittedRec}
      (hseen : seenRecord state resolved tx.idempotencyKey.key = some rec) :
      JobStep acc idx now (.commit tx) (acc.reply (.dup idx rec))
  | dupInBatch {tx : Transaction} {slot : ℕ}
      (hseen : seenRecord state resolved tx.idempotencyKey.key = none)
      (hslot : acc.scratch.idem.lookup tx.idempotencyKey.key = some slot) :
      JobStep acc idx now (.commit tx) (acc.reply (.dupInBatch idx slot))
  | reject {tx : Transaction} {err : StoreError}
      (hseen : seenRecord state resolved tx.idempotencyKey.key = none)
      (hnew : acc.scratch.idem.lookup tx.idempotencyKey.key = none)
      (herr : (state.validate tx acc.scratch).1 = .error err) :
      JobStep acc idx now (.commit tx)
        (Classified.reply { acc with scratch := (state.validate tx acc.scratch).2 }
          (.reject idx err))
  | commit {tx : Transaction} {scratch : Scratch}
      (hseen : seenRecord state resolved tx.idempotencyKey.key = none)
      (hnew : acc.scratch.idem.lookup tx.idempotencyKey.key = none)
      (hok : (state.validate tx acc.scratch).1 = .ok ())
      (hstage : (state.validate tx acc.scratch).2.stage tx = .ok scratch) :
      JobStep acc idx now (.commit tx)
        (Classified.stageEvent
          { acc with scratch := { scratch with
              idem := scratch.idem.insert tx.idempotencyKey.key acc.staged.length } }
          idx now (.transactionPosted tx))
  | openExists {account : AccountDef} {cfg : AccountCfg} {existing : AccountState}
      (hopen : state.accounts.lookup account.id.toKey = some existing)
      (hsame : existing.account = account ∧ existing.cfg = cfg) :
      JobStep acc idx now (.openAccount account cfg) (acc.reply (.openExistsOk idx))
  | openConflict {account : AccountDef} {cfg : AccountCfg} {existing : AccountState}
      (hopen : state.accounts.lookup account.id.toKey = some existing)
      (hdiffer : ¬(existing.account = account ∧ existing.cfg = cfg)) :
      JobStep acc idx now (.openAccount account cfg)
        (acc.reply (.reject idx (.alreadyExists s!"account {account.id.toKey}")))
  | openAccount {account : AccountDef} {cfg : AccountCfg}
      (hnew : state.accounts.lookup account.id.toKey = none) :
      JobStep acc idx now (.openAccount account cfg)
        (acc.stageEvent idx now (.accountOpened account cfg))
  | registerAsset {asset : AssetDef} :
      JobStep acc idx now (.registerAsset asset)
        (acc.stageEvent idx now (.assetRegistered asset))
  | snapshot :
      JobStep acc idx now .snapshot { acc with snapJobs := acc.snapJobs ++ [idx] }

variable {state resolved}

theorem jobStep_of_classifyCommit {acc next : Classified} {idx : ℕ} {tx : Transaction} {now : Int}
    (hnext : classifyCommit state resolved acc idx tx now = .ok next) :
    JobStep state resolved acc idx now (.commit tx) next := by
  unfold classifyCommit at hnext
  dsimp only at hnext
  cases hseen : (state.idem.getHot tx.idempotencyKey.key).or
      (resolved.lookup tx.idempotencyKey.key) with
  | some rec =>
      rw [hseen] at hnext
      cases hnext
      exact .dup hseen
  | none =>
      rw [hseen] at hnext
      cases hslot : acc.scratch.idem.lookup tx.idempotencyKey.key with
      | some slot =>
          rw [hslot] at hnext
          cases hnext
          exact .dupInBatch hseen hslot
      | none =>
          rw [hslot] at hnext
          rcases hvalidate : state.validate tx acc.scratch with ⟨verdict, scratch⟩
          rw [hvalidate] at hnext
          cases verdict with
          | error err =>
              cases hnext
              have hstep : JobStep state resolved acc idx now (.commit tx) _ := .reject hseen hslot
                (congrArg Prod.fst hvalidate)
              rwa [hvalidate] at hstep
          | ok _ =>
              cases hstage : scratch.stage tx with
              | error message => simp [hstage] at hnext
              | ok staged =>
                  simp only [hstage] at hnext
                  cases hnext
                  exact .commit hseen hslot (congrArg Prod.fst hvalidate)
                    (by rw [hvalidate]; exact hstage)

/-- Everything one job can do. -/
theorem jobStep_of_classifyJob {acc next : Classified} {idx : ℕ} {job : Job} {now : Int}
    (hnext : classifyJob state resolved acc ((job, now), idx) = .ok next) :
    JobStep state resolved acc idx now job next := by
  cases job with
  | commit tx => exact jobStep_of_classifyCommit hnext
  | openAccount account cfg =>
      cases hnext
      unfold classifyOpenAccount
      dsimp only
      cases hopen : state.accounts.lookup account.id.toKey with
      | none => exact .openAccount hopen
      | some existing =>
          dsimp only
          split
          · next hsame => exact .openExists hopen hsame
          · next hdiffer => exact .openConflict hopen hdiffer
  | registerAsset asset =>
      cases hnext
      exact .registerAsset
  | snapshot =>
      cases hnext
      exact .snapshot

/-- An invariant of the classification of a batch. -/
theorem classify_invariant {jobs : List (Job × Int)} {startNow : Int} {batch : Classified}
    (Inv : ℕ → Classified → Prop) (hinit : Inv 0 (Classified.start state startNow))
    (hstep : ∀ idx job now acc next, jobs[idx]? = some (job, now) → Inv idx acc →
      JobStep state resolved acc idx now job next → Inv (idx + 1) next)
    (hbatch : classify state resolved startNow jobs = .ok batch) : Inv jobs.length batch := by
  refine foldlM_zipIdx_invariant ?_ hinit hbatch
  rintro idx ⟨job, now⟩ acc next hjob hinv hnext
  exact hstep idx job now acc next hjob hinv (jobStep_of_classifyJob hnext)

/-! ## A classified batch can be applied -/

/-- What holds of a batch whatever the idempotency index says: the staged
events carry on the seqs of the state and apply to it, and duplicates within the
batch find the event of their key. -/
structure Classified.Applies (jobs : List (Job × Int)) (state : BookState) (acc : Classified) :
    Prop where
  numbered : Numbered state.nextSeq acc.wires
  seq_eq : acc.seq = state.nextSeq + acc.staged.length
  applied : ∃ applied, applyStaged state acc.staged = .ok applied ∧
    Overlay state applied acc.scratch.raw
  slots : ∀ key slot, acc.scratch.idem.lookup key = some slot →
    ∃ entry committed, acc.staged[slot]? = some entry ∧
      entry.wire.committed = some (key, committed)
  replies : ∀ reply ∈ acc.replies, reply.SlotStaged jobs acc.staged

namespace Classified.Applies

variable {jobs : List (Job × Int)} {acc : Classified} {scratch : Scratch}

theorem start (jobs : List (Job × Int)) (state : BookState) (startNow : Int) :
    (Classified.start state startNow).Applies jobs state where
  numbered := trivial
  seq_eq := by simp [Classified.start]
  applied := ⟨state, rfl, Overlay.refl state⟩
  slots key slot h := by simp [Classified.start, Scratch.initial] at h
  replies reply hreply := by simp [Classified.start] at hreply

theorem reply (happlies : acc.Applies jobs state) {reply : Reply}
    (hreply : reply.SlotStaged jobs acc.staged) : (acc.reply reply).Applies jobs state :=
  { happlies with
    replies := fun other hother => by
      rcases List.mem_append.1 hother with hold | hnew
      · exact happlies.replies other hold
      · rwa [List.mem_singleton.1 hnew] }

theorem withScratch (happlies : acc.Applies jobs state)
    (hover : ∀ applied, Overlay state applied acc.scratch.raw → Overlay state applied scratch.raw)
    (hidem : scratch.idem = acc.scratch.idem) :
    Classified.Applies jobs state { acc with scratch } :=
  { happlies with
    applied :=
      let ⟨applied, hreplay, happlied⟩ := happlies.applied
      ⟨applied, hreplay, hover applied happlied⟩
    slots := by
      change ∀ key slot, scratch.idem.lookup key = some slot → _
      rw [hidem]
      exact happlies.slots }

theorem stageEvent (happlies : acc.Applies jobs state) {event : LedgerEvent} (idx : ℕ) (now : Int)
    (happly : ∀ applied seq time, Overlay state applied acc.scratch.raw →
      ∃ next, applied.applyEvent (⟨seq, time, event⟩, (0, 0)) = .ok next ∧
        Overlay state next scratch.raw)
    (hidem : scratch.idem = recordSlot acc.scratch.idem event acc.staged.length) :
    (Classified.stageEvent { acc with scratch } idx now event).Applies jobs state := by
  obtain ⟨applied, hreplay, happlied⟩ := happlies.applied
  obtain ⟨next, hnext, hover⟩ := happly applied acc.seq (max acc.batchAt now) happlied
  constructor
  · unfold wires Classified.stageEvent
    rw [List.map_append, numbered_append]
    refine ⟨happlies.numbered, ?_, trivial⟩
    simp [happlies.seq_eq]
  · simp only [Classified.stageEvent, happlies.seq_eq, List.length_append, List.length_singleton]
    push_cast
    ring
  · refine ⟨next, ?_, hover⟩
    unfold applyStaged Classified.stageEvent
    rw [List.map_append, List.map_singleton, BookState.replay_concat_eq_ok]
    exact ⟨applied, hreplay, hnext⟩
  · change ∀ key slot, scratch.idem.lookup key = some slot → _
    rw [hidem]
    exact slots_recordSlot happlies.slots idx ⟨acc.seq, max acc.batchAt now, event⟩
  · intro reply hreply
    rcases List.mem_append.1 hreply with hold | hnew
    · exact (happlies.replies reply hold).mono _
    · rw [List.mem_singleton.1 hnew]
      trivial

/-- One job keeps the invariant. -/
theorem step {next : Classified} {idx : ℕ} {job : Job} {now : Int}
    (happlies : acc.Applies jobs state) (hjob : jobs[idx]? = some (job, now))
    (hstep : JobStep state resolved acc idx now job next) : next.Applies jobs state := by
  cases hstep with
  | dup hseen => exact happlies.reply trivial
  | @dupInBatch tx slot hseen hslot =>
      refine happlies.reply fun other now' hother => ?_
      rw [hjob] at hother
      cases hother
      exact happlies.slots _ slot hslot
  | @reject tx err hseen hnew herr =>
      have hseeded := happlies.withScratch (fun applied hover => hover.validate tx)
        (BookState.idem_validate tx acc.scratch)
      exact hseeded.reply trivial
  | @commit tx scratch hseen hnew hok hstage =>
      refine happlies.stageEvent idx now (fun applied seq time hover => ?_) ?_
      · exact (hover.validate tx).tryApplyTransaction hstage seq time (0, 0)
      · simp only [recordSlot]
        rw [Scratch.idem_stage hstage, BookState.idem_validate]
  | openExists hopen hsame => exact happlies.reply trivial
  | openConflict hopen hdiffer => exact happlies.reply trivial
  | @openAccount account cfg hnew =>
      exact happlies.stageEvent idx now
        (fun applied seq time hover => ⟨_, rfl, hover.accountOpened account cfg seq time⟩) rfl
  | registerAsset =>
      exact happlies.stageEvent idx now
        (fun applied seq time hover => ⟨_, rfl, hover.of_accounts rfl⟩) rfl
  | snapshot =>
      exact ⟨happlies.numbered, happlies.seq_eq, happlies.applied, happlies.slots,
        happlies.replies⟩

end Classified.Applies

theorem applies_classify {jobs : List (Job × Int)} {startNow : Int} {batch : Classified}
    (hbatch : classify state resolved startNow jobs = .ok batch) : batch.Applies jobs state :=
  classify_invariant (fun _ acc => acc.Applies jobs state) (.start jobs state startNow)
    (fun _ _ _ _ _ hjob happlies hstep => happlies.step hjob hstep) hbatch

end Talea.Log
