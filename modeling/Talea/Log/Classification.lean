import Talea.Log.IdemIndex
import Talea.Log.Overlay
import Talea.Log.Layout
import Talea.Log.Writer

/-!
# What a batch stages

Classifying a batch job by job keeps one invariant: the staged events continue
the log without a gap and without stepping back in time, they can be applied to
the committed state one after the other, none of them commits a key that the
log or the batch has already, and every reply that will say `Ok` to a commit
speaks of the one event of its key.
-/

namespace Talea.Log

variable {rt : Runtime}

/-! ## Looking the keys of a batch up -/

section Resolve

variable (reads : ℕ → Bool) (idem : TieredIdem) (dir : RunDir)

theorem lookup_resolveJob (resolved : HashMap String CommittedRec) (job : Job) (key : String) :
    (resolveJob rt reads idem dir resolved job).lookup key =
      if job.key = some key then
        (diskRecord rt reads idem dir key).or (resolved.lookup key)
      else resolved.lookup key := by
  unfold resolveJob
  split
  · next hnone => simp [hnone]
  · next other hother =>
      rw [hother]
      by_cases hsame : other = key
      · subst hsame
        rw [if_pos rfl]
        cases diskRecord rt reads idem dir other with
        | none => simp
        | some rec => simp
      · rw [if_neg (by simpa using hsame)]
        split
        · rw [HashMap.lookup_insert_ite, if_neg (Ne.symm hsame)]
        · rfl

/-- A key that was looked up stays resolved to what the run files have. -/
theorem lookup_foldl_resolveJob {jobs : List Job} {resolved : HashMap String CommittedRec}
    {key : String}
    (hseen : resolved.lookup key = diskRecord rt reads idem dir key ∨
      resolved.lookup key = none ∧ ∃ job ∈ jobs, job.key = some key) :
    (jobs.foldl (resolveJob rt reads idem dir) resolved).lookup key =
      diskRecord rt reads idem dir key := by
  induction jobs generalizing resolved with
  | nil => simpa using hseen
  | cons job jobs ih =>
      refine ih ?_
      rw [lookup_resolveJob]
      rcases hseen with hdone | ⟨hnone, other, hmem, hkey⟩
      · left
        rw [hdone]
        cases diskRecord rt reads idem dir key <;> simp
      · rcases List.mem_cons.1 hmem with rfl | hlater
        · left
          rw [if_pos hkey, hnone, Option.or_none]
        · by_cases hhere : job.key = some key
          · left
            rw [if_pos hhere, hnone, Option.or_none]
          · right
            rw [if_neg hhere]
            exact ⟨hnone, other, hlater, hkey⟩

/-- Hot map and resolved keys together answer like a full lookup. -/
theorem lookup_resolveKeys {jobs : List Job} {job : Job} (hmem : job ∈ jobs) {key : String}
    (hkey : job.key = some key) :
    (idem.getHot key).or ((resolveKeys rt reads idem dir jobs).lookup key) =
      idem.get rt reads dir key := by
  have hresolved : (resolveKeys rt reads idem dir jobs).lookup key =
      diskRecord rt reads idem dir key :=
    lookup_foldl_resolveJob reads idem dir (Or.inr ⟨by simp, job, hmem, hkey⟩)
  rw [hresolved]
  unfold TieredIdem.get diskRecord
  cases idem.getHot key <;> simp

end Resolve

/-! ## The invariant -/

namespace Classified

/-- The events staged so far. -/
def wires (acc : Classified) : List WireEvent :=
  acc.staged.map Staged.wire

def items (acc : Classified) : List (WireEvent × FramePos) :=
  acc.staged.map fun entry => (entry.wire, entry.pos)

end Classified

/-- A staged entry that answers a commit job is that commit's event. -/
def Staged.Matches (jobs : List (Job × Int)) (entry : Staged) : Prop :=
  ∀ tx now, jobs[entry.jobIdx]? = some (.commit tx, now) →
    entry.wire.event = .transactionPosted tx

/-- What an `Ok` reply to a commit rests on: the log's record of the key, or an
event the batch has staged. -/
def Reply.Justified (jobs : List (Job × Int)) (pairs : List (String × Committed))
    (staged : List Staged) : Reply → Prop
  | .dup idx rec => ∀ tx now, jobs[idx]? = some (.commit tx, now) →
      (tx.idempotencyKey.key, rec) ∈ pairs
  | .dupInBatch idx slot => ∀ tx now, jobs[idx]? = some (.commit tx, now) →
      ∃ entry committed, staged[slot]? = some entry ∧
        entry.wire.committed = some (tx.idempotencyKey.key, committed)
  | _ => True

/-- The slot of a duplicate within the batch is that of the first event with its
key. -/
def Reply.SlotStaged (jobs : List (Job × Int)) (staged : List Staged) : Reply → Prop
  | .dupInBatch idx slot => ∀ tx now, jobs[idx]? = some (.commit tx, now) →
      ∃ entry committed, staged[slot]? = some entry ∧
        entry.wire.committed = some (tx.idempotencyKey.key, committed)
  | _ => True

theorem getElem?_append_of_some {α : Type} {left right : List α} {idx : ℕ} {item : α}
    (hitem : left[idx]? = some item) : (left ++ right)[idx]? = some item := by
  rw [List.getElem?_append_left (List.getElem?_eq_some_iff.1 hitem).1, hitem]

theorem Reply.SlotStaged.mono {jobs : List (Job × Int)} {staged : List Staged} {reply : Reply}
    (hslot : reply.SlotStaged jobs staged) (entry : Staged) :
    reply.SlotStaged jobs (staged ++ [entry]) := by
  cases reply with
  | dupInBatch idx slot =>
      intro tx now hjob
      obtain ⟨other, committed, hother, hcommitted⟩ := hslot tx now hjob
      exact ⟨other, committed, getElem?_append_of_some hother, hcommitted⟩
  | _ => trivial

theorem Reply.Justified.mono {jobs : List (Job × Int)} {pairs : List (String × Committed)}
    {staged : List Staged} {reply : Reply} (hjustified : reply.Justified jobs pairs staged)
    (entry : Staged) : reply.Justified jobs pairs (staged ++ [entry]) := by
  cases reply with
  | dup idx rec => exact hjustified
  | dupInBatch idx slot =>
      have hslot : (Reply.dupInBatch idx slot).SlotStaged jobs staged := hjustified
      exact hslot.mono entry
  | _ => trivial

/-- The classification invariant: `pairs` are the committed keys of the log,
`start` is the clock floor of the batch. -/
structure Classified.Sound (jobs : List (Job × Int)) (state : BookState)
    (pairs : List (String × Committed)) (start : Int) (acc : Classified) : Prop where
  numbered : Numbered state.nextSeq acc.wires
  seq_eq : acc.seq = state.nextSeq + acc.staged.length
  times : acc.wires.Pairwise fun left right => left.at' ≤ right.at'
  time_bounds : ∀ ev ∈ acc.wires, start ≤ ev.at' ∧ ev.at' ≤ acc.batchAt
  start_le : start ≤ acc.batchAt
  applied : ∃ applied, state.replay acc.items = .ok applied ∧
    Overlay state applied acc.scratch.raw
  keys_nodup : ((pairs ++ commitsOf acc.wires).map Prod.fst).Nodup
  staged_keys : ∀ pair ∈ commitsOf acc.wires, pair.1 ∈ acc.scratch.idem
  slots : ∀ key slot, acc.scratch.idem.lookup key = some slot →
    ∃ entry committed, acc.staged[slot]? = some entry ∧
      entry.wire.committed = some (key, committed)
  matching : ∀ entry ∈ acc.staged, entry.Matches jobs
  justified : ∀ reply ∈ acc.replies, reply.Justified jobs pairs acc.staged

namespace Classified

variable {jobs : List (Job × Int)} {state : BookState} {pairs : List (String × Committed)}
  {start : Int} {acc : Classified}

theorem sound_start (jobs : List (Job × Int)) (state : BookState)
    {pairs : List (String × Committed)} (hnodup : (pairs.map Prod.fst).Nodup) (startNow : Int) :
    (Classified.start state startNow).Sound jobs state pairs
      (max startNow (state.lastAt.getD unixEpoch)) where
  numbered := trivial
  seq_eq := by simp [Classified.start]
  times := List.Pairwise.nil
  time_bounds ev hev := by simp [wires, Classified.start] at hev
  start_le := le_rfl
  applied := ⟨state, rfl, Overlay.refl state⟩
  keys_nodup := by simpa [wires, Classified.start, commitsOf] using hnodup
  staged_keys pair hpair := by simp [wires, Classified.start, commitsOf] at hpair
  slots key slot h := by simp [Classified.start, Scratch.initial] at h
  matching entry hentry := by simp [Classified.start] at hentry
  justified reply hreply := by simp [Classified.start] at hreply

theorem Sound.reply (hsound : acc.Sound jobs state pairs start) {reply : Reply}
    (hreply : reply.Justified jobs pairs acc.staged) :
    (acc.reply reply).Sound jobs state pairs start :=
  { hsound with
    justified := fun other hother => by
      rcases List.mem_append.1 hother with hold | hnew
      · exact hsound.justified other hold
      · rwa [List.mem_singleton.1 hnew] }

/-- An overlay that was only seeded replaces the old one. -/
theorem Sound.withScratch (hsound : acc.Sound jobs state pairs start) {scratch : Scratch}
    (hover : ∀ applied, Overlay state applied acc.scratch.raw →
      Overlay state applied scratch.raw)
    (hidem : scratch.idem = acc.scratch.idem) :
    Sound jobs state pairs start { acc with scratch } :=
  { hsound with
    applied := by
      obtain ⟨applied, hreplay, happlied⟩ := hsound.applied
      exact ⟨applied, hreplay, hover applied happlied⟩
    staged_keys := fun pair hpair => by
      change pair.1 ∈ scratch.idem
      rw [hidem]
      exact hsound.staged_keys pair hpair
    slots := fun key slot h => by
      change scratch.idem.lookup key = some slot at h
      rw [hidem] at h
      exact hsound.slots key slot h }

/-- The staged slots after an event was staged under its key, if it has one. -/
def recordSlot (idem : HashMap String ℕ) (event : LedgerEvent) (slot : ℕ) :
    HashMap String ℕ :=
  match event with
  | .transactionPosted tx => idem.insert tx.idempotencyKey.key slot
  | _ => idem

/-- The slots of the staged keys stay right when an event is staged. -/
theorem slots_recordSlot {idem : HashMap String ℕ} {staged : List Staged}
    (hslots : ∀ key slot, idem.lookup key = some slot → ∃ entry committed,
      staged[slot]? = some entry ∧ entry.wire.committed = some (key, committed))
    (idx : ℕ) (ev : WireEvent) :
    ∀ key slot, (recordSlot idem ev.event staged.length).lookup key = some slot →
      ∃ entry committed, (staged ++ [⟨idx, ev, (0, 0)⟩])[slot]? = some entry ∧
        entry.wire.committed = some (key, committed) := by
  intro key slot hslot
  have hold : idem.lookup key = some slot →
      ∃ entry committed, (staged ++ [⟨idx, ev, (0, 0)⟩])[slot]? = some entry ∧
        entry.wire.committed = some (key, committed) := by
    intro h
    obtain ⟨entry, committed, hentry, hpair⟩ := hslots key slot h
    exact ⟨entry, committed, getElem?_append_of_some hentry, hpair⟩
  obtain ⟨seq, time, event⟩ := ev
  cases event with
  | transactionPosted tx =>
      simp only [recordSlot, HashMap.lookup_insert_ite] at hslot
      split at hslot
      · next hsame =>
          cases hslot
          exact ⟨⟨idx, ⟨seq, time, .transactionPosted tx⟩, (0, 0)⟩, ⟨tx.id, seq, time⟩, by simp,
            by rw [hsame]; rfl⟩
      · exact hold hslot
  | assetRegistered asset => exact hold hslot
  | accountOpened account cfg => exact hold hslot

/-- Staging an event that applies and whose key, if any, is new. -/
theorem Sound.stageEvent (hsound : acc.Sound jobs state pairs start) {scratch : Scratch}
    {event : LedgerEvent} {idx : ℕ} (now : Int)
    (happly : ∀ applied seq time, Overlay state applied acc.scratch.raw →
      ∃ next, applied.applyEvent (⟨seq, time, event⟩, (0, 0)) = .ok next ∧
        Overlay state next scratch.raw)
    (hidem : scratch.idem = recordSlot acc.scratch.idem event acc.staged.length)
    (hfresh : ∀ tx, event = .transactionPosted tx →
      tx.idempotencyKey.key ∉ pairs.map Prod.fst ∧ tx.idempotencyKey.key ∉ acc.scratch.idem)
    (hmatches : ∀ tx now, jobs[idx]? = some (.commit tx, now) → event = .transactionPosted tx) :
    Sound jobs state pairs start (Classified.stageEvent { acc with scratch } idx now event) := by
  obtain ⟨applied, hreplay, happlied⟩ := hsound.applied
  obtain ⟨next, hnext, hover⟩ := happly applied acc.seq (max acc.batchAt now) happlied
  set ev : WireEvent := ⟨acc.seq, max acc.batchAt now, event⟩ with hev
  have hwires : (Classified.stageEvent { acc with scratch } idx now event).wires =
      acc.wires ++ [ev] := by
    simp [Classified.stageEvent, wires, hev]
  have hcommitted : ∀ key committed, ev.committed = some (key, committed) →
      ∃ tx, event = .transactionPosted tx ∧ tx.idempotencyKey.key = key := by
    intro key committed h
    cases event with
    | transactionPosted tx => exact ⟨tx, rfl, congrArg Prod.fst (Option.some.inj h)⟩
    | assetRegistered asset => simp [hev, WireEvent.committed, LedgerEvent.committedAs] at h
    | accountOpened account cfg => simp [hev, WireEvent.committed, LedgerEvent.committedAs] at h
  have hcommits : commitsOf (acc.wires ++ [ev]) = commitsOf acc.wires ++ ev.committed.toList := by
    rw [commitsOf_append, commitsOf_cons]
    simp [commitsOf]
  constructor
  · rw [hwires, numbered_append]
    refine ⟨hsound.numbered, ?_, trivial⟩
    simp [hev, hsound.seq_eq, wires]
  · simp only [Classified.stageEvent, hsound.seq_eq, List.length_append, List.length_singleton]
    push_cast
    ring
  · rw [hwires, List.pairwise_append]
    refine ⟨hsound.times, List.pairwise_singleton _ _, ?_⟩
    intro left hleft right hright
    rw [List.mem_singleton.1 hright]
    exact (hsound.time_bounds left hleft).2.trans (le_max_left _ _)
  · rw [hwires]
    intro other hother
    rcases List.mem_append.1 hother with hold | hnew
    · have := hsound.time_bounds other hold
      exact ⟨this.1, this.2.trans (le_max_left _ _)⟩
    · rw [List.mem_singleton.1 hnew]
      exact ⟨hsound.start_le.trans (le_max_left _ _), le_rfl⟩
  · exact hsound.start_le.trans (le_max_left _ _)
  · refine ⟨next, ?_, hover⟩
    have hitems : (Classified.stageEvent { acc with scratch } idx now event).items =
        acc.items ++ [(ev, (0, 0))] := by
      simp [Classified.stageEvent, items, hev]
    rw [hitems, BookState.replay_concat_eq_ok]
    exact ⟨applied, hreplay, hnext⟩
  · rw [hwires, hcommits, ← List.append_assoc, List.map_append, List.nodup_append]
    refine ⟨hsound.keys_nodup, ?_, ?_⟩
    · cases ev.committed <;> simp
    · intro key hkey other hother
      obtain ⟨pair, hpair, rfl⟩ := List.mem_map.1 hother
      obtain ⟨tx, htx, heq⟩ := hcommitted pair.1 pair.2 (by simpa using hpair)
      obtain ⟨hlog, hbatch⟩ := hfresh tx htx
      rintro rfl
      rw [List.map_append, List.mem_append] at hkey
      rcases hkey with hin | hin
      · exact hlog (heq ▸ hin)
      · obtain ⟨old, hold, hsame⟩ := List.mem_map.1 hin
        exact hbatch (heq ▸ hsame ▸ hsound.staged_keys old hold)
  · intro pair hpair
    rw [hwires, hcommits] at hpair
    change pair.1 ∈ scratch.idem
    rw [hidem]
    rcases List.mem_append.1 hpair with hold | hnew
    · have hin := hsound.staged_keys pair hold
      unfold recordSlot
      split
      · exact Finmap.mem_insert.2 (Or.inr hin)
      · exact hin
    · obtain ⟨tx, htx, heq⟩ := hcommitted pair.1 pair.2 (by simpa using hnew)
      rw [htx]
      exact Finmap.mem_insert.2 (Or.inl heq.symm)
  · change ∀ key slot, scratch.idem.lookup key = some slot → _
    rw [hidem]
    exact slots_recordSlot hsound.slots idx ev
  · intro entry hentry
    rcases List.mem_append.1 hentry with hold | hnew
    · exact hsound.matching entry hold
    · rw [List.mem_singleton.1 hnew]
      exact hmatches
  · intro reply hreply
    rcases List.mem_append.1 hreply with hold | hnew
    · exact (hsound.justified reply hold).mono _
    · rw [List.mem_singleton.1 hnew]
      trivial

variable {resolved : HashMap String CommittedRec}

theorem Sound.classifyCommit (hsound : acc.Sound jobs state pairs start) {idx : ℕ}
    {tx : Transaction} {now : Int} (hjob : jobs[idx]? = some (.commit tx, now))
    (hlookup : (state.idem.getHot tx.idempotencyKey.key).or
      (resolved.lookup tx.idempotencyKey.key) = SortedPairs.search pairs tx.idempotencyKey.key)
    {next : Classified} (hnext : classifyCommit state resolved acc idx tx now = .ok next) :
    next.Sound jobs state pairs start := by
  have hnodup : (pairs.map Prod.fst).Nodup := by
    have := hsound.keys_nodup
    rw [List.map_append] at this
    exact (List.nodup_append.1 this).1
  unfold Log.classifyCommit at hnext
  dsimp only at hnext
  rw [hlookup] at hnext
  split at hnext
  · next rec hrec =>
      cases hnext
      refine hsound.reply fun other now' hother => ?_
      rw [hjob] at hother
      cases hother
      exact (SortedPairs.search_eq_some hnodup).1 hrec
  next hunseen =>
  split at hnext
  · next slot hslot =>
      cases hnext
      refine hsound.reply fun other now' hother => ?_
      rw [hjob] at hother
      cases hother
      exact hsound.slots _ slot hslot
  next hunstaged =>
  have hseeded : ∀ applied, Overlay state applied acc.scratch.raw →
      Overlay state applied (state.validate tx acc.scratch).2.raw := fun _ hover => hover.validate tx
  have hidem : (state.validate tx acc.scratch).2.idem = acc.scratch.idem :=
    BookState.idem_validate tx acc.scratch
  split at hnext
  · next err scratch hverdict =>
      cases hnext
      rw [hverdict] at hseeded hidem
      exact (hsound.withScratch hseeded hidem).reply trivial
  next scratch hverdict =>
  rw [hverdict] at hseeded hidem
  split at hnext
  · simp at hnext
  next staged hstage =>
  cases hnext
  refine hsound.stageEvent now ?_ ?_ ?_ ?_
  · intro applied seq time hover
    exact (hseeded applied hover).tryApplyTransaction hstage seq time (0, 0)
  · simp only [recordSlot]
    rw [Scratch.idem_stage hstage, hidem]
  · intro other hother
    cases hother
    constructor
    · intro hin
      obtain ⟨pair, hpair, hkey⟩ := List.mem_map.1 hin
      exact SortedPairs.search_eq_none.1 hunseen pair hpair hkey
    · exact Finmap.lookup_eq_none.1 hunstaged
  · intro other now' hother
    rw [hjob] at hother
    cases hother
    rfl

/-- One job keeps the invariant. -/
theorem Sound.classifyJob (hsound : acc.Sound jobs state pairs start) {job : Job} {now : Int}
    {idx : ℕ} (hjob : jobs[idx]? = some (job, now))
    (hlookup : ∀ key, job.key = some key →
      (state.idem.getHot key).or (resolved.lookup key) = SortedPairs.search pairs key)
    {next : Classified} (hnext : classifyJob state resolved acc ((job, now), idx) = .ok next) :
    next.Sound jobs state pairs start := by
  cases job with
  | commit tx => exact hsound.classifyCommit hjob (hlookup _ rfl) hnext
  | openAccount account cfg =>
      cases hnext
      unfold classifyOpenAccount
      dsimp only
      split
      · split
        · exact hsound.reply trivial
        · exact hsound.reply trivial
      · refine hsound.stageEvent now ?_ rfl (by simp) ?_
        · intro applied seq time hover
          exact ⟨_, rfl, hover.accountOpened account cfg seq time⟩
        · intro tx now' hother
          rw [hjob] at hother
          cases hother
  | registerAsset asset =>
      cases hnext
      refine hsound.stageEvent now ?_ rfl (by simp) ?_
      · intro applied seq time hover
        exact ⟨_, rfl, hover.of_accounts rfl⟩
      · intro tx now' hother
        rw [hjob] at hother
        cases hother
  | snapshot =>
      cases hnext
      exact
        { numbered := hsound.numbered
          seq_eq := hsound.seq_eq
          times := hsound.times
          time_bounds := hsound.time_bounds
          start_le := hsound.start_le
          applied := hsound.applied
          keys_nodup := hsound.keys_nodup
          staged_keys := hsound.staged_keys
          slots := hsound.slots
          matching := hsound.matching
          justified := hsound.justified }

/-- Classifying a batch yields staged events that continue the log. -/
theorem sound_classify (hnodup : (pairs.map Prod.fst).Nodup)
    (hlookup : ∀ job ∈ jobs.map Prod.fst, ∀ key, job.key = some key →
      (state.idem.getHot key).or (resolved.lookup key) = SortedPairs.search pairs key)
    {startNow : Int} {batch : Classified}
    (hbatch : classify state resolved startNow jobs = .ok batch) :
    batch.Sound jobs state pairs (max startNow (state.lastAt.getD unixEpoch)) := by
  refine foldlM_invariant ?_ (sound_start jobs state hnodup startNow) hbatch
  rintro acc ⟨⟨job, now⟩, idx⟩ next hmem hsound hnext
  have hjob : jobs[idx]? = some (job, now) := List.mem_zipIdx_iff_getElem?.1 hmem
  have hin : job ∈ jobs.map Prod.fst :=
    List.mem_map_of_mem (f := Prod.fst) (List.mem_of_getElem? hjob)
  exact hsound.classifyJob hjob (hlookup job hin) hnext

/-- A batch that is sound for some of the log's keys, and stages none of the
others. -/
theorem Sound.of_subset {more : List (String × Committed)}
    (hsound : acc.Sound jobs state pairs start) (hsub : ∀ pair ∈ pairs, pair ∈ more)
    (hnodup : (more.map Prod.fst).Nodup)
    (hnew : ∀ pair ∈ commitsOf acc.wires, pair.1 ∉ more.map Prod.fst) :
    acc.Sound jobs state more start :=
  { hsound with
    keys_nodup := by
      have hkeys := hsound.keys_nodup
      rw [List.map_append, List.nodup_append] at hkeys ⊢
      refine ⟨hnodup, hkeys.2.1, fun key hkey other hother hsame => ?_⟩
      obtain ⟨pair, hpair, rfl⟩ := List.mem_map.1 hother
      exact hnew pair hpair (hsame ▸ hkey)
    justified := fun reply hreply => by
      have hjustified := hsound.justified reply hreply
      cases reply with
      | dup idx rec => exact fun tx now hjob => hsub _ (hjustified tx now hjob)
      | _ => exact hjustified }

end Classified

end Talea.Log
