import Talea.Log.Replay

/-!
# The overlay of a batch

A batch is validated against the committed state and a `Scratch` of projected
balances, and applied only after it is on disk.  The overlay stands for the
state in which the batch's accepted events are applied already: it holds that
state's balance for every account it tracks, and the other accounts have not
moved.  Seeding and staging keep this, and a transaction that can be staged can
be applied.
-/

namespace Talea.Log

/-- `applied` is `state` with staged events applied, and `raw` holds the
balances these have moved. -/
structure Overlay (state applied : BookState) (raw : HashMap String Int) : Prop where
  tracked : ∀ key value, raw.lookup key = some value →
    ∃ acct, applied.accounts.lookup key = some acct ∧ acct.rawBalance = value
  kept : ∀ key acct, state.accounts.lookup key = some acct →
    ∃ acct', applied.accounts.lookup key = some acct' ∧ acct'.account = acct.account ∧
      acct'.cfg = acct.cfg ∧ (key ∉ raw → acct'.rawBalance = acct.rawBalance)

namespace Overlay

variable {state applied : BookState} {raw : HashMap String Int}

theorem refl (state : BookState) : Overlay state state ∅ where
  tracked key value h := by simp at h
  kept key acct h := ⟨acct, h, rfl, rfl, fun _ => rfl⟩

theorem of_accounts (hover : Overlay state applied raw) {other : BookState}
    (haccounts : other.accounts = applied.accounts) : Overlay state other raw where
  tracked key value h := haccounts ▸ hover.tracked key value h
  kept key acct h := haccounts ▸ hover.kept key acct h

/-- A new account does not concern the overlay. -/
theorem accountOpened (hover : Overlay state applied raw) (account : AccountDef)
    (cfg : AccountCfg) (seq time : Int) :
    Overlay state (applied.applyAccountOpened account cfg seq time) raw := by
  have hlookup : ∀ key acct, applied.accounts.lookup key = some acct →
      (applied.applyAccountOpened account cfg seq time).accounts.lookup key = some acct := by
    intro key acct h
    simp only [BookState.applyAccountOpened]
    split
    · exact h
    · next hnew =>
        rw [HashMap.lookup_insert_ite, if_neg, h]
        rintro rfl
        exact hnew (Finmap.mem_of_lookup_eq_some h)
  constructor
  · intro key value h
    obtain ⟨acct, hacct, hraw⟩ := hover.tracked key value h
    exact ⟨acct, hlookup key acct hacct, hraw⟩
  · intro key acct h
    obtain ⟨acct', hacct', hrest⟩ := hover.kept key acct h
    exact ⟨acct', hlookup key acct' hacct', hrest⟩

/-- The committed balance of an account enters the overlay. -/
theorem seedPosting {scratch : Scratch} (hover : Overlay state applied scratch.raw)
    {posting : Posting} (hknown : posting.account.toKey ∈ state.accounts) :
    Overlay state applied (state.seedPosting scratch posting).raw := by
  simp only [BookState.seedPosting]
  split
  · exact hover
  · next hnew =>
      obtain ⟨acct, hacct⟩ := Finmap.mem_iff.1 hknown
      obtain ⟨acct', hacct', -, -, hraw⟩ := hover.kept _ acct hacct
      constructor
      · intro key value h
        rw [HashMap.lookup_insert_ite] at h
        split at h
        · next hsame =>
            refine ⟨acct', hsame ▸ hacct', ?_⟩
            rw [hacct, Option.map_some, Option.getD_some] at h
            rw [hraw hnew, Option.some.inj h]
        · exact hover.tracked key value h
      · intro key other hother
        obtain ⟨other', hother', haccount, hcfg, hkept⟩ := hover.kept key other hother
        exact ⟨other', hother', haccount, hcfg, fun hnotin =>
          hkept fun hin => hnotin (Finmap.mem_insert.2 (Or.inr hin))⟩

theorem seedPostings {scratch : Scratch} (hover : Overlay state applied scratch.raw)
    {postings : List Posting}
    (hknown : ∀ posting ∈ postings, posting.account.toKey ∈ state.accounts) :
    Overlay state applied (postings.foldl state.seedPosting scratch).raw := by
  induction postings generalizing scratch with
  | nil => exact hover
  | cons posting postings ih =>
      exact ih (hover.seedPosting (hknown posting List.mem_cons_self))
        fun other hother => hknown other (List.mem_cons_of_mem _ hother)

end Overlay

namespace BookState

variable {state : BookState}

theorem known_of_checkPosting {posting : Posting}
    (hcheck : state.checkPosting posting = .ok ()) :
    posting.account.toKey ∈ state.accounts := by
  unfold checkPosting at hcheck
  split at hcheck
  · simp at hcheck
  · next acct hacct => exact Finmap.mem_of_lookup_eq_some hacct

@[simp]
theorem idem_foldl_seedPosting (postings : List Posting) (scratch : Scratch) :
    (postings.foldl state.seedPosting scratch).idem = scratch.idem := by
  induction postings generalizing scratch with
  | nil => rfl
  | cons posting postings ih =>
      rw [List.foldl_cons, ih, seedPosting]
      split <;> rfl

/-- Validation leaves the staged keys alone. -/
@[simp]
theorem idem_validate (tx : Transaction) (scratch : Scratch) :
    (state.validate tx scratch).2.idem = scratch.idem := by
  unfold validate
  split
  · rfl
  · split
    · rfl
    · dsimp only
      split <;> exact idem_foldl_seedPosting tx.postings scratch

end BookState

namespace Overlay

variable {state applied : BookState}

/-- Validation only seeds the overlay, whatever its verdict. -/
theorem validate {scratch : Scratch} (hover : Overlay state applied scratch.raw)
    (tx : Transaction) : Overlay state applied (state.validate tx scratch).2.raw := by
  unfold BookState.validate
  split
  · exact hover
  · split
    · exact hover
    · next hchecked =>
        have hknown := fun posting hposting =>
          BookState.known_of_checkPosting (Except.forM_eq_ok.1 hchecked posting hposting)
        have hseeded := hover.seedPostings hknown
        dsimp only
        split <;> exact hseeded

/-- A posting that can be staged can be applied. -/
theorem applyPosting {scratch scratch' : Scratch} (hover : Overlay state applied scratch.raw)
    (tx : Transaction) (seq time : Int) {posting : Posting}
    (hstage : scratch.stagePosting posting = .ok scratch') :
    ∃ next, BookState.applyPosting tx seq time applied posting = .ok next ∧
      Overlay state next scratch'.raw := by
  unfold Scratch.stagePosting at hstage
  dsimp only at hstage
  split at hstage
  · simp at hstage
  next value hvalue =>
  split at hstage
  · simp at hstage
  next moved hmoved =>
  cases hstage
  obtain ⟨acct, hacct, rfl⟩ := hover.tracked _ value hvalue
  unfold BookState.applyPosting
  simp only [hacct, hmoved]
  refine ⟨_, rfl, ?_, ?_⟩
  · intro key raw h
    rw [HashMap.lookup_insert_ite] at h ⊢
    by_cases hsame : key = posting.account.toKey
    · rw [if_pos hsame] at h ⊢
      exact ⟨_, rfl, Option.some.inj h⟩
    · rw [if_neg hsame] at h ⊢
      exact hover.tracked key raw h
  · intro key other hother
    obtain ⟨other', hother', haccount, hcfg, hkept⟩ := hover.kept key other hother
    rw [HashMap.lookup_insert_ite]
    split
    · next hsame =>
        rw [hsame, hacct] at hother'
        cases hother'
        exact ⟨_, rfl, haccount, hcfg, fun hnotin =>
          absurd (Finmap.mem_insert.2 (Or.inl hsame)) hnotin⟩
    · exact ⟨other', hother', haccount, hcfg, fun hnotin =>
        hkept fun hin => hnotin (Finmap.mem_insert.2 (Or.inr hin))⟩

theorem applyPostings {scratch scratch' : Scratch} (hover : Overlay state applied scratch.raw)
    (tx : Transaction) (seq time : Int) {postings : List Posting}
    (hstage : postings.foldlM Scratch.stagePosting scratch = .ok scratch') :
    ∃ next, postings.foldlM (BookState.applyPosting tx seq time) applied = .ok next ∧
      Overlay state next scratch'.raw := by
  induction postings generalizing scratch applied with
  | nil =>
      cases hstage
      exact ⟨applied, rfl, hover⟩
  | cons posting postings ih =>
      rw [List.foldlM_cons, Except.bind_eq_ok] at hstage
      obtain ⟨mid, hposting, hrest⟩ := hstage
      obtain ⟨next, happly, hnext⟩ := hover.applyPosting tx seq time hposting
      obtain ⟨final, hfinal, hover'⟩ := ih hnext hrest
      exact ⟨final, by rw [List.foldlM_cons, happly]; exact hfinal, hover'⟩

/-- A transaction that can be staged can be applied, at any seq, time and
position. -/
theorem tryApplyTransaction {scratch scratch' : Scratch}
    (hover : Overlay state applied scratch.raw) {tx : Transaction}
    (hstage : scratch.stage tx = .ok scratch') (seq time : Int) (pos : FramePos) :
    ∃ next, applied.tryApplyTransaction tx seq time pos = .ok next ∧
      Overlay state next scratch'.raw := by
  obtain ⟨next, happly, hnext⟩ := hover.applyPostings tx seq time hstage
  refine ⟨{ next with
    idem := next.idem.insert tx.idempotencyKey.key ⟨tx.id, seq, time⟩
    txids := next.txids.insert tx.id.uuid (seq, pos)
    nextSeq := seq + 1
    lastAt := some time }, ?_, hnext.of_accounts rfl⟩
  rw [BookState.tryApplyTransaction, happly]
  rfl

end Overlay

@[simp]
theorem Scratch.idem_stagePosting {scratch scratch' : Scratch} {posting : Posting}
    (hstage : scratch.stagePosting posting = .ok scratch') : scratch'.idem = scratch.idem := by
  unfold Scratch.stagePosting at hstage
  dsimp only at hstage
  split at hstage
  · simp at hstage
  · split at hstage
    · simp at hstage
    · cases hstage
      rfl

theorem Scratch.idem_stage {scratch scratch' : Scratch} {tx : Transaction}
    (hstage : scratch.stage tx = .ok scratch') : scratch'.idem = scratch.idem := by
  unfold Scratch.stage at hstage
  generalize tx.postings = postings at hstage
  induction postings generalizing scratch with
  | nil => cases hstage; rfl
  | cons posting postings ih =>
      rw [List.foldlM_cons, Except.bind_eq_ok] at hstage
      obtain ⟨mid, hposting, hrest⟩ := hstage
      rw [ih hrest, Scratch.idem_stagePosting hposting]

end Talea.Log
