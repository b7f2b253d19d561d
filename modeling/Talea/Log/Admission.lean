import Talea.Log.Overlay

/-!
# What a state admits

A draft that a batch accepts against the committed state and the overlay is one
that the state with the earlier drafts applied would accept on its own.  So a
log can be read one event at a time: each event was admitted by the state it
was applied to, whatever batches it came in.
-/

namespace Talea.Log

/-! ## The verdict of a state -/

/-- The verdict on a transaction that is validated alone. -/
def BookState.verdict (state : BookState) (tx : Transaction) : Except StoreError Unit :=
  (state.validate tx .initial).1

namespace BookState

variable {state : BookState}

theorem mem_seedPosting_of_mem {scratch : Scratch} {key : String} (hmem : key ∈ scratch.raw)
    (posting : Posting) : key ∈ (state.seedPosting scratch posting).raw := by
  simp only [seedPosting]
  split
  · exact hmem
  · exact Finmap.mem_insert.2 (Or.inr hmem)

/-- Every account of the postings is seeded. -/
theorem mem_foldl_seedPosting {postings : List Posting} {scratch : Scratch} {key : String}
    (hkey : key ∈ scratch.raw ∨ ∃ posting ∈ postings, posting.account.toKey = key) :
    key ∈ (postings.foldl state.seedPosting scratch).raw := by
  induction postings generalizing scratch with
  | nil => simpa using hkey
  | cons posting postings ih =>
      refine ih ?_
      rcases hkey with hold | ⟨other, hother, rfl⟩
      · exact Or.inl (mem_seedPosting_of_mem hold posting)
      rcases List.mem_cons.1 hother with rfl | hlater
      · left
        simp only [seedPosting]
        split
        · assumption
        · exact Finmap.mem_insert.2 (Or.inl rfl)
      · exact Or.inr ⟨other, hlater, rfl⟩

/-- The projection reads the overlay at the accounts of the postings only. -/
theorem projectPosting_congr {scratch scratch' : Scratch} {posting : Posting}
    (hsame : scratch.raw.lookup posting.account.toKey =
      scratch'.raw.lookup posting.account.toKey) (projected : HashMap String Int) :
    projectPosting scratch projected posting = projectPosting scratch' projected posting := by
  simp only [projectPosting, hsame]

end BookState

namespace Overlay

variable {state applied : BookState} {raw : HashMap String Int}

theorem checkPosting_eq (hover : Overlay state applied raw) {posting : Posting}
    (hkey : posting.account.toKey ∈ applied.accounts → posting.account.toKey ∈ state.accounts) :
    state.checkPosting posting = applied.checkPosting posting := by
  unfold BookState.checkPosting
  cases hlookup : state.accounts.lookup posting.account.toKey with
  | none =>
      have hunknown : applied.accounts.lookup posting.account.toKey = none := by
        rw [Finmap.lookup_eq_none] at hlookup ⊢
        exact fun hin => hlookup (hkey hin)
      rw [hunknown]
  | some acct =>
      obtain ⟨acct', hacct', haccount, -, -⟩ := hover.kept _ acct hlookup
      rw [hacct']
      simp only [haccount]

theorem checkMinBalance_eq (hover : Overlay state applied raw) {key : String}
    (hkey : key ∈ state.accounts) (projected : HashMap String Int) :
    state.checkMinBalance projected key = applied.checkMinBalance projected key := by
  obtain ⟨acct, hacct⟩ := Finmap.mem_iff.1 hkey
  obtain ⟨acct', hacct', haccount, hcfg, -⟩ := hover.kept key acct hacct
  unfold BookState.checkMinBalance
  rw [hacct, hacct']
  cases projected.lookup key with
  | none => rfl
  | some raw =>
      dsimp only
      rw [haccount, hcfg]

/-- Seeding makes the overlay hold the balances of the state it stands for. -/
theorem lookup_foldl_seedPosting {scratch : Scratch} (hover : Overlay state applied scratch.raw)
    {postings : List Posting}
    (hknown : ∀ posting ∈ postings, posting.account.toKey ∈ state.accounts)
    {posting : Posting} (hposting : posting ∈ postings) :
    (postings.foldl state.seedPosting scratch).raw.lookup posting.account.toKey =
      (applied.accounts.lookup posting.account.toKey).map AccountState.rawBalance := by
  have hmem : posting.account.toKey ∈ (postings.foldl state.seedPosting scratch).raw :=
    BookState.mem_foldl_seedPosting (Or.inr ⟨posting, hposting, rfl⟩)
  obtain ⟨value, hvalue⟩ := Finmap.mem_iff.1 hmem
  obtain ⟨acct, hacct, hraw⟩ := (hover.seedPostings hknown).tracked _ value hvalue
  rw [hvalue, hacct, Option.map_some, hraw]

theorem lookup_foldl_seedPosting_initial {postings : List Posting}
    (hknown : ∀ posting ∈ postings, posting.account.toKey ∈ state.accounts)
    {posting : Posting} (hposting : posting ∈ postings) :
    (postings.foldl state.seedPosting .initial).raw.lookup posting.account.toKey =
      (state.accounts.lookup posting.account.toKey).map AccountState.rawBalance :=
  lookup_foldl_seedPosting (.refl state) hknown hposting

/-- Validating against the committed state and an overlay is validating against
the state the overlay stands for. -/
theorem verdict_eq {scratch : Scratch} (hover : Overlay state applied scratch.raw)
    {tx : Transaction} (hkeys : ∀ posting ∈ tx.postings,
      posting.account.toKey ∈ applied.accounts → posting.account.toKey ∈ state.accounts) :
    (state.validate tx scratch).1 = applied.verdict tx := by
  unfold BookState.verdict BookState.validate
  split
  · rfl
  have hchecks : tx.postings.forM state.checkPosting = tx.postings.forM applied.checkPosting :=
    forM_congr fun posting hposting => hover.checkPosting_eq (hkeys posting hposting)
  rw [← hchecks]
  cases hchecked : tx.postings.forM state.checkPosting with
  | error err => rfl
  | ok _ =>
      have hknown : ∀ posting ∈ tx.postings, posting.account.toKey ∈ state.accounts :=
        fun posting hposting =>
          BookState.known_of_checkPosting (Except.forM_eq_ok.1 hchecked posting hposting)
      have hknown' : ∀ posting ∈ tx.postings, posting.account.toKey ∈ applied.accounts := by
        intro posting hposting
        obtain ⟨acct, hacct⟩ := Finmap.mem_iff.1 (hknown posting hposting)
        obtain ⟨acct', hacct', -⟩ := hover.kept _ acct hacct
        exact Finmap.mem_of_lookup_eq_some hacct'
      have hprojects : ∀ projected,
          tx.postings.foldlM
              (BookState.projectPosting (tx.postings.foldl state.seedPosting scratch)) projected =
            tx.postings.foldlM
              (BookState.projectPosting (tx.postings.foldl applied.seedPosting .initial))
              projected := by
        refine foldlM_congr fun posting hposting projected =>
          BookState.projectPosting_congr ?_ projected
        rw [hover.lookup_foldl_seedPosting hknown hposting,
          lookup_foldl_seedPosting_initial hknown' hposting]
      dsimp only
      rw [hprojects]
      cases tx.postings.foldlM
          (BookState.projectPosting (tx.postings.foldl applied.seedPosting .initial)) ∅ with
      | error err => rfl
      | ok projected =>
          exact forM_congr fun posting hposting =>
            hover.checkMinBalance_eq (hknown posting hposting) projected

end Overlay

/-! ## What an accepted transaction does -/

/-- The balance is not below the account's minimum. -/
def AccountState.InBounds (acct : AccountState) : Prop :=
  ∀ minBalance, acct.cfg.minBalance = some minBalance →
    minBalance ≤ effective acct.rawBalance acct.cfg.normalSide

/-- The accounts are the same ones, with the same configurations. -/
def BookState.SameAccounts (before after : BookState) : Prop :=
  ∀ key, (after.accounts.lookup key).map (fun acct => (acct.account, acct.cfg)) =
    (before.accounts.lookup key).map fun acct => (acct.account, acct.cfg)

namespace BookState

theorem SameAccounts.refl (state : BookState) : state.SameAccounts state := fun _ => rfl

theorem SameAccounts.trans {first second third : BookState} (hleft : first.SameAccounts second)
    (hright : second.SameAccounts third) : first.SameAccounts third :=
  fun key => (hright key).trans (hleft key)

theorem SameAccounts.lookup_eq_some {before after : BookState} (hsame : before.SameAccounts after)
    {key : String} {acct : AccountState} (hlookup : after.accounts.lookup key = some acct) :
    ∃ old, before.accounts.lookup key = some old ∧ old.account = acct.account ∧
      old.cfg = acct.cfg := by
  have hkey := hsame key
  rw [hlookup, Option.map_some, eq_comm, Option.map_eq_some_iff] at hkey
  obtain ⟨old, hold, heq⟩ := hkey
  exact ⟨old, hold, congrArg Prod.fst heq, congrArg Prod.snd heq⟩

theorem SameAccounts.mem_iff {before after : BookState} (hsame : before.SameAccounts after)
    (key : String) : key ∈ after.accounts ↔ key ∈ before.accounts := by
  rw [← Finmap.lookup_isSome, ← Finmap.lookup_isSome]
  have hkey := congrArg Option.isSome (hsame key)
  simpa using hkey

/-- Moving the balance of an account that is there. -/
theorem applyPosting_of_lookup {state : BookState} {posting : Posting} {acct : AccountState}
    (hacct : state.accounts.lookup posting.account.toKey = some acct) (tx : Transaction)
    (seq time : Int) :
    applyPosting tx seq time state posting =
      match Direction.move posting.direction acct.rawBalance posting.amount.minor with
      | none => .error s!"balance overflow applying seq {seq} to account {posting.account.toKey}"
      | some raw => .ok { state with
          accounts := state.accounts.insert posting.account.toKey
            { acct with
              rawBalance := raw
              updatedSeq := seq
              postings := acct.postings.push
                { seq, at' := time, txid := tx.id, minor := posting.amount.minor
                  direction := posting.direction, rawAfter := raw } }
          sums := addSums state.sums posting } := by
  unfold applyPosting
  cases hmove : Direction.move posting.direction acct.rawBalance posting.amount.minor with
  | none => simp [hacct, hmove]
  | some raw => simp [hacct, hmove]

theorem sameAccounts_applyPosting {tx : Transaction} {seq time : Int} {state next : BookState}
    {posting : Posting} (happly : applyPosting tx seq time state posting = .ok next) :
    state.SameAccounts next := by
  cases hacct : state.accounts.lookup posting.account.toKey with
  | none =>
      rw [applyPosting, hacct] at happly
      cases happly
      exact .refl state
  | some acct =>
      rw [applyPosting_of_lookup hacct] at happly
      cases hmove : Direction.move posting.direction acct.rawBalance posting.amount.minor with
      | none => simp [hmove] at happly
      | some raw =>
          rw [hmove] at happly
          cases happly
          intro key
          dsimp only
          rw [HashMap.lookup_insert_ite]
          split
          · next hsame => rw [hsame, hacct, Option.map_some, Option.map_some]
          · rfl

theorem sameAccounts_applyPostings {tx : Transaction} {seq time : Int} {state next : BookState}
    {postings : List Posting}
    (happly : postings.foldlM (applyPosting tx seq time) state = .ok next) :
    state.SameAccounts next := by
  have hstep : ∀ other posting after, posting ∈ postings → state.SameAccounts other →
      applyPosting tx seq time other posting = .ok after → state.SameAccounts after :=
    fun other posting after _ hother hposting =>
      hother.trans (sameAccounts_applyPosting hposting)
  exact foldlM_invariant hstep (.refl state) happly

theorem tryApplyTransaction_eq_ok {tx : Transaction} {seq time : Int} {pos : FramePos}
    {state next : BookState} :
    state.tryApplyTransaction tx seq time pos = .ok next ↔
      ∃ mid, tx.postings.foldlM (applyPosting tx seq time) state = .ok mid ∧
        next = { mid with
          idem := mid.idem.insert tx.idempotencyKey.key ⟨tx.id, seq, time⟩
          txids := mid.txids.insert tx.id.uuid (seq, pos)
          nextSeq := seq + 1
          lastAt := some time } := by
  rw [tryApplyTransaction, Except.bind_eq_ok]
  simp only [Except.ok.injEq, eq_comm]

theorem sameAccounts_tryApplyTransaction {tx : Transaction} {seq time : Int} {pos : FramePos}
    {state next : BookState} (happly : state.tryApplyTransaction tx seq time pos = .ok next) :
    state.SameAccounts next := by
  obtain ⟨mid, hmid, rfl⟩ := tryApplyTransaction_eq_ok.1 happly
  have hsame : state.SameAccounts mid := sameAccounts_applyPostings hmid
  exact hsame

/-! ## Projecting and applying -/

/-- `projected` over `base` holds the balances of `state` at the accounts of
the postings. -/
def Projects (postings : List Posting) (base projected : HashMap String Int)
    (state : BookState) : Prop :=
  ∀ posting ∈ postings, ∃ acct, state.accounts.lookup posting.account.toKey = some acct ∧
    (projected.lookup posting.account.toKey).getD
      ((base.lookup posting.account.toKey).getD 0) = acct.rawBalance

/-- A posting can be projected if and only if it can be applied. -/
theorem Projects.step {postings : List Posting} {scratch : Scratch}
    {projected : HashMap String Int} {state : BookState}
    (hproj : Projects postings scratch.raw projected state) {posting : Posting}
    (hposting : posting ∈ postings) (tx : Transaction) (seq time : Int) :
    match projectPosting scratch projected posting with
    | .error _ => ∃ message, applyPosting tx seq time state posting = .error message
    | .ok projected' => ∃ next, applyPosting tx seq time state posting = .ok next ∧
        Projects postings scratch.raw projected' next ∧
        ∀ key, key ∈ projected' ↔ key = posting.account.toKey ∨ key ∈ projected := by
  obtain ⟨acct, hacct, hraw⟩ := hproj posting hposting
  rw [applyPosting_of_lookup hacct]
  simp only [projectPosting, hraw]
  cases Direction.move posting.direction acct.rawBalance posting.amount.minor with
  | none => exact ⟨_, rfl⟩
  | some moved =>
      refine ⟨_, rfl, fun other hother => ?_, fun key => Finmap.mem_insert⟩
      dsimp only
      rw [HashMap.lookup_insert_ite, HashMap.lookup_insert_ite]
      by_cases hsame : other.account.toKey = posting.account.toKey
      · rw [if_pos hsame, if_pos hsame]
        exact ⟨_, rfl, rfl⟩
      · rw [if_neg hsame, if_neg hsame]
        exact hproj other hother

/-- Some of the postings, one after the other. -/
theorem Projects.foldlM {postings : List Posting} {scratch : Scratch}
    {projected : HashMap String Int} {state : BookState}
    (hproj : Projects postings scratch.raw projected state) {part : List Posting}
    (hpart : ∀ posting ∈ part, posting ∈ postings) (tx : Transaction) (seq time : Int) :
    match part.foldlM (projectPosting scratch) projected with
    | .error _ => ∃ message, part.foldlM (applyPosting tx seq time) state = .error message
    | .ok projected' => ∃ next, part.foldlM (applyPosting tx seq time) state = .ok next ∧
        Projects postings scratch.raw projected' next ∧
        ∀ posting, posting ∈ part ∨ posting.account.toKey ∈ projected →
          posting.account.toKey ∈ projected' := by
  induction part generalizing projected state with
  | nil => exact ⟨state, rfl, hproj, fun posting h => h.elim (by simp) id⟩
  | cons posting part ih =>
      have hstep := hproj.step (hpart posting List.mem_cons_self) tx seq time
      rw [List.foldlM_cons, List.foldlM_cons]
      cases hproject : projectPosting scratch projected posting with
      | error err =>
          rw [hproject] at hstep
          obtain ⟨message, hmessage⟩ := hstep
          rw [hmessage]
          exact ⟨message, rfl⟩
      | ok moved =>
          rw [hproject] at hstep
          obtain ⟨next, hnext, hproj', hmem⟩ := hstep
          have hrest := ih hproj' fun other hother => hpart other (List.mem_cons_of_mem _ hother)
          rw [hnext]
          change match part.foldlM (projectPosting scratch) moved with
            | .error _ => ∃ message, part.foldlM (applyPosting tx seq time) next = .error message
            | .ok projected' => ∃ final, part.foldlM (applyPosting tx seq time) next = .ok final ∧
                Projects postings scratch.raw projected' final ∧
                ∀ other, other ∈ posting :: part ∨ other.account.toKey ∈ projected →
                  other.account.toKey ∈ projected'
          cases hfold : part.foldlM (projectPosting scratch) moved with
          | error err =>
              rw [hfold] at hrest
              exact hrest
          | ok projected' =>
              rw [hfold] at hrest
              obtain ⟨final, hfinal, hproj'', hkeys⟩ := hrest
              refine ⟨final, hfinal, hproj'', fun other hother => hkeys other ?_⟩
              rcases hother with hin | hold
              · rcases List.mem_cons.1 hin with rfl | hlater
                · exact Or.inr ((hmem _).2 (Or.inl rfl))
                · exact Or.inl hlater
              · exact Or.inr ((hmem _).2 (Or.inr hold))

theorem checkPosting_eq_ok {state : BookState} {posting : Posting} :
    state.checkPosting posting = .ok () ↔
      ∃ acct, state.accounts.lookup posting.account.toKey = some acct ∧
        posting.amount.asset = acct.account.asset := by
  unfold checkPosting
  cases state.accounts.lookup posting.account.toKey with
  | none => simp
  | some acct => simp

theorem checkMinBalance_eq_ok {state : BookState} {projected : HashMap String Int} {key : String}
    {acct : AccountState} (hacct : state.accounts.lookup key = some acct) {raw : Int}
    (hraw : projected.lookup key = some raw) :
    state.checkMinBalance projected key = .ok () ↔
      ∀ minBalance, acct.cfg.minBalance = some minBalance →
        minBalance ≤ effective raw acct.cfg.normalSide := by
  unfold checkMinBalance
  rw [hacct, hraw]
  dsimp only
  cases hmin : acct.cfg.minBalance with
  | none => simp
  | some minBalance => simp

/-- The overlay that was seeded for a transaction projects onto the state. -/
theorem Projects.of_known {state : BookState} {postings : List Posting}
    (hknown : ∀ posting ∈ postings, posting.account.toKey ∈ state.accounts) :
    Projects postings (postings.foldl state.seedPosting .initial).raw ∅ state := by
  intro posting hposting
  obtain ⟨acct, hacct⟩ := Finmap.mem_iff.1 (hknown posting hposting)
  refine ⟨acct, hacct, ?_⟩
  rw [Overlay.lookup_foldl_seedPosting_initial hknown hposting, hacct]
  simp

/-- A transaction is accepted if and only if its accounts are there with the
assets of its postings, it can be applied, and applying it leaves these
accounts within bounds. -/
theorem verdict_eq_ok_iff {state : BookState} {tx : Transaction} (seq time : Int) :
    state.verdict tx = .ok () ↔
      tx.book.isReserved = false ∧
      (∀ posting ∈ tx.postings, ∃ acct,
        state.accounts.lookup posting.account.toKey = some acct ∧
          posting.amount.asset = acct.account.asset) ∧
      ∃ next, tx.postings.foldlM (applyPosting tx seq time) state = .ok next ∧
        ∀ posting ∈ tx.postings, ∀ acct,
          next.accounts.lookup posting.account.toKey = some acct → acct.InBounds := by
  unfold verdict validate
  by_cases hreserved : tx.book.isReserved = true
  · simp [hreserved]
  rw [if_neg hreserved]
  have hchecks : (∀ posting ∈ tx.postings, ∃ acct,
      state.accounts.lookup posting.account.toKey = some acct ∧
        posting.amount.asset = acct.account.asset) ↔
      tx.postings.forM state.checkPosting = .ok () := by
    rw [Except.forM_eq_ok]
    exact forall₂_congr fun posting _ => checkPosting_eq_ok.symm
  rw [hchecks]
  cases hchecked : tx.postings.forM state.checkPosting with
  | error err => simp
  | ok _ =>
      have hknown := fun posting hposting =>
        known_of_checkPosting (Except.forM_eq_ok.1 hchecked posting hposting)
      have hfold := (Projects.of_known hknown).foldlM (fun posting h => h) tx seq time
      simp only [true_and, hreserved]
      cases hproject : tx.postings.foldlM
          (projectPosting (tx.postings.foldl state.seedPosting .initial)) ∅ with
      | error err =>
          rw [hproject] at hfold
          obtain ⟨message, hmessage⟩ := hfold
          simp [hmessage]
      | ok projected =>
          rw [hproject] at hfold
          obtain ⟨next, hnext, hproj, hmem⟩ := hfold
          simp only [hnext, Except.ok.injEq, exists_eq_left', Except.forM_eq_ok]
          refine forall₂_congr fun posting hposting => ?_
          obtain ⟨acct', hacct', hraw⟩ := hproj posting hposting
          obtain ⟨acct, hacct, haccount, hcfg⟩ :=
            (sameAccounts_applyPostings hnext).lookup_eq_some hacct'
          obtain ⟨raw, hlookup⟩ := Finmap.mem_iff.1 (hmem posting (Or.inl hposting))
          rw [hlookup, Option.getD_some] at hraw
          rw [checkMinBalance_eq_ok hacct hlookup, hacct', hraw, hcfg]
          simp [AccountState.InBounds]

end BookState

end Talea.Log
