import Talea.Log.History

/-!
# Balances stay within bounds

A draft is accepted when it leaves each of its accounts at or above the
account's minimum.  Batches do not weaken this: behind every transaction of the
log the accounts it has touched are within bounds, and so is the balance that
an account's history has at the end of each seq.
-/

namespace Talea.Log

/-- The balance, adjusted to the normal side, is not below the minimum. -/
def WithinBounds (cfg : AccountCfg) (raw : Int) : Prop :=
  ∀ minBalance, cfg.minBalance = some minBalance → minBalance ≤ adjusted raw cfg.normalSide

namespace AccountState

theorem InBounds.withinBounds {acct : AccountState} (hbounds : acct.InBounds)
    (hrange : I64.InRange acct.rawBalance) : WithinBounds acct.cfg acct.rawBalance :=
  fun minBalance hmin => (hbounds minBalance hmin).trans (effective_le_adjusted hrange _)

/-- The balance an account's history has at the end of each seq is within
bounds. -/
def BoundedAtSeqEnds (acct : AccountState) : Prop :=
  ∀ before entry after, acct.postings.flat = before ++ entry :: after →
    (∀ next ∈ after.head?, next.seq ≠ entry.seq) → WithinBounds acct.cfg entry.rawAfter

/-- The balance is that of the last entry, an `i64`, and the entries have seqs
below the next one. -/
structure Recorded (acct : AccountState) (nextSeq : Int) : Prop where
  below : ∀ entry ∈ acct.postings.flat, entry.seq < nextSeq
  rawBalance : ∀ last ∈ acct.postings.flat.getLast?, last.rawAfter = acct.rawBalance
  inRange : I64.InRange acct.rawBalance

theorem recorded_opened (account : AccountDef) (cfg : AccountCfg) (nextSeq : Int) :
    (opened account cfg).Recorded nextSeq where
  below entry hentry := by simp [opened, PostingIndex.flat, PostingIndex.empty] at hentry
  rawBalance last hlast := by simp [opened, PostingIndex.flat, PostingIndex.empty] at hlast
  inRange := I64.inRange_zero

theorem boundedAtSeqEnds_opened (account : AccountDef) (cfg : AccountCfg) :
    (opened account cfg).BoundedAtSeqEnds := by
  intro before entry after hflat
  simp [opened, PostingIndex.flat, PostingIndex.empty] at hflat

variable {acct after : AccountState} {seq time : Int} {txid : TxId} {own : List Posting}

theorem Recorded.moved (hrec : acct.Recorded seq) (hmoved : acct.Moved seq time txid own after)
    (hrange : I64.InRange after.rawBalance) : after.Recorded (seq + 1) where
  below entry hentry := by
    rw [hmoved.postings] at hentry
    rcases List.mem_append.1 hentry with hold | hnew
    · have := hrec.below entry hold
      omega
    · rw [(seq_of_mem_entriesFrom hnew).1]
      omega
  rawBalance last hlast := by
    rw [hmoved.postings] at hlast
    rw [hmoved.rawBalance]
    by_cases hnil : entriesFrom seq time txid acct.rawBalance own = []
    · rw [hnil, List.append_nil] at hlast
      rw [entriesFrom_eq_nil] at hnil
      rw [hrec.rawBalance last hlast, hnil, signedSum_nil, Int.add_zero]
    · rw [List.getLast?_append_of_ne_nil _ hnil, List.getLast?_eq_some_getLast hnil] at hlast
      cases hlast
      exact rawAfter_getLast_entriesFrom hnil
  inRange := hrange

/-- A transaction whose last entry is within bounds keeps the history
bounded. -/
theorem BoundedAtSeqEnds.moved (hbounded : acct.BoundedAtSeqEnds)
    (hmoved : acct.Moved seq time txid own after)
    (hafter : own ≠ [] → WithinBounds after.cfg after.rawBalance) :
    after.BoundedAtSeqEnds := by
  intro before entry rest hflat hend
  rw [hmoved.postings] at hflat
  -- an entry of the transaction itself is the last one of its seq only at the end
  have hlatest : ∀ earlier, entriesFrom seq time txid acct.rawBalance own =
      earlier ++ entry :: rest → WithinBounds after.cfg entry.rawAfter := by
    intro earlier hnew
    have hseq : ∀ other ∈ earlier ++ entry :: rest, other.seq = seq := fun other hother =>
      (seq_of_mem_entriesFrom (hnew ▸ hother)).1
    have hlast : rest = [] := by
      cases rest with
      | nil => rfl
      | cons next rest =>
          have hnext := hend next rfl
          rw [hseq next (by simp), hseq entry (by simp)] at hnext
          exact absurd rfl hnext
    have hne : entriesFrom seq time txid acct.rawBalance own ≠ [] := by
      rw [hnew]
      simp
    have hraw := rawAfter_getLast_entriesFrom hne
    simp only [hnew, hlast, List.getLast_append_singleton] at hraw
    rw [hraw, ← hmoved.rawBalance]
    exact hafter fun hnil => hne (entriesFrom_eq_nil.2 hnil)
  rcases List.append_eq_append_iff.1 hflat with ⟨earlier, -, hnew⟩ | ⟨tail, hold, htail⟩
  · exact hlatest earlier hnew
  · cases tail with
    | nil => exact hlatest [] htail.symm
    | cons head tail =>
        -- an old entry: the next one is old as well, or there was none
        rw [List.cons_append, List.cons.injEq] at htail
        obtain ⟨rfl, rfl⟩ := htail
        rw [hmoved.cfg]
        refine hbounded before entry tail hold fun next hnext => hend next ?_
        cases tail with
        | nil => simp at hnext
        | cons other tail => simpa using hnext

end AccountState

/-! ## Logs -/

/-- The accounts of a state are recorded and bounded. -/
structure BookState.Bounded (state : BookState) : Prop where
  recorded : ∀ key acct, state.accounts.lookup key = some acct → acct.Recorded state.nextSeq
  bounded : ∀ key acct, state.accounts.lookup key = some acct → acct.BoundedAtSeqEnds

theorem AccountState.Recorded.mono {acct : AccountState} {seq later : Int}
    (hrec : acct.Recorded seq) (hle : seq ≤ later) : acct.Recorded later :=
  ⟨fun entry hentry => (hrec.below entry hentry).trans_le hle, hrec.rawBalance, hrec.inRange⟩

namespace BookState

variable {state next : BookState} {draft : Transaction → Prop}

/-- The accounts an accepted transaction has touched are within bounds behind
it. -/
theorem withinBounds_of_verdict {tx : Transaction} {seq time : Int} {pos : FramePos}
    (hok : state.verdict tx = .ok ())
    (happly : state.tryApplyTransaction tx seq time pos = .ok next) {posting : Posting}
    (hposting : posting ∈ tx.postings) {acct : AccountState}
    (hacct : next.accounts.lookup posting.account.toKey = some acct)
    (hrange : I64.InRange acct.rawBalance) : WithinBounds acct.cfg acct.rawBalance := by
  obtain ⟨-, -, mid, hmid, hbounds⟩ := (verdict_eq_ok_iff seq time).1 hok
  obtain ⟨mid', hmid', rfl⟩ := tryApplyTransaction_eq_ok.1 happly
  rw [hmid] at hmid'
  cases hmid'
  exact (hbounds posting hposting acct hacct).withinBounds hrange

theorem exists_posting_of_postingsOn {key : String} {postings : List Posting}
    (hne : postingsOn key postings ≠ []) : ∃ posting ∈ postings, posting.account.toKey = key := by
  obtain ⟨posting, hposting⟩ := List.exists_mem_of_ne_nil _ hne
  have hmem := List.mem_filter.1 hposting
  exact ⟨posting, hmem.1, by simpa using hmem.2⟩

/-- One event keeps the histories bounded. -/
theorem Bounded.applyEvent (hbounded : state.Bounded) {item : WireEvent × FramePos}
    (hseq : item.1.seq = state.nextSeq)
    (hadmits : (Admission.accepted draft).admits state item.1.event)
    (happly : state.applyEvent item = .ok next) : next.Bounded := by
  have hnext := (nextSeq_of_applyEvent happly).1
  obtain ⟨⟨seq, time, event⟩, pos⟩ := item
  obtain rfl : seq = state.nextSeq := hseq
  cases event with
  | assetRegistered asset =>
      cases happly
      exact ⟨fun key acct hacct => (hbounded.recorded key acct hacct).mono (by simp [bumpSeq]),
        hbounded.bounded⟩
  | accountOpened account cfg =>
      cases happly
      have hlookup : ∀ key acct, (state.applyAccountOpened account cfg state.nextSeq
          time).accounts.lookup key = some acct →
          acct = .opened account cfg ∨ state.accounts.lookup key = some acct := by
        intro key acct hacct
        simp only [applyAccountOpened] at hacct
        split at hacct
        · exact Or.inr hacct
        · rw [HashMap.lookup_insert_ite] at hacct
          split at hacct
          · exact Or.inl (Option.some.inj hacct).symm
          · exact Or.inr hacct
      constructor
      · intro key acct hacct
        rcases hlookup key acct hacct with rfl | hold
        · exact AccountState.recorded_opened account cfg _
        · exact (hbounded.recorded key acct hold).mono (by simp [applyAccountOpened])
      · intro key acct hacct
        rcases hlookup key acct hacct with rfl | hold
        · exact AccountState.boundedAtSeqEnds_opened account cfg
        · exact hbounded.bounded key acct hold
  | transactionPosted tx =>
      obtain ⟨hok, -⟩ := hadmits tx rfl
      constructor
      · intro key after hafter
        obtain ⟨acct, hacct, hmoved, hrange⟩ := moved_of_lookup happly hafter
        have hrec := hbounded.recorded key acct hacct
        rw [hnext]
        exact hrec.moved hmoved (hrange hrec.inRange)
      · intro key after hafter
        obtain ⟨acct, hacct, hmoved, hrange⟩ := moved_of_lookup happly hafter
        have hrec := hbounded.recorded key acct hacct
        refine (hbounded.bounded key acct hacct).moved hmoved fun hne => ?_
        obtain ⟨posting, hposting, rfl⟩ := exists_posting_of_postingsOn hne
        exact withinBounds_of_verdict hok happly hposting hafter (hrange hrec.inRange)

theorem bounded_initial : initial.Bounded := by
  constructor <;> simp [initial]

/-- A numbered log of accepted transactions. -/
theorem bounded_of_replay {items : List (WireEvent × FramePos)} {final : BookState}
    (hnumbered : Numbered 1 (items.map Prod.fst))
    (hadmits : initial.Admits (.accepted draft) items)
    (hreplay : initial.replay items = .ok final) : final.Bounded := by
  induction items using List.reverseRecOn generalizing final with
  | nil =>
      cases hreplay
      exact bounded_initial
  | append_singleton items item ih =>
      obtain ⟨mid, hmid, happly⟩ := replay_concat_eq_ok.1 hreplay
      rw [List.map_append, numbered_append] at hnumbered
      obtain ⟨hbefore, hitem⟩ := hnumbered
      obtain ⟨hadm, mid', hmid', hrule, -⟩ := admits_append.1 hadmits
      rw [hmid] at hmid'
      cases hmid'
      refine (ih hbefore hadm hmid).applyEvent ?_ hrule happly
      rw [nextSeq_of_replay_initial hbefore hmid, hitem.1, List.length_map]
      ring

end BookState

/-- Behind every transaction of the log its accounts are within bounds. -/
def NeverOverdrawn (items : List (WireEvent × FramePos)) : Prop :=
  ∀ before item after tx, items = before ++ item :: after →
    item.1.event = .transactionPosted tx →
    ∃ state, BookState.initial.replay (before ++ [item]) = .ok state ∧
      ∀ posting ∈ tx.postings, ∃ acct,
        state.accounts.lookup posting.account.toKey = some acct ∧
          WithinBounds acct.cfg acct.rawBalance

theorem LogValid.neverOverdrawn {items : List (WireEvent × FramePos)} (hvalid : LogValid items)
    {draft : Transaction → Prop} (hadmits : BookState.initial.Admits (.accepted draft) items) :
    NeverOverdrawn items := by
  rintro before item after tx rfl htx
  obtain ⟨mid, next, hmid, hrule, happly, hnext⟩ := hadmits.split
  obtain ⟨hok, -⟩ := hrule tx htx
  have hpre : before ++ [item] <+: before ++ item :: after := by simp
  have hbounded : next.Bounded := BookState.bounded_of_replay
    (hvalid.of_isPrefix (hpre.map Prod.fst)).numbered (hadmits.of_isPrefix hpre) hnext
  refine ⟨next, hnext, fun posting hposting => ?_⟩
  obtain ⟨⟨seq, time, event⟩, pos⟩ := item
  obtain rfl : event = .transactionPosted tx := htx
  obtain ⟨-, hknown, -⟩ := (BookState.verdict_eq_ok_iff seq time).1 hok
  obtain ⟨old, hold, -⟩ := hknown posting hposting
  obtain ⟨acct, hacct, -⟩ := BookState.tryApplyTransaction_moved happly hold
  exact ⟨acct, hacct, BookState.withinBounds_of_verdict hok happly hposting hacct
    (hbounded.recorded _ acct hacct).inRange⟩

/-- In the state of a live book, the history of each account is within bounds
at the end of each seq, and its last entry has the account's balance. -/
def Status.HistoriesBounded : Status → Prop
  | .stopped _ => True
  | .live writer => ∀ key acct, writer.state.accounts.lookup key = some acct →
      acct.BoundedAtSeqEnds ∧
        ∀ last ∈ acct.postings.flat.getLast?, last.rawAfter = acct.rawBalance

/-- In every run, behind every transaction each account it has touched is at or
above its minimum, between the drafts of a batch as well as at its end; and the
histories of the live state keep to the same bound. -/
theorem never_overdrawn (rt : Runtime) (opts : LogStoreOptions) (io : SpillIo)
    (actions : List Action) :
    let run := Run.exec rt opts io actions
    NeverOverdrawn (run.log rt) ∧ run.status.HistoriesBounded := by
  have hinv := RunInv.exec rt opts io actions
  have hadmits : BookState.initial.Admits (.accepted fun _ => True)
      ((Run.exec rt opts io actions).log rt) :=
    Run.accepted_exec rt opts io _ fun _ _ _ _ => trivial
  refine ⟨hinv.logValid.neverOverdrawn hadmits, ?_⟩
  have hbook := hinv.book
  cases hstatus : (Run.exec rt opts io actions).status with
  | stopped disk => trivial
  | live writer =>
      rw [hstatus] at hbook
      have hwriter : WriterInv rt writer _ := hbook
      obtain ⟨ledger, hledger, hsame⟩ := hwriter.ledger
      have hlog : (Run.exec rt opts io actions).log rt =
          logEvents rt writer.segments.files := by
        rw [Run.log, hstatus]
        rfl
      have hbounded := BookState.bounded_of_replay hinv.logValid.numbered hadmits
        (hlog ▸ hledger)
      intro key acct hacct
      rw [(BookState.same_of_forgetIdem hsame).2.2.1] at hacct
      exact ⟨hbounded.bounded key acct hacct, (hbounded.recorded key acct hacct).rawBalance⟩

end Talea.Log
