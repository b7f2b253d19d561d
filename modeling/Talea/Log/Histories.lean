import Talea.Log.Positions
import Talea.Log.TrialBalance

/-!
# Histories and the log

At every moment of a book each account has the history that the committed
events leave on it: one entry for every posting on the account, in the order of
the log, with the running sum of the signed amounts.
-/

namespace Talea.Log

variable {rt : Runtime}

/-! ## The entries of a log -/

/-- The entries that events leave on an account with balance `raw`. -/
def historyFrom (key : String) : Int → List WireEvent → List PostingEntry
  | _, [] => []
  | raw, wire :: events =>
      match wire.event with
      | .transactionPosted tx =>
          entriesFrom wire.seq wire.at' tx.id raw (postingsOn key tx.postings) ++
            historyFrom key (raw + signedSum (postingsOn key tx.postings)) events
      | _ => historyFrom key raw events

/-- The postings of events on one account. -/
def accountPostings (key : String) (events : List WireEvent) : List Posting :=
  postingsOn key (postingsOf events)

theorem Numbered.pairwise_le {first : Int} {events : List WireEvent}
    (hnumbered : Numbered first events) :
    events.Pairwise fun left right => left.seq ≤ right.seq := by
  induction events generalizing first with
  | nil => exact List.Pairwise.nil
  | cons wire events ih =>
      obtain ⟨hseq, hrest⟩ := (numbered_cons first wire events).1 hnumbered
      refine List.pairwise_cons.2 ⟨fun later hlater => ?_, ih hrest⟩
      have := (hrest.mem_bounds hlater).1
      omega

section Entries

variable {key : String} {raw : Int} {events : List WireEvent}

theorem postingsOn_append (key : String) (left right : List Posting) :
    postingsOn key (left ++ right) = postingsOn key left ++ postingsOn key right :=
  List.filter_append left right

@[simp]
theorem accountPostings_nil (key : String) : accountPostings key [] = [] := rfl

theorem accountPostings_cons (key : String) (wire : WireEvent) (events : List WireEvent) :
    accountPostings key (wire :: events) =
      postingsOn key (LedgerEvent.postings wire.event) ++ accountPostings key events := by
  rw [accountPostings, postingsOf_cons, postingsOn_append]
  rfl

theorem accountPostings_append (key : String) (left right : List WireEvent) :
    accountPostings key (left ++ right) = accountPostings key left ++ accountPostings key right := by
  rw [accountPostings, postingsOf, List.flatMap_append, postingsOn_append]
  rfl

/-- An event leaves the entries of its postings, if it has any. -/
theorem historyFrom_cons (key : String) (wire : WireEvent) :
    ∃ txid, ∀ raw events, historyFrom key raw (wire :: events) =
      entriesFrom wire.seq wire.at' txid raw
          (postingsOn key (LedgerEvent.postings wire.event)) ++
        historyFrom key (raw + signedSum (postingsOn key (LedgerEvent.postings wire.event)))
          events := by
  obtain ⟨seq, time, event⟩ := wire
  cases event with
  | transactionPosted tx => exact ⟨tx.id, fun _ _ => rfl⟩
  | assetRegistered asset =>
      refine ⟨⟨0⟩, fun raw events => ?_⟩
      simp [historyFrom, LedgerEvent.postings, postingsOn, entriesFrom]
  | accountOpened account cfg =>
      refine ⟨⟨0⟩, fun raw events => ?_⟩
      simp [historyFrom, LedgerEvent.postings, postingsOn, entriesFrom]

theorem historyFrom_append (left right : List WireEvent) :
    historyFrom key raw (left ++ right) =
      historyFrom key raw left ++
        historyFrom key (raw + signedSum (accountPostings key left)) right := by
  induction left generalizing raw with
  | nil => simp [historyFrom]
  | cons wire left ih =>
      obtain ⟨txid, heq⟩ := historyFrom_cons key wire
      rw [accountPostings_cons, signedSum_append, ← Int.add_assoc, List.cons_append, heq, heq, ih,
        List.append_assoc]

theorem length_entriesFrom {seq time : Int} {txid : TxId} (postings : List Posting) :
    (entriesFrom seq time txid raw postings).length = postings.length := by
  induction postings generalizing raw with
  | nil => rfl
  | cons posting postings ih => rw [entriesFrom, List.length_cons, ih, List.length_cons]

/-- There is one entry for each posting. -/
theorem length_historyFrom :
    (historyFrom key raw events).length = (accountPostings key events).length := by
  induction events generalizing raw with
  | nil => rfl
  | cons wire events ih =>
      obtain ⟨txid, heq⟩ := historyFrom_cons key wire
      rw [heq, accountPostings_cons, List.length_append, List.length_append, length_entriesFrom,
        ih]

/-- An entry has the seq and the time of an event. -/
theorem exists_event_of_mem_historyFrom {entry : PostingEntry}
    (hentry : entry ∈ historyFrom key raw events) :
    ∃ wire ∈ events, entry.seq = wire.seq ∧ entry.at' = wire.at' := by
  induction events generalizing raw with
  | nil => simp [historyFrom] at hentry
  | cons wire events ih =>
      obtain ⟨txid, heq⟩ := historyFrom_cons key wire
      rw [heq] at hentry
      rcases List.mem_append.1 hentry with hhere | hlater
      · exact ⟨wire, List.mem_cons_self, seq_of_mem_entriesFrom hhere⟩
      · obtain ⟨other, hother, hsame⟩ := ih hlater
        exact ⟨other, List.mem_cons_of_mem _ hother, hsame⟩

/-- What holds between events, in order, and inside each one holds between
entries. -/
theorem pairwise_historyFrom (rel : Int × Int → Int × Int → Prop)
    (hrefl : ∀ stamp, rel stamp stamp)
    (hevents : events.Pairwise fun left right =>
      rel (left.seq, left.at') (right.seq, right.at')) :
    (historyFrom key raw events).Pairwise fun left right =>
      rel (left.seq, left.at') (right.seq, right.at') := by
  induction events generalizing raw with
  | nil => exact List.Pairwise.nil
  | cons wire events ih =>
      obtain ⟨hwire, hrest⟩ := List.pairwise_cons.1 hevents
      obtain ⟨txid, heq⟩ := historyFrom_cons key wire
      rw [heq]
      refine List.pairwise_append.2 ⟨?_, ih hrest, fun left hleft right hright => ?_⟩
      · refine List.pairwise_of_forall_mem_list fun left hleft right hright => ?_
        obtain ⟨hleftSeq, hleftAt⟩ := seq_of_mem_entriesFrom hleft
        obtain ⟨hrightSeq, hrightAt⟩ := seq_of_mem_entriesFrom hright
        rw [hleftSeq, hleftAt, hrightSeq, hrightAt]
        exact hrefl _
      · obtain ⟨hleftSeq, hleftAt⟩ := seq_of_mem_entriesFrom hleft
        obtain ⟨other, hother, hseq, htime⟩ := exists_event_of_mem_historyFrom hright
        rw [hleftSeq, hleftAt, hseq, htime]
        exact hwire other hother

/-- The last entry has the sum of all postings. -/
theorem rawAfter_getLast_historyFrom {last : PostingEntry}
    (hlast : (historyFrom key raw events).getLast? = some last) :
    last.rawAfter = raw + signedSum (accountPostings key events) := by
  induction events using List.reverseRecOn with
  | nil => simp [historyFrom] at hlast
  | append_singleton events wire ih =>
      obtain ⟨txid, heq⟩ := historyFrom_cons key wire
      have hnil : ∀ raw, historyFrom key raw [] = [] := fun _ => rfl
      rw [historyFrom_append, heq, hnil, List.append_nil] at hlast
      rw [accountPostings_append, accountPostings_cons, accountPostings_nil, List.append_nil,
        signedSum_append, ← Int.add_assoc]
      by_cases hown : entriesFrom wire.seq wire.at' txid
          (raw + signedSum (accountPostings key events))
          (postingsOn key (LedgerEvent.postings wire.event)) = []
      · rw [hown, List.append_nil] at hlast
        rw [entriesFrom_eq_nil] at hown
        rw [hown, signedSum_nil, Int.add_zero]
        exact ih hlast
      · rw [List.getLast?_append_of_ne_nil _ hown, List.getLast?_eq_some_getLast hown,
          Option.some.injEq] at hlast
        rw [← hlast, rawAfter_getLast_entriesFrom hown]

theorem historyFrom_eq_nil : historyFrom key raw events = [] ↔ accountPostings key events = [] := by
  induction events generalizing raw with
  | nil => simp [historyFrom]
  | cons wire events ih =>
      obtain ⟨txid, heq⟩ := historyFrom_cons key wire
      rw [heq, accountPostings_cons, List.append_eq_nil_iff, List.append_eq_nil_iff,
        entriesFrom_eq_nil, ih]

/-- The entries of the events up to an instant are the ones up to it. -/
theorem takeWhile_historyFrom (time : Int)
    (htimes : events.Pairwise fun left right => left.at' ≤ right.at') :
    (historyFrom key raw events).takeWhile (fun entry => entry.at' ≤ time) =
      historyFrom key raw (events.filter fun wire => wire.at' ≤ time) := by
  induction events generalizing raw with
  | nil => rfl
  | cons wire events ih =>
      obtain ⟨hwire, hrest⟩ := List.pairwise_cons.1 htimes
      obtain ⟨txid, heq⟩ := historyFrom_cons key wire
      by_cases hle : wire.at' ≤ time
      · rw [heq, List.filter_cons_of_pos (by simpa using hle), heq, ← ih hrest]
        refine List.takeWhile_append_of_pos fun entry hentry => ?_
        rw [(seq_of_mem_entriesFrom hentry).2]
        simpa using hle
      · -- nothing behind the instant is taken, here or later
        have hlater : ∀ other ∈ wire :: events, ¬ other.at' ≤ time := by
          intro other hother
          rcases List.mem_cons.1 hother with rfl | hin
          · exact hle
          · have := hwire other hin
            omega
        have hnone : (wire :: events).filter (fun other => other.at' ≤ time) = [] :=
          List.filter_eq_nil_iff.2 fun other hother => by simpa using hlater other hother
        rw [hnone]
        refine List.takeWhile_eq_nil_iff.2 fun hlen hhead => ?_
        obtain ⟨other, hother, -, htime⟩ :=
          exists_event_of_mem_historyFrom (List.get_mem _ ⟨0, hlen⟩)
        rw [htime] at hhead
        exact hlater other hother (by simpa using hhead)

end Entries

/-! ## The accounts of a state -/

/-- The account tells the history of its postings in the events. -/
structure AccountState.Tells (acct : AccountState) (key : String) (events : List WireEvent) :
    Prop where
  key_eq : acct.account.id.toKey = key
  assets : ∀ posting ∈ accountPostings key events,
    posting.amount.asset = acct.account.asset
  flat_eq : acct.postings.flat = historyFrom key 0 events
  rawBalance : acct.rawBalance = signedSum (accountPostings key events)
  updatedSeq : acct.updatedSeq = (acct.postings.flat.getLast?.map PostingEntry.seq).getD 0
  inRange : I64.InRange acct.rawBalance

/-- The accounts of a state tell all postings of the events. -/
structure BookState.Tells (state : BookState) (events : List WireEvent) : Prop where
  known : ∀ key acct, state.accounts.lookup key = some acct → acct.Tells key events
  unknown : ∀ key, state.accounts.lookup key = none → accountPostings key events = []

namespace AccountState

variable {acct after : AccountState} {key : String} {events : List WireEvent}

/-- A transaction adds its postings on the account. -/
theorem Tells.moved (htells : acct.Tells key events) {seq time : Int} {tx : Transaction}
    (hmoved : acct.Moved seq time tx.id (postingsOn key tx.postings) after)
    (hassets : ∀ posting ∈ postingsOn key tx.postings,
      posting.amount.asset = acct.account.asset)
    (hrange : I64.InRange after.rawBalance) :
    after.Tells key (events ++ [⟨seq, time, .transactionPosted tx⟩]) where
  key_eq := by rw [hmoved.account, htells.key_eq]
  assets posting hposting := by
    rw [accountPostings_append, accountPostings_cons, accountPostings_nil, List.append_nil]
      at hposting
    rw [hmoved.account]
    exact (List.mem_append.1 hposting).elim (htells.assets posting) (hassets posting)
  flat_eq := by
    rw [hmoved.postings, htells.flat_eq, htells.rawBalance, historyFrom_append, Int.zero_add]
    simp [historyFrom]
  rawBalance := by
    rw [hmoved.rawBalance, htells.rawBalance, accountPostings_append, accountPostings_cons,
      accountPostings_nil, List.append_nil, signedSum_append]
    rfl
  updatedSeq := by
    rw [hmoved.updatedSeq, hmoved.postings]
    by_cases hown : postingsOn key tx.postings = []
    · rw [if_pos hown, hown, htells.updatedSeq]
      simp [entriesFrom]
    · have hne : entriesFrom seq time tx.id acct.rawBalance (postingsOn key tx.postings) ≠ [] :=
        fun hnil => hown (entriesFrom_eq_nil.1 hnil)
      rw [if_neg hown, List.getLast?_append_of_ne_nil _ hne, List.getLast?_eq_some_getLast hne]
      exact (seq_of_mem_entriesFrom (List.getLast_mem hne)).1.symm
  inRange := hrange

/-- An event without a posting on the account. -/
theorem Tells.quiet (htells : acct.Tells key events) {wire : WireEvent}
    (hquiet : LedgerEvent.postings wire.event = []) : acct.Tells key (events ++ [wire]) := by
  have hpostings : accountPostings key (events ++ [wire]) = accountPostings key events := by
    rw [accountPostings_append, accountPostings_cons, hquiet]
    simp [postingsOn]
  have hhistory : historyFrom key 0 (events ++ [wire]) = historyFrom key 0 events := by
    have hnone : historyFrom key (0 + signedSum (accountPostings key events)) [wire] = [] :=
      historyFrom_eq_nil.2 (by rw [accountPostings_cons, hquiet]; rfl)
    rw [historyFrom_append, hnone, List.append_nil]
  exact ⟨htells.key_eq, hpostings ▸ htells.assets, hhistory ▸ htells.flat_eq,
    hpostings ▸ htells.rawBalance, htells.updatedSeq, htells.inRange⟩

theorem tells_opened (account : AccountDef) (cfg : AccountCfg)
    (hnone : accountPostings account.id.toKey events = []) :
    (opened account cfg).Tells account.id.toKey events where
  key_eq := rfl
  assets := by simp [hnone]
  flat_eq := by
    rw [historyFrom_eq_nil.2 hnone]
    rfl
  rawBalance := by
    rw [hnone]
    rfl
  updatedSeq := rfl
  inRange := I64.inRange_zero

end AccountState

namespace BookState

variable {state next : BookState} {events : List WireEvent} {draft : Transaction → Prop}

/-- One admitted event. -/
theorem Tells.applyEvent (htells : state.Tells events) {item : WireEvent × FramePos}
    (hadmits : (Admission.accepted draft).admits state item.1.event)
    (happly : state.applyEvent item = .ok next) : next.Tells (events ++ [item.1]) := by
  obtain ⟨⟨seq, time, event⟩, pos⟩ := item
  have hquiet : ∀ key, LedgerEvent.postings event = [] → accountPostings key events = [] →
      accountPostings key (events ++ [⟨seq, time, event⟩]) = [] := by
    intro key hnone hold
    rw [accountPostings_append, accountPostings_cons, hnone, hold]
    rfl
  cases event with
  | assetRegistered asset =>
      cases happly
      exact ⟨fun key acct hacct => (htells.known key acct hacct).quiet rfl,
        fun key hkey => hquiet key rfl (htells.unknown key hkey)⟩
  | accountOpened account cfg =>
      cases happly
      constructor
      · intro key acct hacct
        simp only [applyAccountOpened] at hacct
        split at hacct
        · exact (htells.known key acct hacct).quiet rfl
        · next hnew =>
            rw [HashMap.lookup_insert_ite] at hacct
            split at hacct
            · next hsame =>
                cases hacct
                rw [hsame]
                exact AccountState.tells_opened account cfg (hquiet _ rfl
                  (htells.unknown _ (Finmap.lookup_eq_none.2 hnew)))
            · exact (htells.known key acct hacct).quiet rfl
      · intro key hkey
        refine hquiet key rfl (htells.unknown key ?_)
        simp only [applyAccountOpened] at hkey
        split at hkey
        · exact hkey
        · rw [HashMap.lookup_insert_ite] at hkey
          split at hkey
          · cases hkey
          · exact hkey
  | transactionPosted tx =>
      obtain ⟨hok, -⟩ := hadmits tx rfl
      obtain ⟨-, hknown, -⟩ := (verdict_eq_ok_iff seq time).1 hok
      constructor
      · intro key after hafter
        obtain ⟨acct, hacct, hmoved, hrange⟩ := moved_of_lookup happly hafter
        have hold := htells.known key acct hacct
        refine hold.moved hmoved (fun posting hposting => ?_) (hrange hold.inRange)
        obtain ⟨hin, hsame⟩ := List.mem_filter.1 hposting
        obtain ⟨other, hother, hasset⟩ := hknown posting hin
        rw [of_decide_eq_true hsame, hacct, Option.some.injEq] at hother
        rw [hasset, hother]
      · intro key hkey
        have hnew : state.accounts.lookup key = none := by
          cases hold : state.accounts.lookup key with
          | none => rfl
          | some acct =>
              obtain ⟨after, hafter, -⟩ := tryApplyTransaction_moved happly hold
              rw [hkey] at hafter
              cases hafter
        rw [accountPostings_append, htells.unknown key hnew, List.nil_append,
          accountPostings_cons, accountPostings_nil, List.append_nil]
        refine List.filter_eq_nil_iff.2 fun posting hposting hsame => ?_
        obtain ⟨acct, hacct, -⟩ := hknown posting hposting
        rw [of_decide_eq_true hsame, hnew] at hacct
        cases hacct

/-- Admitted events, one after the other. -/
theorem Tells.replay (htells : state.Tells events) {items : List (WireEvent × FramePos)}
    (hadmits : state.Admits (.accepted draft) items) (hreplay : state.replay items = .ok next) :
    next.Tells (events ++ items.map Prod.fst) := by
  induction items generalizing state events with
  | nil =>
      cases hreplay
      simpa using htells
  | cons item items ih =>
      obtain ⟨hrule, mid, hmid, hrest⟩ := hadmits
      rw [replay_cons, hmid] at hreplay
      have hstep := ih (htells.applyEvent hrule hmid) hrest hreplay
      rwa [List.append_assoc] at hstep

theorem tells_initial : initial.Tells [] :=
  ⟨by simp [initial], fun _ _ => rfl⟩

theorem Tells.of_accounts {other : BookState} (htells : other.Tells events)
    (haccounts : state.accounts = other.accounts) : state.Tells events :=
  ⟨haccounts ▸ htells.known, haccounts ▸ htells.unknown⟩

end BookState

/-! ## Reachable books -/

section Crashes

variable {run : Run} {writer : Writer} {rule : Admission}

/-- A rule that covers every batch holds of the files at every point of the
writer's work. -/
theorem RunInv.admits_diskAt (hinv : RunInv rt run)
    (hcovers : ∀ state jobs, rule.Covers state jobs)
    (hlog : BookState.initial.Admits rule (run.log rt)) (point : CrashPoint) :
    BookState.initial.Admits rule (logEvents rt (run.status.diskAt rt point).segments) := by
  have hstep : ∀ action, BookState.initial.Admits rule ((run.step rt action).log rt) :=
    fun action => hinv.admits_step hlog fun _ _ _ _ => hcovers _ _
  rw [Run.log] at hlog
  cases hstatus : run.status with
  | stopped disk =>
      rw [hstatus] at hlog
      exact hlog
  | live writer =>
      rw [hstatus] at hlog
      cases point with
      | idle => exact hlog
      | writing input point =>
          have hfail := hstep (.failStop input point)
          rw [Status.diskAt, Writer.diskAt]
          cases hleft : (writer.batchTrace rt allReadable input)[point]? with
          | none => exact hlog
          | some left =>
              simp only [Run.step, Run.failStop, hstatus, hleft] at hfail
              exact hfail
      | replying input =>
          have hbatch := hstep (.batch input)
          rw [Status.diskAt, Writer.diskAt]
          cases hresult : writer.batch rt allReadable input with
          | killed left =>
              simp only [Run.step, Run.batch, hstatus, hresult] at hbatch
              exact hbatch
          | done result =>
              simp only [Run.step, Run.batch, hstatus, hresult] at hbatch
              exact hbatch

theorem CrashInv.admits_crashStep (hinv : CrashInv rt run writer)
    (hcovers : ∀ state jobs, rule.Covers state jobs)
    (hlog : BookState.initial.Admits rule (run.log rt)) (action : CrashAction) :
    BookState.initial.Admits rule ((run.crashStep rt action).log rt) := by
  have hstep : ∀ action, BookState.initial.Admits rule ((run.step rt action).log rt) :=
    fun action => hinv.runInv.admits_step hlog fun _ _ _ _ => hcovers _ _
  cases action with
  | batch input => exact hstep (.batch input)
  | land task io => exact hstep (.land task io)
  | restart opts io =>
      rw [Run.crashStep, Run.restart]
      split
      · exact hstep (.reopen opts io)
      · exact hlog
  | crash point keep opts io =>
      obtain ⟨opened, hlive, hspec, -⟩ := hinv.crash point keep opts io
      have hleft := (hinv.runInv.admits_diskAt hcovers hlog point).of_isPrefix
        (hinv.survive point keep).prefix_written
      rw [← hspec.log_eq] at hleft
      rw [Run.crashStep, Run.log, hlive]
      exact hleft

theorem Run.admits_crashExec {opts : LogStoreOptions} {io : SpillIo}
    (hcovers : ∀ state jobs, rule.Covers state jobs) (actions : List CrashAction) :
    BookState.initial.Admits rule ((Run.crashExec rt opts io actions).log rt) := by
  induction actions using List.reverseRecOn with
  | nil =>
      have hempty : BookState.initial.Admits rule ((Run.exec rt opts io []).log rt) :=
        Run.admits_exec trivial
      exact hempty
  | append_singleton actions action ih =>
      obtain ⟨writer, hinv⟩ := CrashInv.crashExec rt opts io actions
      have hstep := hinv.admits_crashStep hcovers ih action
      rwa [Run.crashExec, List.foldl_append]

end Crashes

/-- The state of a handle tells the postings of the events, which are numbered
and monotone in time; so did earlier states for fewer of them. -/
structure BookHandle.Told (events : List WireEvent) (book : BookHandle) : Prop where
  tells : book.state.Tells events
  earlier : ∀ part, part <+: events → ∃ state : BookState, state.Tells part
  numbered : Numbered 1 events
  times : events.Pairwise fun left right => left.at' ≤ right.at'

/-- What a look finds tells the events that are committed then. -/
theorem BookLook.told_view {look : BookLook} {book : BookHandle × List WireEvent}
    (hview : look.view rt = some book) : book.1.Told book.2 := by
  have hcovers : ∀ state jobs, (Admission.accepted fun _ => True).Covers state jobs :=
    fun state _ => Admission.covers_accepted (fun _ _ _ => trivial) state
  have hlog : BookState.initial.Admits (.accepted fun _ => True) ((look.run rt).log rt) := by
    unfold BookLook.run
    cases look.past with
    | interrupted actions => exact Run.accepted_exec rt look.opts look.io _ fun _ _ _ _ => trivial
    | crashed actions => exact Run.admits_crashExec hcovers actions
  have hinv := look.runInv rt
  unfold BookLook.view at hview
  cases hstatus : (look.run rt).status with
  | stopped disk =>
      rw [hstatus] at hview
      cases hview
  | live writer =>
      rw [hstatus] at hview
      cases hview
      have hcovered : (look.run rt).Covered rt (.accepted fun _ => True)
          (look.turns.map Turn.action) := Run.covered_accepted (fun _ _ _ _ => trivial) _
      have hwhole := hinv.admits_foldl hlog hcovered
      have htimeline := (hinv.serve hstatus).timeline look.turns
      have hvalid := (htimeline.sound look.stateAt).valid
      have hpre : (((look.run rt).serve writer).atTime rt look.turns look.stateAt).applied rt <+:
          (((look.run rt).serve writer).atTime rt look.turns look.stateAt).events rt := by
        rw [htimeline.applied_eq look.stateAt hvalid.numbered List.prefix_rfl,
          ← Numbered.takeWhile_eq_filter hvalid.numbered]
        exact List.takeWhile_prefix _
      obtain ⟨items, ledger, hitems, hreplay, hsame⟩ := htimeline.state_applied look.stateAt
      have hseen := hpre.trans (Run.serve_events hinv hstatus look.turns look.stateAt)
      rw [← hitems] at hseen
      have hadmits := hwhole.of_events hseen
      have htells := BookState.tells_initial.replay hadmits hreplay
      rw [List.nil_append, hitems] at htells
      refine ⟨htells.of_accounts (BookState.same_of_forgetIdem hsame).2.2.1, fun part hpart => ?_,
        hvalid.numbered.of_isPrefix hpre, hvalid.times.sublist hpre.sublist⟩
      rw [← hitems] at hpart
      have hpart' : (items.take part.length).map Prod.fst = part := by
        rw [List.map_take, ← List.prefix_iff_eq_take.1 hpart]
      obtain ⟨earlier, hearlier, -⟩ := BookState.replay_append_eq_ok.1
        ((List.take_append_drop part.length items).symm ▸ hreplay)
      have hfirst := BookState.tells_initial.replay
        (hadmits.of_isPrefix (List.take_prefix part.length items)) hearlier
      rw [List.nil_append, hpart'] at hfirst
      exact ⟨earlier, hfirst⟩

/-- The sums of the postings stay in the range of an `i64`. -/
theorem BookState.Tells.inRange {state : BookState} {events : List WireEvent}
    (htells : state.Tells events) (key : String) :
    I64.InRange (signedSum (accountPostings key events)) := by
  cases hacct : state.accounts.lookup key with
  | none =>
      rw [htells.unknown key hacct]
      exact I64.inRange_zero
  | some acct =>
      rw [← (htells.known key acct hacct).rawBalance]
      exact (htells.known key acct hacct).inRange

end Talea.Log
