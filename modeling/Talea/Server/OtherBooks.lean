import Talea.Log.AccountReads
import Talea.Log.Subscribe
import Talea.Log.TrialBalance
import Talea.Server.Confinement

/-!
# Nothing leaks from other books

A token for some books should not tell anything of the others.  Two ledgers in
the log store that agree on the registry and on these books answer every read in
the same way, at whatever moments the read looks at them.  The ids of
transactions are global, and so their route looks into every book; it answers a
transaction of another book like one that is not there.
-/

namespace Talea.Server

open Service Talea.Log

variable {rt : Runtime}

/-! ## Ledgers -/

/-- A book of the log store: the handles of its writer at every moment, from the
one on at which it is in the map of books.  Its transactions are its own. -/
structure LedgerBook (rt : Runtime) where
  name : String
  created : ℕ
  start : ℕ
  shared : ℕ → Shared
  timeline : Timeline rt start shared
  own : ∀ time, ∀ ev ∈ (shared time).events rt, ∀ tx, ev.event = .transactionPosted tx →
    tx.book.name = name

/-- What reads see of a log store, in the course of time.  The books are listed in
the order in which the map is iterated over. -/
structure LogLedger (rt : Runtime) where
  shutDown : ℕ → Bool
  registry : ℕ → HashMap AssetId AssetDef
  books : List (LedgerBook rt)
  distinct : (books.map LedgerBook.name).Nodup

/-- The moments at which a read looks: at the map of books, at the state and the
files of each book, at the registry, and for a scan of the files. -/
structure Looks where
  mapAt : ℕ
  stateAt : String → ℕ
  fileAt : String → ℕ
  state_le : ∀ name, stateAt name ≤ fileAt name
  registryAt : ℕ
  schedule : Schedule

namespace LogLedger

variable (ledger : LogLedger rt) (looks : Looks)

/-- The books in the map. -/
def present : List (LedgerBook rt) :=
  ledger.books.filter fun book => book.created ≤ looks.mapAt

def find (name : String) : Option (LedgerBook rt) :=
  (ledger.present looks).find? fun book => book.name = name

def view : StoreView where
  shutDown := ledger.shutDown looks.mapAt
  books := ((ledger.present looks).map fun book =>
    (⟨book.name, (book.shared (looks.stateAt book.name)).state⟩ : Sigma fun _ => BookState)).toFinmap

def handle (book : LedgerBook rt) : BookHandle where
  state := (book.shared (looks.stateAt book.name)).state
  read := (book.shared (looks.fileAt book.name)).read

/-- A book of the map, if the store is open and the name is one of a directory. -/
def existing (name : String) : Except StoreError (Option (LedgerBook rt)) :=
  if ledger.shutDown looks.mapAt then .error (.io "store has been shut down")
  else if validateBookName name then .ok (ledger.find looks name)
  else .error (invalidBookName name)

/-- The trial balance of a book, which has no rows when there is no such book. -/
def readTrialBalance (scanText : ScanError → String) (book : Book) (asOf : Option ℤ) :
    Except StoreError (List TrialBalanceRow) := do
  match ← ledger.existing looks book.name with
  | none => .ok []
  | some found =>
      (Log.trialBalance rt found.shared looks.schedule asOf).mapError fun err => .io (scanText err)

/-- The log store, for the reads of the service. -/
def reads (readText : ReadError → String) (scanText : ScanError → String) : StoreReads where
  balance account asOf := Log.balance (ledger.view looks) account asOf
  asset id := .ok ((ledger.registry looks.registryAt).lookup id)
  accountHistory account afterSeq limit :=
    Log.accountHistory (ledger.view looks) account afterSeq limit
  transaction txid :=
    (Log.transaction rt txid.uuid ((ledger.present looks).map (handle looks))).mapError fun err =>
      .io (readText err)
  trialBalance book asOf := ledger.readTrialBalance looks scanText book asOf

end LogLedger

/-- What the libraries say: of a text that is no UUID, and of errors in reading
files. -/
structure StoreTexts where
  parseUuid : String → Except String ℕ
  readText : ReadError → String
  scanText : ScanError → String

/-- The service over the log store answers the calls of reads; those of writes are
answered by `writes`. -/
def answers (texts : StoreTexts) (writes : (call : ServiceCall) → ServiceReply call)
    (ledger : LogLedger rt) (looks : Looks) : (call : ServiceCall) → ServiceReply call
  | .balance book path asOf =>
      (ledger.reads looks texts.readText texts.scanText).readBalance book path asOf
  | .accountHistory book path page =>
      (ledger.reads looks texts.readText texts.scanText).readHistory book path page
  | .transaction txId =>
      (ledger.reads looks texts.readText texts.scanText).readTransaction texts.parseUuid txId
  | .trialBalance book asOf =>
      (ledger.reads looks texts.readText texts.scanText).readTrialBalance book asOf
  | .subscribe book fromSeq => (parseBookLax book).map fun book => ⟨book.name, fromSeq⟩
  | call => writes call

/-- The events that a stream has delivered at some moment, after whatever steps of
its subscriber. -/
def LogLedger.Delivers (ledger : LogLedger rt) (stream : EventStream)
    (yielded : List WireEvent) : Prop :=
  ∃ book ∈ ledger.books, book.name = stream.book ∧ ∃ joined time sub, book.created ≤ joined ∧
    Subscriber.Reach rt book.shared stream.fromSeq joined time sub ∧ sub.yielded = yielded

/-! ## Ledgers that agree on some books -/

/-- The ledgers have the same registry and, of these names, the same books. -/
structure Agree (names : Finset String) (left right : LogLedger rt) : Prop where
  shutDown : left.shutDown = right.shutDown
  registry : left.registry = right.registry
  books : ∀ book : LedgerBook rt, book.name ∈ names → (book ∈ left.books ↔ book ∈ right.books)

theorem Agree.symm {names : Finset String} {left right : LogLedger rt}
    (hagree : Agree names left right) : Agree names right left :=
  ⟨hagree.shutDown.symm, hagree.registry.symm, fun book hname => (hagree.books book hname).symm⟩

namespace LogLedger

variable {ledger left right : LogLedger rt} {looks : Looks} {names : Finset String} {name : String}

theorem find_eq_some {book : LedgerBook rt} :
    ledger.find looks name = some book ↔
      book ∈ ledger.books ∧ book.created ≤ looks.mapAt ∧ book.name = name := by
  unfold find present
  constructor
  · intro hfind
    obtain ⟨hmem, hcreated⟩ := List.mem_filter.1 (List.mem_of_find?_eq_some hfind)
    have hname := List.find?_some hfind
    exact ⟨hmem, of_decide_eq_true hcreated, by simpa using hname⟩
  · rintro ⟨hmem, hcreated, rfl⟩
    have hpresent : book ∈ ledger.books.filter fun other => other.created ≤ looks.mapAt :=
      List.mem_filter.2 ⟨hmem, decide_eq_true hcreated⟩
    cases hfind : (ledger.books.filter fun other => other.created ≤ looks.mapAt).find?
        fun other => other.name = book.name with
    | none =>
        have hnone := List.find?_eq_none.1 hfind book hpresent
        simp at hnone
    | some other =>
        have hother := (List.mem_filter.1 (List.mem_of_find?_eq_some hfind)).1
        have hname : other.name = book.name := by simpa using List.find?_some hfind
        rw [List.inj_on_of_nodup_map ledger.distinct hother hmem hname]

theorem find_eq (hagree : Agree names left right) (hname : name ∈ names) :
    left.find looks name = right.find looks name := by
  refine Option.ext fun book => ?_
  rw [find_eq_some, find_eq_some]
  constructor
  · rintro ⟨hmem, hcreated, rfl⟩
    exact ⟨(hagree.books book hname).1 hmem, hcreated, rfl⟩
  · rintro ⟨hmem, hcreated, rfl⟩
    exact ⟨(hagree.books book hname).2 hmem, hcreated, rfl⟩

theorem lookup_view :
    (ledger.view looks).books.lookup name =
      (ledger.find looks name).map fun book => (book.shared (looks.stateAt book.name)).state := by
  unfold view find
  dsimp only
  rw [Finmap.dlookup_list_toFinmap]
  induction ledger.present looks with
  | nil => rfl
  | cons book books ih =>
      rw [List.map_cons, List.find?_cons]
      by_cases hname : book.name = name
      · cases hname
        rw [List.dlookup_cons_eq, decide_eq_true rfl]
        rfl
      · rw [List.dlookup_cons_ne _ _ (Ne.symm hname), decide_eq_false hname]
        exact ih

theorem existingBook_eq (hagree : Agree names left right) (hname : name ∈ names) :
    (left.view looks).existingBook name = (right.view looks).existingBook name := by
  unfold StoreView.existingBook
  rw [lookup_view, lookup_view, find_eq hagree hname]
  unfold view
  dsimp only
  rw [hagree.shutDown]

theorem findAccount_eq (hagree : Agree names left right) {account : AccountId}
    (hname : account.book.name ∈ names) :
    (left.view looks).findAccount account = (right.view looks).findAccount account := by
  unfold StoreView.findAccount
  rw [existingBook_eq hagree hname]

theorem readTrialBalance_eq (hagree : Agree names left right) (scanText : ScanError → String)
    {book : Book} (hname : book.name ∈ names) (asOf : Option ℤ) :
    left.readTrialBalance looks scanText book asOf =
      right.readTrialBalance looks scanText book asOf := by
  unfold readTrialBalance existing
  rw [hagree.shutDown, find_eq hagree hname]

/-- No transaction id is used in two books. -/
def UniqueIds (ledger : LogLedger rt) : Prop :=
  ∀ book ∈ ledger.books, ∀ other ∈ ledger.books, ∀ time later uuid,
    ∀ ev ∈ (book.shared time).events rt, ∀ ev' ∈ (other.shared later).events rt,
      (ev.stored uuid).isSome = true → (ev'.stored uuid).isSome = true → book.name = other.name

/-- What is committed in a book under an id, at the moment of a look. -/
def committed (looks : Looks) (uuid : ℕ) (book : LedgerBook rt) : Option StoredTransaction :=
  lastStored uuid ((book.shared (looks.stateAt book.name)).applied rt)

theorem committed_eq_some {uuid : ℕ} {book : LedgerBook rt} {stored : StoredTransaction}
    (hcommitted : committed looks uuid book = some stored) :
    stored.transaction.book.name = book.name ∧
      ∃ ev ∈ (book.shared (looks.stateAt book.name)).events rt,
        (ev.stored uuid).isSome = true := by
  obtain ⟨ev, hmem, hstored⟩ := List.mem_filterMap.1 (List.mem_of_getLast? hcommitted)
  have hevent := (List.mem_filter.1 hmem).1
  exact ⟨book.own _ ev hevent _ (WireEvent.stored_eq_some.1 hstored).1, ev, hevent, by
    rw [hstored]; rfl⟩

theorem transaction_eq_find (ledger : LogLedger rt) (looks : Looks) (uuid : ℕ) :
    Log.transaction rt uuid ((ledger.present looks).map (handle looks)) =
      .ok ((ledger.present looks).findSome? (committed looks uuid)) :=
  Log.transaction_eq uuid fun book _ => book.timeline.resolves (looks.state_le book.name)

/-- A transaction of one of the books is found in the other ledger. -/
theorem find_committed (hagree : Agree names left right) (hunique : right.UniqueIds) {uuid : ℕ}
    {stored : StoredTransaction}
    (hfound : (left.present looks).findSome? (committed looks uuid) = some stored)
    (hname : stored.transaction.book.name ∈ names) :
    (right.present looks).findSome? (committed looks uuid) = some stored := by
  obtain ⟨book, hbook, hcommitted⟩ := List.exists_of_findSome?_eq_some hfound
  obtain ⟨hown, ev, hev, hstored⟩ := committed_eq_some hcommitted
  obtain ⟨hmem, hcreated⟩ := List.mem_filter.1 hbook
  rw [hown] at hname
  have hthere := (hagree.books book hname).1 hmem
  cases hright : (right.present looks).findSome? (committed looks uuid) with
  | none =>
      have hnone := List.findSome?_eq_none_iff.1 hright book
        (List.mem_filter.2 ⟨hthere, hcreated⟩)
      rw [hcommitted] at hnone
      cases hnone
  | some other =>
      obtain ⟨found, hfound', hcommitted'⟩ := List.exists_of_findSome?_eq_some hright
      obtain ⟨-, ev', hev', hstored'⟩ := committed_eq_some hcommitted'
      have hmem' := (List.mem_filter.1 hfound').1
      have hsame := hunique book hthere found hmem' _ _ uuid ev hev ev' hev' hstored hstored'
      obtain rfl := List.inj_on_of_nodup_map right.distinct hthere hmem' hsame
      rw [← hcommitted, ← hcommitted']

end LogLedger

/-! ## Runs -/

section Runs

variable (rt) (opts : LogStoreOptions) (io : SpillIo) (actions : List Action) (turns : List Turn)

/-- What a writer shows was committed by one of its actions. -/
theorem exists_commits_of_mem_events {writer : Writer}
    (hlive : (Run.exec rt opts io actions).status = .live writer) {time : ℕ} {ev : WireEvent}
    (hmem : ev ∈ (((Run.exec rt opts io actions).serve writer).atTime rt turns time).events rt)
    {tx : Transaction} (hposted : ev.event = .transactionPosted tx) :
    ∃ action ∈ actions ++ turns.map Turn.action, action.Commits tx := by
  have hinv := RunInv.exec rt opts io actions
  have hadmits : BookState.initial.Admits
      (.accepted fun tx => ∃ action ∈ actions ++ turns.map Turn.action, action.Commits tx)
      ((Run.exec rt opts io (actions ++ turns.map Turn.action)).log rt) :=
    Run.accepted_exec rt opts io _ fun action haction tx htx => ⟨action, haction, htx⟩
  have hseen := Run.serve_events hinv hlive turns time
  rw [Run.exec, ← List.foldl_append] at hseen
  obtain ⟨item, hitem, rfl⟩ := List.mem_map.1 (hseen.subset hmem)
  obtain ⟨before, after, hsplit⟩ := List.append_of_mem hitem
  rw [Run.exec, hsplit] at hadmits
  obtain ⟨_, _, _, haccepted, _⟩ := hadmits.split
  exact (haccepted tx hposted).2

end Runs

/-- A run of the writer of one book, and the moment at which the book is created. -/
structure BookRun (rt : Runtime) where
  name : String
  created : ℕ
  opts : LogStoreOptions
  io : SpillIo
  actions : List Action
  turns : List Turn
  writer : Writer
  live : (Run.exec rt opts io actions).status = .live writer
  own : ∀ action ∈ actions ++ turns.map Turn.action, ∀ tx, action.Commits tx →
    tx.book.name = name

namespace BookRun

variable (run : BookRun rt)

def shared (time : ℕ) : Shared :=
  ((Run.exec rt run.opts run.io run.actions).serve run.writer).atTime rt run.turns time

theorem timeline : Timeline rt
    (logEvents rt run.writer.segments.files).length run.shared :=
  ((RunInv.exec rt run.opts run.io run.actions).serve run.live).timeline run.turns

theorem own_events (time : ℕ) (ev : WireEvent) (hmem : ev ∈ (run.shared time).events rt)
    (tx : Transaction) (hposted : ev.event = .transactionPosted tx) :
    tx.book.name = run.name := by
  obtain ⟨action, haction, hcommits⟩ :=
    exists_commits_of_mem_events rt run.opts run.io run.actions run.turns run.live hmem hposted
  exact run.own action haction tx hcommits

/-- The handles of the book of a run. -/
def ledgerBook : LedgerBook rt where
  name := run.name
  created := run.created
  start := (logEvents rt run.writer.segments.files).length
  shared := run.shared
  timeline := run.timeline
  own := run.own_events

end BookRun

/-- Ids are unique when no two books get a draft of one id. -/
theorem uniqueIds_of_runs {ledger : LogLedger rt} (runs : List (BookRun rt))
    (hbooks : ledger.books = runs.map BookRun.ledgerBook)
    (hdrafts : ∀ run ∈ runs, ∀ other ∈ runs,
      ∀ action ∈ run.actions ++ run.turns.map Turn.action,
      ∀ action' ∈ other.actions ++ other.turns.map Turn.action,
      ∀ tx tx', action.Commits tx → action'.Commits tx' → tx.id.uuid = tx'.id.uuid →
        run.name = other.name) : ledger.UniqueIds := by
  intro book hbook other hother time later uuid ev hev ev' hev' hstored hstored'
  rw [hbooks] at hbook hother
  obtain ⟨run, hrun, rfl⟩ := List.mem_map.1 hbook
  obtain ⟨run', hrun', rfl⟩ := List.mem_map.1 hother
  obtain ⟨stored, hstored⟩ := Option.isSome_iff_exists.1 hstored
  obtain ⟨stored', hstored'⟩ := Option.isSome_iff_exists.1 hstored'
  obtain ⟨hposted, hid, -⟩ := WireEvent.stored_eq_some.1 hstored
  obtain ⟨hposted', hid', -⟩ := WireEvent.stored_eq_some.1 hstored'
  obtain ⟨action, haction, hcommits⟩ := exists_commits_of_mem_events rt run.opts run.io
    run.actions run.turns run.live hev hposted
  obtain ⟨action', haction', hcommits'⟩ := exists_commits_of_mem_events rt run'.opts run'.io
    run'.actions run'.turns run'.live hev' hposted'
  exact hdrafts run hrun run' hrun' action haction action' haction' _ _ hcommits hcommits'
    (hid.trans hid'.symm)

/-! ## Reads of a token for some books -/

/-- The requests that read. -/
def Request.IsRead : Request → Prop
  | .getBalance _ _ _ | .getHistory _ _ _ _ | .getTransaction _ | .getTrialBalance _ _
  | .events _ _ _ => True
  | _ => False

section Reads

variable {left right : LogLedger rt} {names : Finset String} {scope : TokenScope}
  (texts : StoreTexts) (writes : (call : ServiceCall) → ServiceReply call) (looks : Looks)

theorem mem_of_allowsRead (hnamed : scope.books = .named names) {book : String}
    (hallows : scope.allowsRead book = true) : book ∈ names := by
  unfold TokenScope.allowsRead at hallows
  rw [hnamed] at hallows
  exact of_decide_eq_true hallows

/-- The handler of a transaction tells nothing of one out of scope. -/
theorem run_getTransaction (ledger : LogLedger rt) (txId : String) :
    (getTransaction scope txId).run (answers texts writes ledger looks) =
      match texts.parseUuid txId with
      | .error message => .error (invalid "tx_id" ("not a uuid: " ++ message))
      | .ok uuid =>
          match ((ledger.present looks).findSome? (LogLedger.committed looks uuid)).filter
              fun stored => scope.allowsRead stored.transaction.book.name with
          | none => .error (.notFound ("transaction " ++ txId))
          | some stored => .ok (StoreReads.transactionView stored) := by
  show Except.bind (StoreReads.readTransaction _ texts.parseUuid txId) _ = _
  unfold StoreReads.readTransaction
  cases texts.parseUuid txId with
  | error message => rfl
  | ok uuid =>
      have hstore : (ledger.reads looks texts.readText texts.scanText).transaction ⟨uuid⟩ =
          .ok ((ledger.present looks).findSome? (LogLedger.committed looks uuid)) := by
        show (Log.transaction rt uuid _).mapError _ = _
        rw [LogLedger.transaction_eq_find]
        rfl
      simp only [Except.mapError, bind, Except.bind, hstore]
      cases (ledger.present looks).findSome? (LogLedger.committed looks uuid) with
      | none => rfl
      | some stored =>
          have hview : (StoreReads.transactionView stored).book = stored.transaction.book.name := rfl
          dsimp only
          rw [hview]
          cases hallows : scope.allowsRead stored.transaction.book.name <;>
            simp [Option.filter, hallows]

theorem filter_committed_eq (hagree : Agree names left right) (hleft : left.UniqueIds)
    (hright : right.UniqueIds) (hnamed : scope.books = .named names) (uuid : ℕ) :
    ((left.present looks).findSome? (LogLedger.committed looks uuid)).filter
        (fun stored => scope.allowsRead stored.transaction.book.name) =
      ((right.present looks).findSome? (LogLedger.committed looks uuid)).filter
        (fun stored => scope.allowsRead stored.transaction.book.name) := by
  refine Option.ext fun stored => ?_
  rw [Option.filter_eq_some_iff, Option.filter_eq_some_iff]
  constructor
  · rintro ⟨hfound, hallows⟩
    exact ⟨LogLedger.find_committed hagree hright hfound (mem_of_allowsRead hnamed hallows), hallows⟩
  · rintro ⟨hfound, hallows⟩
    exact ⟨LogLedger.find_committed hagree.symm hleft hfound (mem_of_allowsRead hnamed hallows),
      hallows⟩

/-- A call about one of the books. -/
def AboutBooks (names : Finset String) : ServiceCall → Prop
  | .balance book _ _ | .accountHistory book _ _ | .trialBalance book _ | .subscribe book _ =>
      book ∈ names
  | _ => False

theorem answers_eq (hagree : Agree names left right) {call : ServiceCall}
    (habout : AboutBooks names call) :
    answers texts writes left looks call = answers texts writes right looks call := by
  cases call with
  | balance book path asOf =>
      have hname : book ∈ names := habout
      show StoreReads.readBalance _ book path asOf = StoreReads.readBalance _ book path asOf
      have hbalance : (left.reads looks texts.readText texts.scanText).balance ⟨⟨book⟩, path⟩ asOf =
          (right.reads looks texts.readText texts.scanText).balance ⟨⟨book⟩, path⟩ asOf :=
        congrArg (Except.map _) (LogLedger.findAccount_eq hagree hname)
      have hasset : (left.reads looks texts.readText texts.scanText).asset =
          (right.reads looks texts.readText texts.scanText).asset := by
        unfold LogLedger.reads
        rw [hagree.registry]
      unfold StoreReads.readBalance
      cases hparse : parseBookLax book with
      | error error => rfl
      | ok parsed =>
          obtain ⟨-, rfl⟩ := parseBookLax_eq_ok.1 hparse
          simp only [bind, Except.bind, hbalance, hasset]
  | accountHistory book path page =>
      have hname : book ∈ names := habout
      show StoreReads.readHistory _ book path page = StoreReads.readHistory _ book path page
      have hhistory : ∀ limit, (left.reads looks texts.readText texts.scanText).accountHistory
          ⟨⟨book⟩, path⟩ page.afterSeq limit =
          (right.reads looks texts.readText texts.scanText).accountHistory ⟨⟨book⟩, path⟩
            page.afterSeq limit := by
        intro limit
        show Log.accountHistory _ _ _ _ = Log.accountHistory _ _ _ _
        unfold Log.accountHistory
        rw [LogLedger.findAccount_eq hagree hname]
      unfold StoreReads.readHistory
      cases hparse : parseBookLax book with
      | error error => rfl
      | ok parsed =>
          obtain ⟨-, rfl⟩ := parseBookLax_eq_ok.1 hparse
          simp only [bind, Except.bind, hhistory]
  | trialBalance book asOf =>
      have hname : book ∈ names := habout
      show StoreReads.readTrialBalance _ book asOf = StoreReads.readTrialBalance _ book asOf
      have hrows : (left.reads looks texts.readText texts.scanText).trialBalance ⟨book⟩ asOf =
          (right.reads looks texts.readText texts.scanText).trialBalance ⟨book⟩ asOf :=
        LogLedger.readTrialBalance_eq hagree texts.scanText hname asOf
      unfold StoreReads.readTrialBalance
      cases hparse : parseBookLax book with
      | error error => rfl
      | ok parsed =>
          obtain ⟨-, rfl⟩ := parseBookLax_eq_ok.1 hparse
          simp only [bind, Except.bind, hrows]
  | subscribe book fromSeq => rfl
  | _ => exact absurd habout id

theorem run_guarded_eq (hagree : Agree names left right) {α : Type} {allowed : Bool}
    {book : String} {call : ServiceCall} {next : ServiceReply call → Handler α}
    (habout : allowed = true → AboutBooks names call)
    (hnext : ∀ answer, (next answer).run (answers texts writes left looks) =
      (next answer).run (answers texts writes right looks)) :
    (guarded allowed book (.ask call next)).run (answers texts writes left looks) =
      (guarded allowed book (.ask call next)).run (answers texts writes right looks) := by
  cases allowed with
  | false => rfl
  | true =>
      show (next (answers texts writes left looks call)).run _ =
        (next (answers texts writes right looks call)).run _
      rw [answers_eq texts writes looks hagree (habout rfl), hnext]

theorem run_answering_eq {α : Type} {kind : α → Answer} {program : Handler α}
    (hrun : program.run (answers texts writes left looks) =
      program.run (answers texts writes right looks)) :
    (answering kind program).run (answers texts writes left looks) =
      (answering kind program).run (answers texts writes right looks) := by
  unfold answering
  rw [Program.run_bind, Program.run_bind, hrun]
  rfl

/-- A stream is one of a book in the scope. -/
theorem allowsRead_of_stream {ledger : LogLedger rt} {batchMax : ℕ} {request : Request}
    {stream : EventStream}
    (hrun : (handle scope batchMax request).run (answers texts writes ledger looks) =
      .ok (.events stream)) : scope.allowsRead stream.book = true := by
  cases request with
  | events book lastEventId fromQuery =>
      rw [handle, answering, Program.run_bind] at hrun
      cases hallows : scope.allowsRead book with
      | false =>
          have hresult : (events scope book lastEventId fromQuery).run
              (answers texts writes ledger looks) = .error (forbid book) := by
            rw [events, hallows]
            rfl
          rw [hresult] at hrun
          cases hrun
      | true =>
          have hresult : (events scope book lastEventId fromQuery).run
              (answers texts writes ledger looks) = (parseBookLax book).map fun book =>
                (⟨book.name, startOf lastEventId fromQuery⟩ : EventStream) := by
            rw [events, hallows]
            rfl
          rw [hresult] at hrun
          cases hparse : parseBookLax book with
          | error error =>
              rw [hparse] at hrun
              cases hrun
          | ok parsed =>
              rw [hparse] at hrun
              obtain ⟨-, rfl⟩ := parseBookLax_eq_ok.1 hparse
              cases hrun
              exact hallows
  | rejected rejection => cases hrun
  | _ => exact absurd hrun (run_answering_ne _ fun _ => Answer.noConfusion)

end Reads

/-- A token for some books learns nothing of the others: two ledgers that agree on
the registry and on these books, whatever else they hold, answer each of its reads
with the same response, at whatever moments the read looks, and deliver the same
events on its streams. -/
theorem reads_confined (scope : TokenScope) (names : Finset String)
    (hnamed : scope.books = .named names) (left right : LogLedger rt)
    (hagree : Agree names left right) (hleft : left.UniqueIds) (hright : right.UniqueIds)
    (texts : StoreTexts) (writes : (call : ServiceCall) → ServiceReply call) (looks : Looks)
    (batchMax : ℕ) (request : Request) (hread : request.IsRead) :
    (handle scope batchMax request).run (answers texts writes left looks) =
        (handle scope batchMax request).run (answers texts writes right looks) ∧
      (∀ toJson encode,
        respond toJson encode
            ((handle scope batchMax request).run (answers texts writes left looks)) =
          respond toJson encode
            ((handle scope batchMax request).run (answers texts writes right looks))) ∧
      ∀ stream,
        (handle scope batchMax request).run (answers texts writes left looks) =
            .ok (.events stream) →
          ∀ yielded, left.Delivers stream yielded ↔ right.Delivers stream yielded := by
  have hallowed : ∀ {book : String} {call : ServiceCall}, (book ∈ names → AboutBooks names call) →
      scope.allowsRead book = true → AboutBooks names call :=
    fun habout hallows => habout (mem_of_allowsRead hnamed hallows)
  have hsame : (handle scope batchMax request).run (answers texts writes left looks) =
      (handle scope batchMax request).run (answers texts writes right looks) := by
    cases request with
    | getBalance book path asOf =>
        exact run_answering_eq texts writes looks
          (run_guarded_eq texts writes looks hagree (hallowed id) fun _ => rfl)
    | getHistory book path afterSeq limit =>
        exact run_answering_eq texts writes looks
          (run_guarded_eq texts writes looks hagree (hallowed id) fun _ => rfl)
    | getTransaction txId =>
        refine run_answering_eq texts writes looks ?_
        rw [run_getTransaction, run_getTransaction]
        cases texts.parseUuid txId with
        | error message => rfl
        | ok uuid => simp only [filter_committed_eq looks hagree hleft hright hnamed uuid]
    | getTrialBalance book asOf =>
        exact run_answering_eq texts writes looks
          (run_guarded_eq texts writes looks hagree (hallowed id) fun _ => rfl)
    | events book lastEventId fromQuery =>
        exact run_answering_eq texts writes looks
          (run_guarded_eq texts writes looks hagree (hallowed id) fun _ => rfl)
    | _ => exact absurd hread id
  refine ⟨hsame, fun toJson encode => by rw [hsame], fun stream hstream yielded => ?_⟩
  have hname := mem_of_allowsRead hnamed (allowsRead_of_stream texts writes looks hstream)
  refine exists_congr fun book => ?_
  constructor
  · rintro ⟨hmem, hbook, hreach⟩
    exact ⟨(hagree.books book (hbook ▸ hname)).1 hmem, hbook, hreach⟩
  · rintro ⟨hmem, hbook, hreach⟩
    exact ⟨(hagree.books book (hbook ▸ hname)).2 hmem, hbook, hreach⟩

namespace TwoBooks

def opts : LogStoreOptions :=
  ⟨4, 0, defaultSegmentMax⟩

def account (book path : String) : Job × Int :=
  (.openAccount ⟨⟨⟨book⟩, path⟩, ⟨"EUR"⟩, .asset⟩ ⟨none, none⟩, 1)

def payment (book : String) (uuid : ℕ) : Transaction :=
  { Payment.draft with book }.transaction ⟨uuid⟩ 2

/-- Two accounts and a payment of one book. -/
def turns (book : String) (uuid : ℕ) : List Turn :=
  [.batch ⟨1, [account book "cash", account book "sales"], .ok, .ok⟩,
    .batch ⟨2, [(.commit (payment book uuid), 2)], .ok, .ok⟩]

/-- The writer of a new book. -/
def writer : Log.Writer where
  segments := ⟨[], Segment.create 1, 0, defaultSegmentMax⟩
  state := { BookState.initial with
    idem := (BookState.initial.idem.attachDir binaryRuntime .ok Disk.empty.runs []).1 }
  runs := (BookState.initial.idem.attachDir binaryRuntime .ok Disk.empty.runs []).2
  snaps := Disk.empty.snaps
  eventsSinceSnap := 0
  snapshotEvery := 0
  snapInflight := false

theorem live : (Run.exec binaryRuntime opts .ok []).status = .live writer := by
  rfl

theorem commits_turns {book : String} {uuid : ℕ} {action : Action}
    (haction : action ∈ [] ++ (turns book uuid).map Turn.action) {tx : Transaction}
    (hcommits : action.Commits tx) : tx = payment book uuid := by
  obtain ⟨input, now, hinput, hjob⟩ := hcommits
  obtain ⟨turn, hturn, rfl⟩ := List.mem_map.1 haction
  rcases List.mem_cons.1 hturn with rfl | hturn
  · cases hinput
    simp [account] at hjob
  · obtain rfl := List.mem_singleton.1 hturn
    cases hinput
    obtain hsame := List.mem_singleton.1 hjob
    cases hsame
    rfl

theorem own_turns (book : String) (uuid : ℕ) (action : Action)
    (haction : action ∈ [] ++ (turns book uuid).map Turn.action) (tx : Transaction)
    (hcommits : action.Commits tx) : tx.book.name = book := by
  obtain rfl := commits_turns haction hcommits
  rfl

def bookRun (book : String) (uuid : ℕ) : BookRun binaryRuntime where
  name := book
  created := 0
  opts := opts
  io := .ok
  actions := []
  turns := turns book uuid
  writer := writer
  live := live
  own := own_turns book uuid

theorem distinct_alone : [(bookRun "main" 1).ledgerBook.name].Nodup := by
  decide

theorem distinct_both :
    [(bookRun "payroll" 2).ledgerBook.name, (bookRun "main" 1).ledgerBook.name].Nodup := by
  decide

/-- A ledger with one book. -/
def alone : LogLedger binaryRuntime where
  shutDown _ := false
  registry _ := ∅
  books := [(bookRun "main" 1).ledgerBook]
  distinct := distinct_alone

/-- And one with a second book. -/
def both : LogLedger binaryRuntime where
  shutDown _ := false
  registry _ := ∅
  books := [(bookRun "payroll" 2).ledgerBook, (bookRun "main" 1).ledgerBook]
  distinct := distinct_both

theorem uniqueIds_alone : alone.UniqueIds := by
  refine uniqueIds_of_runs [bookRun "main" 1] rfl ?_
  intro run hrun other hother _ _ _ _ _ _ _ _ _
  rw [List.mem_singleton.1 hrun, List.mem_singleton.1 hother]

theorem uniqueIds_both : both.UniqueIds := by
  refine uniqueIds_of_runs [bookRun "payroll" 2, bookRun "main" 1] rfl ?_
  intro run hrun other hother action haction action' haction' tx tx' hcommits hcommits' hid
  have hcases : ∀ {found : BookRun binaryRuntime},
      found ∈ [bookRun "payroll" 2, bookRun "main" 1] →
        found = bookRun "payroll" 2 ∨ found = bookRun "main" 1 :=
    fun hfound => (List.mem_cons.1 hfound).imp_right List.mem_singleton.1
  rcases hcases hrun with rfl | rfl <;> rcases hcases hother with rfl | rfl
  · rfl
  · rw [commits_turns haction hcommits, commits_turns haction' hcommits'] at hid
    exact absurd hid (by decide)
  · rw [commits_turns haction hcommits, commits_turns haction' hcommits'] at hid
    exact absurd hid (by decide)
  · rfl

theorem agree : Agree {"main"} alone both where
  shutDown := rfl
  registry := rfl
  books book hname := by
    constructor
    · intro hmem
      exact List.mem_cons_of_mem _ hmem
    · intro hmem
      rcases List.mem_cons.1 hmem with rfl | hmem
      · exact absurd hname (by decide)
      · exact hmem

def texts : StoreTexts :=
  ⟨fun text => if text = "2" then .ok 2 else .error "no uuid", fun _ => "", fun _ => ""⟩

def looks : Looks :=
  ⟨0, fun _ => 9, fun _ => 9, fun _ => le_rfl, 0, ⟨9, 9, fun _ => 9, le_rfl, fun _ => le_rfl⟩⟩

def scope : TokenScope :=
  ⟨"main", .named {"main"}, .readOnly⟩

/-- The payment of the second book is answered like one that is not there. -/
theorem reads_confined_payroll :
    (handle scope 500 (.getTransaction "2")).run (answers texts BatchRun.answer both looks) =
      (handle scope 500 (.getTransaction "2")).run (answers texts BatchRun.answer alone looks) :=
  (reads_confined scope {"main"} rfl both alone agree.symm uniqueIds_both uniqueIds_alone texts
    BatchRun.answer looks 500 (.getTransaction "2") trivial).1

end TwoBooks

end Talea.Server
