import Talea.Server.Batch

/-!
# What a token reaches

Between the tokens file and the service stand the header, the scope and the
handlers.  Put together: every call that the server makes for a request is one
that the text of the entry grants whose secret the request shows, and no answer
shows a transaction of a book that the entry does not list.
-/

namespace Talea.Server

open Service

/-- The calls a scope permits.  A transaction is looked up first, since its id does
not tell its book. -/
def Permitted (scope : TokenScope) : ServiceCall → Prop
  | .registerAsset _ => scope.allowsRegistry = true
  | .openAccount draft => scope.allowsWrite draft.book = true
  | .post draft => scope.allowsWrite draft.book = true
  | .postBatch drafts => ∀ draft ∈ drafts, scope.allowsWrite draft.book = true
  | .balance book _ _ => scope.allowsRead book = true
  | .accountHistory book _ _ => scope.allowsRead book = true
  | .transaction _ => True
  | .trialBalance book _ => scope.allowsRead book = true
  | .subscribe book _ => scope.allowsRead book = true

section Calls

variable (scope : TokenScope)

theorem only_guarded {α : Type} {allowed : Bool} {book : String} {call : ServiceCall}
    {next : ServiceReply call → Handler α} (hnext : ∀ answer, (next answer).Only (Permitted scope))
    (hpermitted : allowed = true → Permitted scope call) :
    (guarded allowed book (.ask call next)).Only (Permitted scope) := by
  unfold guarded
  cases allowed with
  | false => trivial
  | true => exact ⟨hpermitted rfl, hnext⟩

theorem only_answering {α : Type} {answer : α → Answer} {program : Handler α}
    (honly : program.Only (Permitted scope)) :
    (answering answer program).Only (Permitted scope) :=
  honly.bind fun _ => trivial

theorem only_postBatchTransactions (batchMax : ℕ) (drafts : List TransactionDraft) :
    (postBatchTransactions scope batchMax drafts).Only (Permitted scope) := by
  have hfold := foldl_partitionDraft scope drafts 0
  rw [Nat.add_zero, List.replicate_zero, List.append_nil] at hfold
  unfold postBatchTransactions
  rw [hfold]
  dsimp only
  split_ifs
  · trivial
  · trivial
  · trivial
  · refine ⟨?_, fun _ => trivial⟩
    rw [map_snd_placed]
    intro draft hmem
    exact (List.mem_filter.1 hmem).2

/-- A handler makes calls that the scope permits, and no others. -/
theorem only_handle (batchMax : ℕ) (request : Request) :
    (handle scope batchMax request).Only (Permitted scope) := by
  cases request with
  | registerAsset draft => exact only_answering scope (only_guarded scope (fun _ => trivial) id)
  | openAccount draft => exact only_answering scope (only_guarded scope (fun _ => trivial) id)
  | postTransaction draft => exact only_answering scope (only_guarded scope (fun _ => trivial) id)
  | postBatchTransactions drafts =>
      exact only_answering scope (only_postBatchTransactions scope batchMax drafts)
  | getBalance book path asOf =>
      exact only_answering scope (only_guarded scope (fun _ => trivial) id)
  | getHistory book path afterSeq limit =>
      exact only_answering scope (only_guarded scope (fun _ => trivial) id)
  | getTransaction txId => exact only_answering scope ⟨trivial, fun _ => trivial⟩
  | getTrialBalance book asOf =>
      exact only_answering scope (only_guarded scope (fun _ => trivial) id)
  | events book lastEventId fromQuery =>
      exact only_answering scope (only_guarded scope (fun _ => trivial) id)
  | rejected rejection => trivial

end Calls

/-! ## From the tokens file to the calls -/

namespace TokenEntry

/-- The text of an entry lists a book, or all. -/
def Lists (entry : TokenEntry) (book : String) : Prop :=
  "*" ∈ entry.books ∨ book ∈ entry.books

def Writes (entry : TokenEntry) (book : String) : Prop :=
  entry.access = "rw" ∧ entry.Lists book

/-- The calls that the text of an entry grants. -/
def Allows (entry : TokenEntry) : ServiceCall → Prop
  | .registerAsset _ => entry.access = "rw" ∧ "*" ∈ entry.books
  | .openAccount draft => entry.Writes draft.book
  | .post draft => entry.Writes draft.book
  | .postBatch drafts => ∀ draft ∈ drafts, entry.Writes draft.book
  | .balance book _ _ => entry.Lists book
  | .accountHistory book _ _ => entry.Lists book
  | .transaction _ => True
  | .trialBalance book _ => entry.Lists book
  | .subscribe book _ => entry.Lists book

end TokenEntry

theorem Grants.allows {entry : String × TokenEntry} {scope : TokenScope}
    (hgrants : Grants entry scope) {call : ServiceCall} (hpermitted : Permitted scope call) :
    entry.2.Allows call := by
  cases call with
  | registerAsset draft => exact hgrants.registers.1 hpermitted
  | openAccount draft => exact (hgrants.writes _).1 hpermitted
  | post draft => exact (hgrants.writes _).1 hpermitted
  | postBatch drafts => exact fun draft hmem => (hgrants.writes _).1 (hpermitted draft hmem)
  | balance book path asOf => exact (hgrants.reads _).1 hpermitted
  | accountHistory book path page => exact (hgrants.reads _).1 hpermitted
  | transaction txId => trivial
  | trialBalance book asOf => exact (hgrants.reads _).1 hpermitted
  | subscribe book fromSeq => exact (hgrants.reads _).1 hpermitted

/-- A route answers with its own kind of answer. -/
theorem run_answering_ne {answer : (call : ServiceCall) → ServiceReply call} {shown : Answer}
    {α : Type} {kind : α → Answer} (program : Handler α) (hkind : ∀ value, kind value ≠ shown) :
    (answering kind program).run answer ≠ .ok shown := by
  intro hanswer
  rw [answering, Program.run_bind] at hanswer
  cases hresult : program.run answer with
  | error error =>
      rw [hresult] at hanswer
      cases hanswer
  | ok value =>
      rw [hresult] at hanswer
      exact hkind value (Except.ok.inj hanswer)

/-- What a handler shows of a transaction is in the scope. -/
theorem allowsRead_of_run {scope : TokenScope} {batchMax : ℕ} {request : Request}
    {answer : (call : ServiceCall) → ServiceReply call} {view : TransactionView}
    (hrun : (handle scope batchMax request).run answer = .ok (.transaction view)) :
    scope.allowsRead view.book = true := by
  cases request with
  | registerAsset draft => exact absurd hrun (run_answering_ne _ fun _ => Answer.noConfusion)
  | openAccount draft => exact absurd hrun (run_answering_ne _ fun _ => Answer.noConfusion)
  | postTransaction draft => exact absurd hrun (run_answering_ne _ fun _ => Answer.noConfusion)
  | postBatchTransactions drafts => exact absurd hrun (run_answering_ne _ fun _ => Answer.noConfusion)
  | getBalance book path asOf => exact absurd hrun (run_answering_ne _ fun _ => Answer.noConfusion)
  | getHistory book path afterSeq limit => exact absurd hrun (run_answering_ne _ fun _ => Answer.noConfusion)
  | getTransaction txId =>
      rw [handle, answering, Program.run_bind] at hrun
      cases hview : answer (.transaction txId) with
      | error error =>
          have hresult : (getTransaction scope txId).run answer = .error error := by
            show Except.bind (answer (.transaction txId)) _ = _
            rw [hview]
            rfl
          rw [hresult] at hrun
          cases hrun
      | ok found =>
          have hresult : (getTransaction scope txId).run answer =
              if !scope.allowsRead found.book then .error (.notFound ("transaction " ++ txId))
              else .ok found := by
            show Except.bind (answer (.transaction txId)) _ = _
            rw [hview]
            rfl
          rw [hresult] at hrun
          cases hallows : scope.allowsRead found.book with
          | false =>
              rw [hallows] at hrun
              cases hrun
          | true =>
              rw [hallows] at hrun
              cases hrun
              exact hallows
  | getTrialBalance book asOf => exact absurd hrun (run_answering_ne _ fun _ => Answer.noConfusion)
  | events book lastEventId fromQuery => exact absurd hrun (run_answering_ne _ fun _ => Answer.noConfusion)
  | rejected rejection => cases hrun

/-- With a tokens file of at least one entry, every call of the service that a
request causes, and every transaction that its answer shows, is granted by the
text of an entry whose secret the request shows in its header.  A request that
shows none is unauthorized and causes no call. -/
theorem calls_are_granted (fromToml : String → Except String (List (String × TokenEntry)))
    (text : String) (entries : List (String × TokenScope))
    (hparse : parseTokens fromToml text = .ok entries) (hsome : entries ≠ []) :
    ∃ file, fromToml text = .ok file ∧
      ∀ batchMax header request (answer : (call : ServiceCall) → ServiceReply call),
        (∃ entry ∈ file, (∃ shown, header = some shown ∧ Shows shown entry.2.token) ∧
          (∀ call ∈ (serve ⟨entries⟩ batchMax header request).asked answer, entry.2.Allows call) ∧
          ∀ view, (serve ⟨entries⟩ batchMax header request).run answer = .ok (.transaction view) →
            entry.2.Lists view.book) ∨
        (∀ entry ∈ file, ∀ shown, header = some shown → ¬ Shows shown entry.2.token) ∧
          (serve ⟨entries⟩ batchMax header request).asked answer = [] ∧
          (serve ⟨entries⟩ batchMax header request).run answer =
            .error (.api .unauthorized) := by
  obtain ⟨file, hfile, -, hopens, hrefused, hgranted⟩ :=
    tokens_file_opens fromToml text entries hparse hsome
  refine ⟨file, hfile, fun batchMax header request answer => ?_⟩
  cases hbearer : requireBearer ⟨entries⟩ header with
  | error error =>
      obtain rfl := hrefused header error hbearer
      refine Or.inr ⟨fun entry hentry shown hheader hshows => ?_, ?_, ?_⟩
      · obtain ⟨scope, hparsed, -⟩ := hgranted entry hentry
        rw [(hopens header scope).2 ⟨entry, hentry, hparsed, shown, hheader, hshows⟩] at hbearer
        cases hbearer
      · rw [serve, hbearer]
        rfl
      · rw [serve, hbearer]
        rfl
  | ok scope =>
      obtain ⟨entry, hentry, hparsed, hshown⟩ := (hopens header scope).1 hbearer
      have hgrants := grants_of_parseEntry hparsed
      refine Or.inl ⟨entry, hentry, hshown, ?_, ?_⟩
      · rw [serve, hbearer]
        intro call hcall
        exact hgrants.allows ((only_handle scope batchMax request).asked answer call hcall)
      · rw [serve, hbearer]
        intro view hrun
        exact (hgrants.reads _).1 (allowsRead_of_run hrun)

namespace TokensFile

def file : List (String × TokenEntry) :=
  [("payments", ⟨"s1", ["payments"], "rw"⟩), ("reporting", ⟨"s2", ["*"], "ro"⟩)]

def fromToml (_ : String) : Except String (List (String × TokenEntry)) :=
  .ok file

def entries : List (String × TokenScope) :=
  [("s1", ⟨"payments", .named ["payments"].toFinset, .readWrite⟩),
    ("s2", ⟨"reporting", .all, .readOnly⟩)]

theorem parseTokens_file : parseTokens fromToml "" = .ok entries := by
  decide

theorem entries_ne_nil : entries ≠ [] := by
  decide

def lookup : Served :=
  serve ⟨entries⟩ 500 (some "bearer  s1") (.getTrialBalance "payments" none)

theorem asked_lookup : lookup.asked BatchRun.answer = [.trialBalance "payments" none] := by
  have hbearer : requireBearer ⟨entries⟩ (some "bearer  s1") =
      .ok ⟨"payments", .named ["payments"].toFinset, .readWrite⟩ := by decide
  rw [lookup, serve, hbearer]
  rfl

/-- A scheme in lower case, two spaces, and the secret of the first entry. -/
theorem calls_are_granted_payments :
    lookup.asked BatchRun.answer = [.trialBalance "payments" none] ∧
      ∃ entry ∈ file, (∃ shown, some "bearer  s1" = some shown ∧ Shows shown entry.2.token) ∧
        ∀ call ∈ lookup.asked BatchRun.answer, entry.2.Allows call := by
  obtain ⟨found, hfile, hgranted⟩ :=
    calls_are_granted fromToml "" entries parseTokens_file entries_ne_nil
  obtain rfl := Except.ok.inj hfile
  refine ⟨asked_lookup, ?_⟩
  rcases hgranted 500 (some "bearer  s1") (.getTrialBalance "payments" none) BatchRun.answer with
    ⟨entry, hentry, hshown, hcalls, -⟩ | ⟨-, hnone, -⟩
  · exact ⟨entry, hentry, hshown, hcalls⟩
  · have hnil := asked_lookup.symm.trans hnone
    cases hnil

end TokensFile

end Talea.Server
