import Talea.Lib.Traces
import Talea.Server.Auth
import Talea.Server.Http
import Talea.Service.Reads

/-!
# The handlers

A request passes the token check, is decoded, and reaches one handler; a handler
looks at the scope of the token and calls the service.  Each is a program over
the calls of the service, so that what it calls can be told apart from what it
answers.
-/

namespace Talea.Server

open Service

/-- The calls of the service's interface. -/
inductive ServiceCall
  | registerAsset (draft : AssetDraft)
  | openAccount (draft : AccountDraft)
  | post (draft : TransactionDraft)
  | postBatch (drafts : List TransactionDraft)
  | balance (book path : String) (asOf : Option ℤ)
  | accountHistory (book path : String) (page : Page)
  | transaction (txId : String)
  | trialBalance (book : String) (asOf : Option ℤ)
  | subscribe (book : String) (fromSeq : ℤ)

/-- A subscription is answered with the stream from some seq on. -/
structure EventStream where
  book : String
  fromSeq : ℤ

def ServiceReply : ServiceCall → Type
  | .registerAsset _ | .openAccount _ => Except ApiError Unit
  | .post _ => Except ApiError Posted
  | .postBatch _ => List (Except ApiError Posted)
  | .balance _ _ _ => Except ApiError BalanceView
  | .accountHistory _ _ _ => Except ApiError (Paged PostingView)
  | .transaction _ => Except ApiError TransactionView
  | .trialBalance _ _ => Except ApiError TrialBalanceView
  | .subscribe _ _ => Except ApiError EventStream

abbrev Handler (α : Type) :=
  Program ServiceCall ServiceReply (Except ApiError α)

/-- Refused for a book; `*` stands for the registry. -/
def forbid (book : String) : ApiError :=
  .forbidden book

section Handlers

variable (scope : TokenScope)

/-- A handler that makes one call, if the scope allows it. -/
def guarded {α : Type} (allowed : Bool) (book : String) (program : Handler α) : Handler α :=
  if !allowed then .done (.error (forbid book)) else program

def registerAsset (draft : AssetDraft) : Handler Unit :=
  guarded scope.allowsRegistry "*" (.send (ServiceCall.registerAsset draft))

def openAccount (draft : AccountDraft) : Handler Unit :=
  guarded (scope.allowsWrite draft.book) draft.book (.send (ServiceCall.openAccount draft))

def postTransaction (draft : TransactionDraft) : Handler Posted :=
  guarded (scope.allowsWrite draft.book) draft.book (.send (ServiceCall.post draft))

/-- The slots of a batch and the drafts to submit, with their places. -/
abbrev Partition := List (Option BatchItem) × List (ℕ × TransactionDraft)

/-- One turn of the loop over the drafts: one out of scope gets its slot at
once. -/
def partitionDraft (state : Partition) (item : TransactionDraft × ℕ) : Partition :=
  if !scope.allowsWrite item.1.book then
    (state.1.set item.2 (some (.err (.forbidden item.1.book))), state.2)
  else (state.1, state.2 ++ [(item.2, item.1)])

def batchItem : Except ApiError Posted → BatchItem
  | .ok posted => .ok posted
  | .error error => .err error

/-- The answers of the store, each into the slot of its draft. -/
def fillSlots (slots : List (Option BatchItem)) (inScope : List (ℕ × TransactionDraft))
    (results : List (Except ApiError Posted)) : List (Option BatchItem) :=
  (inScope.zip results).foldl (fun slots answer => slots.set answer.1.1 (some (batchItem answer.2)))
    slots

def unresolved : BatchItem :=
  .err (.transport "internal: batch slot left unresolved by the store")

def batchTooLong (length batchMax : ℕ) : ApiError :=
  .invalidDraft "body"
    ("batch length " ++ toString length ++ " exceeds cap " ++ toString batchMax ++
      " (TALEA_HTTP_BATCH_MAX)")

def postBatchTransactions (batchMax : ℕ) (drafts : List TransactionDraft) :
    Handler (List BatchItem) :=
  if batchMax < drafts.length then .done (.error (batchTooLong drafts.length batchMax))
  else if drafts = [] then .done (.ok [])
  else
    let (slots, inScope) :=
      drafts.zipIdx.foldl (partitionDraft scope) (List.replicate drafts.length none, [])
    if inScope = [] then .done (.ok (slots.map fun slot => slot.getD unresolved))
    else
      .ask (ServiceCall.postBatch (inScope.map Prod.snd)) fun results =>
        .done (.ok ((fillSlots slots inScope results).map fun slot => slot.getD unresolved))

def getBalance (book path : String) (asOf : Option ℤ) : Handler BalanceView :=
  guarded (scope.allowsRead book) book (.send (ServiceCall.balance book path asOf))

def getHistory (book path : String) (afterSeq : Option ℤ) (limit : Option UInt32) :
    Handler (Paged PostingView) :=
  guarded (scope.allowsRead book) book
    (.send (ServiceCall.accountHistory book path ⟨afterSeq, min (limit.getD 100) 1000⟩))

/-- A transaction out of scope is answered like one that is not there. -/
def getTransaction (txId : String) : Handler TransactionView :=
  .ask (ServiceCall.transaction txId) fun answer =>
    .done (Except.bind answer fun view =>
      if !scope.allowsRead view.book then .error (.notFound ("transaction " ++ txId)) else .ok view)

def getTrialBalance (book : String) (asOf : Option ℤ) : Handler TrialBalanceView :=
  guarded (scope.allowsRead book) book (.send (ServiceCall.trialBalance book asOf))

def events (book : String) (lastEventId fromQuery : Option ℤ) : Handler EventStream :=
  guarded (scope.allowsRead book) book (.send (ServiceCall.subscribe book (startOf lastEventId fromQuery)))

end Handlers

/-! ## Requests -/

/-- What an extractor refuses a request for. -/
inductive Rejection
  | missingJsonContentType
  | body (text : String)
  | query (text : String)

/-- A request on one of the routes, with its parameters decoded. -/
inductive Request
  | registerAsset (draft : AssetDraft)
  | openAccount (draft : AccountDraft)
  | postTransaction (draft : TransactionDraft)
  | postBatchTransactions (drafts : List TransactionDraft)
  | getBalance (book path : String) (asOf : Option ℤ)
  | getHistory (book path : String) (afterSeq : Option ℤ) (limit : Option UInt32)
  | getTransaction (txId : String)
  | getTrialBalance (book : String) (asOf : Option ℤ)
  | events (book : String) (lastEventId fromQuery : Option ℤ)
  | rejected (rejection : Rejection)

inductive Answer
  | noContent
  | posted (posted : Posted)
  | items (items : List BatchItem)
  | balance (view : BalanceView)
  | history (page : Paged PostingView)
  | transaction (view : TransactionView)
  | trialBalance (view : TrialBalanceView)
  | events (stream : EventStream)

/-- How a request fails: with the status of its error, or, for its content type,
with one of its own. -/
inductive Failure
  | api (error : ApiError)
  | unsupportedMediaType (error : ApiError)

def Rejection.failure : Rejection → Failure
  | .missingJsonContentType =>
      .unsupportedMediaType (.invalidDraft "body" "expected content-type: application/json")
  | .body text => .api (.invalidDraft "body" text)
  | .query text => .api (.invalidDraft "query" text)

abbrev Served := Program ServiceCall ServiceReply (Except Failure Answer)

/-- The answer of a handler. -/
def answering {α : Type} (answer : α → Answer) (program : Handler α) : Served :=
  program.bind fun result => .done ((result.map answer).mapError Failure.api)

def handle (scope : TokenScope) (batchMax : ℕ) : Request → Served
  | .registerAsset draft => answering (fun _ => .noContent) (registerAsset scope draft)
  | .openAccount draft => answering (fun _ => .noContent) (openAccount scope draft)
  | .postTransaction draft => answering .posted (postTransaction scope draft)
  | .postBatchTransactions drafts => answering .items (postBatchTransactions scope batchMax drafts)
  | .getBalance book path asOf => answering .balance (getBalance scope book path asOf)
  | .getHistory book path afterSeq limit =>
      answering .history (getHistory scope book path afterSeq limit)
  | .getTransaction txId => answering .transaction (getTransaction scope txId)
  | .getTrialBalance book asOf => answering .trialBalance (getTrialBalance scope book asOf)
  | .events book lastEventId fromQuery =>
      answering .events (events scope book lastEventId fromQuery)
  | .rejected rejection => .done (.error rejection.failure)

/-- A request with its header: the token is checked before anything else. -/
def serve (auth : AuthConfig) (batchMax : ℕ) (authorization : Option String) (request : Request) :
    Served :=
  match requireBearer auth authorization with
  | .error error => .done (.error (.api error))
  | .ok scope => handle scope batchMax request

/-- The response to a request, with the texts that `encode` and `toJson` give. -/
def respond (toJson : ApiError → String) (encode : Answer → String) :
    Except Failure Answer → Response
  | .ok .noContent => ⟨⟨204⟩, none, ""⟩
  | .ok answer => ⟨.ok, none, encode answer⟩
  | .error (.api error) => intoResponse toJson error
  | .error (.unsupportedMediaType error) => ⟨⟨415⟩, none, toJson error⟩

end Talea.Server
