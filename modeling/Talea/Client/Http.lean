import Talea.Client.Sse
import Talea.Core.WireJson

/-!
# Requests of the client

A request is sent until an answer comes that is not to be retried, or until the
attempts are used up.  The pauses in between change nothing and are left out.
-/

namespace Talea.Client

open Service (ApiError)

/-- An answer, whose body may break off. -/
structure Received where
  status : StatusCode
  body : Except String String

/-- What one attempt to send gives. -/
inductive Attempt
  | received (response : Received)
  | failed (message : String)

/-- What the client leaves to its libraries: the text of a status, and what is
wrong with a body that cannot be decoded. -/
structure Texts where
  display : StatusCode → String
  undecodable : String → String

/-- The reader of errors, with the reader of events left out. -/
def Texts.library (texts : Texts) : Library where
  display := texts.display
  parseError body := (Json.parse body).bind ApiError.fromJson
  parseEnvelope body := .error (texts.undecodable body)

/-- The attempts from number `attempt` on, `more` behind it. -/
def attempts (send : ℕ → Attempt) : ℕ → ℕ → Except ApiError Received
  | more, attempt =>
      match send attempt, more with
      | .received response, 0 => .ok response
      | .received response, more + 1 =>
          if isRetryable response.status then attempts send more (attempt + 1) else .ok response
      | .failed e, 0 =>
          .error (.transport s!"request failed after {attempt + 1} attempts: {e}")
      | .failed _, more + 1 => attempts send more (attempt + 1)

/-- At least one attempt is made. -/
def sendWithRetry (policy : RetryPolicy) (send : ℕ → Attempt) : Except ApiError Received :=
  attempts send (policy.maxAttempts - 1) 0

section Execute

variable (texts : Texts) (policy : RetryPolicy) (send : ℕ → Attempt)

/-- A request whose answer has a body to decode. -/
def execute {α : Type} (decode : Json → Option α) : Except ApiError α := do
  let response ← sendWithRetry policy send
  let body ← response.body.mapError fun e => .transport ("reading response body: " ++ e)
  if response.status.isSuccess then
    match (Json.parse body).bind decode with
    | some value => .ok value
    | none => .error (.transport ("decoding response body: " ++ texts.undecodable body))
  else .error (decodeError texts.library response.status body)

/-- A request whose success has no body; the body of an error that breaks off
counts as empty. -/
def executeUnit : Except ApiError Unit := do
  let response ← sendWithRetry policy send
  if response.status.isSuccess then .ok ()
  else
    let body :=
      match response.body with
      | .ok body => body
      | .error _ => ""
    .error (decodeError texts.library response.status body)

/-- The outcome of one slot. -/
def itemResult : BatchItem → Except ApiError Posted
  | .ok posted => .ok posted
  | .err error => .error error

/-- The answers to a batch of `n` drafts; what fails as a whole fails in every
slot. -/
def executeBatch (n : ℕ) : List (Except ApiError Posted) :=
  match sendWithRetry policy send with
  | .error e => List.replicate n (.error e)
  | .ok response =>
      match response.body with
      | .error e =>
          List.replicate n (.error (.transport ("reading batch response body: " ++ e)))
      | .ok body =>
          if response.status.isSuccess then
            match (Json.parse body).bind BatchItem.listFromJson with
            | none =>
                List.replicate n
                  (.error (.transport ("decoding batch response: " ++ texts.undecodable body)))
            | some items => items.map itemResult
          else List.replicate n (.error (decodeError texts.library response.status body))

end Execute

/-- A batch is decoded slot by slot from the server's array. -/
theorem executeBatch_items {texts : Texts} {policy : RetryPolicy} {send : ℕ → Attempt}
    {items : List BatchItem} (hfits : ∀ item ∈ items, item.FitsI64)
    (hsend : sendWithRetry policy send = .ok ⟨.ok, .ok (BatchItem.listToJson items).text⟩) (n : ℕ) :
    executeBatch texts policy send n = items.map itemResult := by
  have hok : StatusCode.ok.isSuccess = true := rfl
  unfold executeBatch
  rw [hsend]
  dsimp only
  rw [if_pos hok, Json.parse_text, Option.bind_some, BatchItem.listFromJson_listToJson hfits]

end Talea.Client
