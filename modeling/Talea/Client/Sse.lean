import Talea.Lib.Steps
import Talea.Core.Wire

/-!
# The client's subscription

`subscribe` of the client makes one stream of events out of as many connections
as it takes.  Its loop is a state machine: each event of the model is what one
`await` gives, a sent request or the next frame of an open stream.  The pauses
between two attempts change nothing and are left out.
-/

namespace Talea.Client

open Service (ApiError)

/-- What the client leaves to its libraries: how a status is printed, and how
JSON is read. -/
structure Library where
  display : StatusCode → String
  parseError : String → Option ApiError
  parseEnvelope : String → Except String EventEnvelope

/-- The bound on attempts; the delays of the policy decide nothing here. -/
structure RetryPolicy where
  maxAttempts : ℕ

/-- Statuses that `send_with_retry` tries again. -/
def isRetryable (status : StatusCode) : Bool :=
  decide (status = .serviceUnavailable ∨ status = .requestTimeout ∨ status = .tooManyRequests)

/-- The error behind a status and a body: the body's own where it is one, else
one made up from the status. -/
def decodeError (lib : Library) (status : StatusCode) (body : String) : ApiError :=
  match lib.parseError body with
  | some api => api
  | none =>
      let excerpt := String.ofList (body.toList.take 200)
      if status = .unauthorized then .unauthorized
      else if status = .serviceUnavailable ∨ status = .requestTimeout ∨ status.isServerError then
        .transport (lib.display status ++ ": " ++ excerpt)
      else if status.isClientError then
        .invalidDraft "request" (lib.display status ++ ": " ++ excerpt)
      else .transport ("unexpected status " ++ lib.display status ++ ": " ++ excerpt)

def isTransport : ApiError → Bool
  | .transport _ => true
  | _ => false

/-- Where the loop waits: for the answer to a request, or for the next frame. -/
inductive Phase
  | connecting
  | reading
  | ended
  deriving DecidableEq

/-- The stream's variables, and the items it has yielded so far. -/
structure Subscription where
  cursor : Option Int
  failures : ℕ
  phase : Phase
  yielded : List (Except ApiError EventEnvelope)

/-- What an `await` of the loop gives. -/
inductive Event
  | sendFailed (message : String)
  | responded (status : StatusCode) (body : String)
  | frame (ev : SseEvent)
  | dropped (message : String)
  | closed
  deriving DecidableEq

def Subscription.fresh : Subscription :=
  ⟨none, 0, .connecting, []⟩

def Subscription.tell (sub : Subscription) (items : List (Except ApiError EventEnvelope)) :
    Subscription :=
  { sub with yielded := sub.yielded ++ items }

/-- One more failure: at the policy's bound the stream ends with a last word,
below it the loop connects again. -/
def Subscription.failed (policy : RetryPolicy) (sub : Subscription)
    (farewell : ℕ → List (Except ApiError EventEnvelope)) : Subscription :=
  let failures := sub.failures + 1
  if policy.maxAttempts ≤ failures then
    { sub with failures, phase := .ended }.tell (farewell failures)
  else { sub with failures, phase := .connecting }

/-- A response that is not a success: its error is yielded, and only a
transport error is worth another attempt. -/
def Subscription.rejected (policy : RetryPolicy) (sub : Subscription) (error : ApiError) :
    Subscription :=
  let told := sub.tell [.error error]
  if isTransport error then told.failed policy fun _ => []
  else { told with phase := .ended }

/-- A frame of the open stream.  An error frame is passed on, and so is an
event, which moves the cursor. -/
def Subscription.framed (lib : Library) (sub : Subscription) (ev : SseEvent) : Subscription :=
  if ev.event = "error" then
    sub.tell [.error ((lib.parseError ev.data).getD (.internal ev.data))]
  else
    match lib.parseEnvelope ev.data with
    | .ok env => { sub with cursor := some env.seq, failures := 0 }.tell [.ok env]
    | .error e => sub.tell [.error (.transport s!"undecodable event: {e}")]

/-- One turn of the loop. -/
def step (policy : RetryPolicy) (lib : Library) (sub : Subscription) (event : Event) :
    Option Subscription :=
  match sub.phase, event with
  | .connecting, .sendFailed e =>
      some (sub.failed policy fun failures =>
        [.error (.transport s!"subscribe failed after {failures} attempts: {e}")])
  | .connecting, .responded status body =>
      if status.isSuccess then some { sub with phase := .reading }
      else some (sub.rejected policy (decodeError lib status body))
  | .reading, .frame ev => some (sub.framed lib ev)
  | .reading, .dropped e =>
      some (sub.failed policy fun failures =>
        [.error (.transport s!"subscribe stream failed after {failures} attempts: {e}")])
  | .reading, .closed =>
      some (sub.failed policy fun failures =>
        [.error (.transport s!"subscribe stream closed {failures} times")])
  | _, _ => none

/-! ## What a turn does -/

/-- The events among the items. -/
def Subscription.received (sub : Subscription) : List EventEnvelope :=
  sub.yielded.filterMap Except.toOption

/-- The connection ends, or does not come about, without an answer of the server. -/
def Event.isFailure : Event → Bool
  | .sendFailed _ | .dropped _ | .closed => true
  | .responded _ _ | .frame _ => false

/-- The turns the loop can take. -/
inductive Turn (policy : RetryPolicy) (lib : Library) (sub : Subscription) :
    Event → Subscription → Prop
  | failed (event : Event) (farewell : ℕ → List (Except ApiError EventEnvelope))
      (hfailure : event.isFailure = true)
      (herrors : ∀ failures, (farewell failures).filterMap Except.toOption = []) :
      Turn policy lib sub event (sub.failed policy farewell)
  | opened (status : StatusCode) (body : String) (hphase : sub.phase = .connecting)
      (hsuccess : status.isSuccess = true) :
      Turn policy lib sub (.responded status body) { sub with phase := .reading }
  | rejected (status : StatusCode) (body : String) (hphase : sub.phase = .connecting)
      (hsuccess : status.isSuccess = false) :
      Turn policy lib sub (.responded status body)
        (sub.rejected policy (decodeError lib status body))
  | frame (ev : SseEvent) (hphase : sub.phase = .reading) :
      Turn policy lib sub (.frame ev) (sub.framed lib ev)

section Turn

variable {policy : RetryPolicy} {lib : Library} {sub next : Subscription} {event : Event}

theorem turn_of_step (hstep : step policy lib sub event = some next) :
    Turn policy lib sub event next := by
  unfold step at hstep
  split at hstep
  · cases hstep
    exact .failed _ _ rfl fun _ => rfl
  · next status body hphase =>
      cases hsuccess : status.isSuccess with
      | true =>
          rw [hsuccess, if_pos rfl] at hstep
          cases hstep
          exact .opened status body hphase hsuccess
      | false =>
          rw [hsuccess, if_neg Bool.false_ne_true] at hstep
          cases hstep
          exact .rejected status body hphase hsuccess
  · next ev hphase =>
      cases hstep
      exact .frame ev hphase
  · cases hstep
    exact .failed _ _ rfl fun _ => rfl
  · cases hstep
    exact .failed _ _ rfl fun _ => rfl
  · cases hstep

/-- A stream that has ended takes no further turn. -/
theorem step_ended (hphase : sub.phase = .ended) : step policy lib sub event = none := by
  unfold step
  rw [hphase]

theorem received_tell (items : List (Except ApiError EventEnvelope)) :
    (sub.tell items).received = sub.received ++ items.filterMap Except.toOption :=
  List.filterMap_append

variable (farewell : ℕ → List (Except ApiError EventEnvelope))

@[simp]
theorem cursor_failed : (sub.failed policy farewell).cursor = sub.cursor := by
  unfold Subscription.failed
  dsimp only
  split <;> rfl

@[simp]
theorem failures_failed : (sub.failed policy farewell).failures = sub.failures + 1 := by
  unfold Subscription.failed
  dsimp only
  split <;> rfl

theorem phase_failed : (sub.failed policy farewell).phase =
    if policy.maxAttempts ≤ sub.failures + 1 then .ended else .connecting := by
  unfold Subscription.failed
  dsimp only
  split <;> rfl

theorem received_failed
    (herrors : ∀ failures, (farewell failures).filterMap Except.toOption = []) :
    (sub.failed policy farewell).received = sub.received := by
  unfold Subscription.failed
  dsimp only
  split
  · rw [received_tell, herrors, List.append_nil]
    rfl
  · rfl

variable (error : ApiError)

@[simp]
theorem cursor_rejected : (sub.rejected policy error).cursor = sub.cursor := by
  unfold Subscription.rejected
  dsimp only
  split
  · exact cursor_failed _
  · rfl

theorem received_rejected : (sub.rejected policy error).received = sub.received := by
  have htold : (sub.tell [.error error]).received = sub.received :=
    (received_tell _).trans (List.append_nil _)
  unfold Subscription.rejected
  dsimp only
  split
  · exact (received_failed _ fun _ => rfl).trans htold
  · exact htold

theorem framed_error {ev : SseEvent} (herror : ev.event = "error") :
    (sub.framed lib ev).cursor = sub.cursor ∧ (sub.framed lib ev).received = sub.received := by
  unfold Subscription.framed
  rw [if_pos herror]
  exact ⟨rfl, (received_tell _).trans (List.append_nil _)⟩

theorem framed_ok {ev : SseEvent} {env : EventEnvelope} (hdata : ev.event ≠ "error")
    (hparse : lib.parseEnvelope ev.data = .ok env) :
    sub.framed lib ev = { sub with cursor := some env.seq, failures := 0 }.tell [.ok env] := by
  unfold Subscription.framed
  rw [if_neg hdata, hparse]

end Turn

end Talea.Client
