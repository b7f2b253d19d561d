import Talea.Client.Sse
import Talea.Server.Http

/-!
# What ends a subscription

A subscription should end on a response that no retry can help, or when its
budget of failures is used up.  The loop asks the decoded error instead of the
status, and the server sheds with an error envelope, not with plain text: such
an answer ends the stream at once.
-/

namespace Talea.Client

open Service (ApiError)

variable (policy : RetryPolicy) (lib : Library)

/-- The failures in a row, one event later: an event that came in ends the row. -/
def failuresAfter (failures : ℕ) : Event → ℕ
  | .sendFailed _ | .dropped _ | .closed => failures + 1
  | .responded status _ => if status.isSuccess then failures else failures + 1
  | .frame ev =>
      if ev.event = "error" then failures
      else
        match lib.parseEnvelope ev.data with
        | .ok _ => 0
        | .error _ => failures

/-- How many failures the events end with, with no event received in between. -/
def consecutiveFailures (events : List Event) : ℕ :=
  events.foldl (failuresAfter lib) 0

/-- If the stream has ended, it was on a response that is not to be retried, or
after as many failures in a row as the policy allows. -/
def EndsRightly (events : List Event) (final : Subscription) : Prop :=
  final.phase = .ended →
    (∃ status body, events.getLast? = some (.responded status body) ∧
      isRetryable status = false) ∨
    policy.maxAttempts ≤ consecutiveFailures lib events

/-- A response to be retried decodes to a transport error, or uses up the
budget anyway. -/
def Survivable (sub : Subscription) (event : Event) : Prop :=
  match event with
  | .responded status body => isRetryable status = true →
      isTransport (decodeError lib status body) = true ∨ policy.maxAttempts ≤ sub.failures + 1
  | _ => True

instance (sub : Subscription) : ∀ event, Decidable (Survivable policy lib sub event)
  | .responded status body => inferInstanceAs (Decidable (isRetryable status = true →
      isTransport (decodeError lib status body) = true ∨ policy.maxAttempts ≤ sub.failures + 1))
  | .sendFailed _ | .frame _ | .dropped _ | .closed => isTrue trivial

section Ends

variable {policy : RetryPolicy} {lib : Library} {sub next final : Subscription} {event : Event}
  {events : List Event}

theorem consecutiveFailures_concat :
    consecutiveFailures lib (events ++ [event]) =
      failuresAfter lib (consecutiveFailures lib events) event :=
  List.foldl_concat _ _ _ _

theorem not_isSuccess_of_isRetryable {status : StatusCode} (hretryable : isRetryable status = true) :
    status.isSuccess = false := by
  rcases of_decide_eq_true hretryable with rfl | rfl | rfl <;> rfl

/-- As long as the stream goes on, its counter counts the failures in a row. -/
theorem failures_step (hstep : step policy lib sub event = some next) (halive : next.phase ≠ .ended) :
    next.failures = failuresAfter lib sub.failures event := by
  cases turn_of_step hstep with
  | failed event farewell hfailure herrors =>
      rw [failures_failed]
      cases event <;> first | rfl | cases hfailure
  | opened status body hphase hsuccess =>
      rw [failuresAfter, if_pos hsuccess]
  | rejected status body hphase hsuccess =>
      rw [failuresAfter, hsuccess, if_neg Bool.false_ne_true]
      unfold Subscription.rejected at halive ⊢
      dsimp only at halive ⊢
      split at halive
      · next htransport =>
          rw [if_pos htransport, failures_failed]
          rfl
      · exact absurd rfl halive
  | frame ev hphase =>
      unfold Subscription.framed
      rw [failuresAfter]
      by_cases herror : ev.event = "error"
      · rw [if_pos herror, if_pos herror]
        rfl
      · rw [if_neg herror, if_neg herror]
        cases lib.parseEnvelope ev.data <;> rfl

theorem alive_of_step (hstep : step policy lib sub event = some next) : sub.phase ≠ .ended := by
  intro hended
  rw [step_ended hended] at hstep
  cases hstep

theorem failures_run (hexec : execSteps (step policy lib) .fresh events = some final)
    (halive : final.phase ≠ .ended) : final.failures = consecutiveFailures lib events := by
  induction events using List.reverseRecOn generalizing final with
  | nil =>
      cases hexec
      rfl
  | append_singleton events event ih =>
      obtain ⟨mid, hmid, hfinal⟩ := execSteps_concat.1 hexec
      rw [consecutiveFailures_concat, ← ih hmid (alive_of_step hfinal)]
      exact failures_step hfinal halive

/-- A turn out of a stream that counts right ends it rightly exactly when its
response is survivable. -/
theorem endsRightly_step_iff (hstep : step policy lib sub event = some next)
    (hfailures : sub.failures = consecutiveFailures lib events) :
    EndsRightly policy lib (events ++ [event]) next ↔ Survivable policy lib sub event := by
  have hlast : (events ++ [event]).getLast? = some event := List.getLast?_concat
  unfold EndsRightly
  rw [hlast, consecutiveFailures_concat, ← hfailures]
  cases turn_of_step hstep with
  | failed event farewell hfailure herrors =>
      have hcount : failuresAfter lib sub.failures event = sub.failures + 1 := by
        cases event <;> first | rfl | cases hfailure
      have hsurvivable : Survivable policy lib sub event := by
        cases event <;> trivial
      refine ⟨fun _ => hsurvivable, fun _ hended => Or.inr ?_⟩
      rw [phase_failed] at hended
      rw [hcount]
      by_contra hbelow
      rw [if_neg hbelow] at hended
      cases hended
  | opened status body hphase hsuccess =>
      refine ⟨fun _ hretryable => ?_, fun _ => nofun⟩
      rw [not_isSuccess_of_isRetryable hretryable] at hsuccess
      cases hsuccess
  | rejected status body hphase hsuccess =>
      have hcount : failuresAfter lib sub.failures (.responded status body) = sub.failures + 1 := by
        rw [failuresAfter, hsuccess]
        rfl
      rw [hcount]
      unfold Survivable Subscription.rejected
      dsimp only
      cases htransport : isTransport (decodeError lib status body) with
      | true =>
          rw [if_pos rfl, phase_failed]
          refine ⟨fun _ _ => Or.inl rfl, fun _ hended => Or.inr ?_⟩
          by_contra hbelow
          exact nomatch (if_neg hbelow).symm.trans hended
      | false =>
          rw [if_neg Bool.false_ne_true]
          constructor
          · intro hends hretryable
            rcases hends rfl with ⟨status', body', heq, hnot⟩ | hbound
            · cases heq
              rw [hretryable] at hnot
              cases hnot
            · exact Or.inr hbound
          · intro hsurvivable _
            cases hretryable : isRetryable status with
            | false => exact Or.inl ⟨status, body, rfl, hretryable⟩
            | true =>
                exact Or.inr ((hsurvivable hretryable).resolve_left Bool.false_ne_true)
  | frame ev hphase =>
      refine ⟨fun _ => trivial, fun _ hended => ?_⟩
      have hreading : (sub.framed lib ev).phase = .reading := by
        unfold Subscription.framed
        split
        · exact hphase
        · split <;> exact hphase
      rw [hreading] at hended
      cases hended

end Ends

/-- A subscription ends rightly exactly when every response on its way that is
to be retried decodes to a transport error or comes as the last failure that
the policy allows. -/
theorem endsRightly_iff_survivable (events : List Event) (final : Subscription)
    (hexec : execSteps (step policy lib) .fresh events = some final) :
    EndsRightly policy lib events final ↔
      StepsMeet (step policy lib) (Survivable policy lib) .fresh events := by
  induction events using List.reverseRecOn generalizing final with
  | nil =>
      cases hexec
      exact ⟨fun _ => trivial, fun _ => nofun⟩
  | append_singleton events event ih =>
      obtain ⟨mid, hmid, hfinal⟩ := execSteps_concat.1 hexec
      have halive := alive_of_step hfinal
      have hmeets := (ih mid hmid).1 fun hended => absurd hended halive
      rw [stepsMeet_concat hmid, endsRightly_step_iff hfinal (failures_run hmid halive)]
      exact ⟨fun h => ⟨hmeets, h⟩, fun h => h.2⟩

/-- A JSON writer and reader that agree on the error of a shed request. -/
def shedJson : ApiError → String
  | .overloaded => "\x7b\"error\":\"overloaded\"\x7d"
  | .timeout => "\x7b\"error\":\"timeout\"\x7d"
  | .unauthorized => "\x7b\"error\":\"unauthorized\"\x7d"
  | _ => ""

def shedLibrary : Library where
  display status := toString status.code
  parseError body := [ApiError.overloaded, .timeout, .unauthorized].find? fun error =>
    shedJson error = body
  parseEnvelope _ := .error "expected value at line 1 column 1"

theorem endsRightly_iff_survivable_closed :
    let events := [Event.responded .ok "", .closed, .sendFailed "connection refused",
      .sendFailed "connection refused"]
    ∃ final, execSteps (step ⟨3⟩ shedLibrary) .fresh events = some final ∧
      final.phase = .ended ∧ EndsRightly ⟨3⟩ shedLibrary events final := by
  intro events
  have hmeets : StepsMeet (step ⟨3⟩ shedLibrary) (Survivable ⟨3⟩ shedLibrary) .fresh events := by
    decide +kernel
  exact ⟨_, rfl, rfl, (endsRightly_iff_survivable ⟨3⟩ shedLibrary events _ rfl).2 hmeets⟩

/-- The first 503 of the load shedder ends a subscription that has two more
attempts. -/
theorem endsRightly_fails_shed :
    let shed := Server.handleMiddlewareError shedJson .overloaded
    let events := [Event.responded shed.status shed.body]
    ∃ final, execSteps (step ⟨3⟩ shedLibrary) .fresh events = some final ∧
      ¬ EndsRightly ⟨3⟩ shedLibrary events final := by
  refine ⟨_, rfl, fun hends => ?_⟩
  rcases hends rfl with ⟨status, body, hlast, hnot⟩ | hbound
  · cases hlast
    cases hnot
  · exact absurd hbound (by decide)

/-! ## The server's sheds -/

/-- No response of the server with a status to be retried reads as a transport
error, so none is survivable before the budget runs out. -/
theorem survivable_response_iff (toJson : ApiError → String) (sub : Subscription)
    (hparse : ∀ error, lib.parseError (toJson error) = some error) {response : Response}
    (hserver : (∃ error, response = Server.intoResponse toJson error) ∨
      ∃ error, response = Server.handleMiddlewareError toJson error) :
    Survivable policy lib sub (.responded response.status response.body) ↔
      (isRetryable response.status = true → policy.maxAttempts ≤ sub.failures + 1) := by
  have hdecode : ∀ status error, decodeError lib status (toJson error) = error := by
    intro status error
    rw [decodeError, hparse]
  suffices hnot : isRetryable response.status = true →
      isTransport (decodeError lib response.status response.body) = false by
    refine forall_congr' fun hretryable => ?_
    rw [hnot hretryable]
    simp
  rcases hserver with ⟨error, rfl⟩ | ⟨error, rfl⟩
  · intro hretryable
    have hbody : (Server.intoResponse toJson error).body = toJson error := by
      rw [Server.intoResponse]
      split <;> rfl
    have hstatus : (Server.intoResponse toJson error).status = Server.statusOf error := by
      rw [Server.intoResponse]
      split <;> rfl
    rw [hbody, hdecode]
    rw [hstatus] at hretryable
    cases error <;> first | rfl | cases hretryable
  · intro _
    cases error <;> exact congrArg isTransport (hdecode _ _)

end Talea.Client
