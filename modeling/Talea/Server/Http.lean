import Talea.Core.Wire

/-!
# The server's answers

How errors become responses, and where the event stream of a book starts.  The
JSON writer for errors is a parameter.
-/

namespace Talea.Server

open Service (ApiError)

variable (toJson : ApiError → String)

/-- The status an error is answered with. -/
def statusOf : ApiError → StatusCode
  | .unbalanced .. | .invalidAmount .. | .invalidDraft .. | .assetMismatch .. => .badRequest
  | .unauthorized => .unauthorized
  | .forbidden .. => .forbidden
  | .overloaded => .tooManyRequests
  | .timeout => .requestTimeout
  | .unknownAsset .. | .unknownAccount .. | .notFound .. => .notFound
  | .alreadyExists .. | .constraintViolation .. => .conflict
  | .transport .. => .internalServerError
  | .internal .. => .internalServerError

/-- `ApiFailure` as a response. -/
def intoResponse (error : ApiError) : Response :=
  let status := statusOf error
  if status = .tooManyRequests then ⟨status, some "1", toJson error⟩
  else ⟨status, none, toJson error⟩

/-- What the layers in front of the handlers fail with. -/
inductive BoxError
  | overloaded
  | elapsed
  | other (message : String)

def handleMiddlewareError : BoxError → Response
  | .overloaded => ⟨.serviceUnavailable, some "1", toJson .overloaded⟩
  | .elapsed => ⟨.requestTimeout, none, toJson .timeout⟩
  | .other _ => ⟨.internalServerError, none, toJson (.internal "middleware failure")⟩

/-- The first event that `events` asks the store for: the one behind the last
one seen, where the header wins over the query. -/
def startOf (lastEventId fromQuery : Option Int) : Int :=
  let lastSeen := lastEventId.or fromQuery
  (lastSeen.map fun seq => seq + 1).getD 1

end Talea.Server
