import Talea.Service.Post

/-!
# What goes over the wire

The vocabulary that the server and the client share: statuses, responses, the
events of a stream and the frames that carry them.
-/

namespace Talea

open Service (ApiError)

structure StatusCode where
  code : ℕ
  deriving DecidableEq

namespace StatusCode

def ok : StatusCode := ⟨200⟩
def badRequest : StatusCode := ⟨400⟩
def unauthorized : StatusCode := ⟨401⟩
def forbidden : StatusCode := ⟨403⟩
def notFound : StatusCode := ⟨404⟩
def requestTimeout : StatusCode := ⟨408⟩
def conflict : StatusCode := ⟨409⟩
def tooManyRequests : StatusCode := ⟨429⟩
def internalServerError : StatusCode := ⟨500⟩
def serviceUnavailable : StatusCode := ⟨503⟩

def isSuccess (status : StatusCode) : Bool :=
  decide (200 ≤ status.code ∧ status.code < 300)

def isClientError (status : StatusCode) : Bool :=
  decide (400 ≤ status.code ∧ status.code < 500)

def isServerError (status : StatusCode) : Bool :=
  decide (500 ≤ status.code ∧ status.code < 600)

end StatusCode

/-- A response whose body is the JSON text of an error. -/
structure Response where
  status : StatusCode
  retryAfter : Option String
  body : String
  deriving DecidableEq

/-- An event as it goes over the wire; the payload is the JSON text of it. -/
structure EventEnvelope where
  seq : Int
  at' : Int
  kind : String
  payload : String
  deriving DecidableEq

/-- One frame of an event stream: its event name and its data. -/
structure SseEvent where
  event : String
  data : String
  deriving DecidableEq

end Talea
