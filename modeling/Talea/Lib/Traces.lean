import Talea.Lib.Sessions

/-!
# What a program asks

Run against a server that answers every request by itself, a program has a
value, and asks a list of requests on its way.  What holds of every request that
it can ask, whatever the answers are, holds of those it asks.
-/

namespace Talea.Program

variable {ρ : Type} {reply : ρ → Type} {α β : Type}

/-- The value of a program, with an answer for every request. -/
def run (answer : (request : ρ) → reply request) : Program ρ reply α → α
  | done value => value
  | ask request next => (next (answer request)).run answer

/-- The requests on the way, in order. -/
def asked (answer : (request : ρ) → reply request) : Program ρ reply α → List ρ
  | done _ => []
  | ask request next => request :: (next (answer request)).asked answer

/-- Whatever the answers are, the program asks nothing else. -/
def Only (allowed : ρ → Prop) : Program ρ reply α → Prop
  | done _ => True
  | ask request next => allowed request ∧ ∀ answer, (next answer).Only allowed

theorem Only.asked {allowed : ρ → Prop} {program : Program ρ reply α} (honly : program.Only allowed)
    (answer : (request : ρ) → reply request) :
    ∀ request ∈ program.asked answer, allowed request := by
  induction program with
  | done value => exact List.forall_mem_nil _
  | ask request next ih =>
      exact List.forall_mem_cons.2 ⟨honly.1, ih _ (honly.2 _)⟩

theorem run_bind (answer : (request : ρ) → reply request) (program : Program ρ reply α)
    (next : α → Program ρ reply β) :
    (program.bind next).run answer = (next (program.run answer)).run answer := by
  induction program with
  | done value => rfl
  | ask request first ih => exact ih _

theorem asked_bind (answer : (request : ρ) → reply request) (program : Program ρ reply α)
    (next : α → Program ρ reply β) :
    (program.bind next).asked answer =
      program.asked answer ++ (next (program.run answer)).asked answer := by
  induction program with
  | done value => rfl
  | ask request first ih => exact congrArg (request :: ·) (ih _)

theorem Only.bind {allowed : ρ → Prop} {program : Program ρ reply α} (honly : program.Only allowed)
    {next : α → Program ρ reply β} (hnext : ∀ value, (next value).Only allowed) :
    (program.bind next).Only allowed := by
  induction program with
  | done value => exact hnext value
  | ask request first ih => exact ⟨honly.1, fun answer => ih answer (honly.2 answer)⟩

end Talea.Program
