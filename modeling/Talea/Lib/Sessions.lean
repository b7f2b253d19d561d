import Mathlib.Logic.Relation
import Talea.Lib.Places
import Talea.Lib.Steps

/-!
# Sessions on one server

A program sends one request after the other, and goes on with the answers.  A
server answers from what all sessions share and what the session holds for
itself; a request waits while what the session would hold clashes with what
another one holds.  The rule for such systems is rely and guarantee: a program
is safe when it keeps the invariant and ends as it should, whatever sessions
that it does not clash with do between its requests.
-/

namespace Talea

/-- A program that sends requests and ends with a value. -/
inductive Program (ρ : Type) (reply : ρ → Type) (α : Type)
  | done (value : α)
  | ask (request : ρ) (next : reply request → Program ρ reply α)

namespace Program

variable {ρ : Type} {reply : ρ → Type} {α β : Type}

def bind : Program ρ reply α → (α → Program ρ reply β) → Program ρ reply β
  | done value, next => next value
  | ask request first, next => ask request fun answer => (first answer).bind next

instance : Monad (Program ρ reply) where
  pure := done
  bind := bind

/-- Send a request, and end with the answer. -/
def send (request : ρ) : Program ρ reply (reply request) :=
  ask request done

end Program

/-- How requests are answered, which holdings do not clash, and what may happen
to the shared state by itself. -/
structure Server (ρ : Type) (reply : ρ → Type) (σ τ δ : Type) where
  exec : σ → τ → (request : ρ) → reply request × σ × τ
  Apart : τ → τ → Prop
  decApart : ∀ own other, Decidable (Apart own other)
  symm : ∀ own other, Apart own other → Apart other own
  idle : τ
  idle_apart : ∀ other, Apart idle other
  drift : δ → σ → σ

/-- A call with what its session holds and what is left of its program. -/
structure Session (κ ρ : Type) (reply : ρ → Type) (α τ : Type) where
  call : κ
  own : τ
  program : Program ρ reply α

structure World (κ ρ : Type) (reply : ρ → Type) (α σ τ : Type) where
  shared : σ
  sessions : List (Session κ ρ reply α τ)

inductive WorldEvent (κ δ : Type)
  | start (call : κ)
  | exec (index : ℕ)
  | drift (change : δ)

section Semantics

variable {κ ρ : Type} {reply : ρ → Type} {α β σ τ δ : Type}

/-- No session but the one at `index` clashes with a holding. -/
def World.Free (server : Server ρ reply σ τ δ) (world : World κ ρ reply α σ τ) (index : ℕ)
    (own : τ) : Prop :=
  ∀ other ∈ List.range world.sessions.length, other ≠ index →
    ∀ session ∈ world.sessions[other]?, server.Apart own session.own

instance (server : Server ρ reply σ τ δ) (world : World κ ρ reply α σ τ) (index : ℕ) (own : τ) :
    Decidable (world.Free server index own) :=
  letI := server.decApart
  inferInstanceAs (Decidable (∀ other ∈ List.range world.sessions.length, other ≠ index →
    ∀ session ∈ world.sessions[other]?, server.Apart own session.own))

/-- A call starts, a session gets the answer to its next request, or the shared
state drifts. -/
def World.step (server : Server ρ reply σ τ δ) (program : κ → Program ρ reply α)
    (world : World κ ρ reply α σ τ) : WorldEvent κ δ → Option (World κ ρ reply α σ τ)
  | .start call =>
      some { world with sessions := world.sessions ++ [⟨call, server.idle, program call⟩] }
  | .drift change => some { world with shared := server.drift change world.shared }
  | .exec index =>
      match world.sessions[index]? with
      | some ⟨call, own, .ask request next⟩ =>
          let (answer, shared, own') := server.exec world.shared own request
          if world.Free server index own' then
            some ⟨shared, world.sessions.set index ⟨call, own', next answer⟩⟩
          else none
      | _ => none

/-- What is kept, of the shared state and of every holding, and what calls that
start and requests are assumed to meet. -/
structure Contract (κ ρ σ τ : Type) where
  Inv : σ → Prop
  Own : τ → Prop
  Starts : σ → κ → Prop
  Cond : σ → τ → ρ → Prop

/-- The call or the request of a step meets the contract's condition. -/
def World.Meets (contract : Contract κ ρ σ τ) (world : World κ ρ reply α σ τ) :
    WorldEvent κ δ → Prop
  | .start call => contract.Starts world.shared call
  | .exec index =>
      match world.sessions[index]? with
      | some ⟨_, own, .ask request _⟩ => contract.Cond world.shared own request
      | _ => True
  | .drift _ => True

variable (server : Server ρ reply σ τ δ) (contract : Contract κ ρ σ τ)

/-- One step of the others next to a session. -/
inductive Moves (own : τ) (shared : σ) : σ → Prop
  | exec (other : τ) (request : ρ) (hapart : server.Apart own other) (hown : contract.Own other)
      (hinv : contract.Inv (server.exec shared other request).2.1) :
      Moves own shared (server.exec shared other request).2.1
  | drift (change : δ) (hinv : contract.Inv (server.drift change shared)) :
      Moves own shared (server.drift change shared)

/-- Whatever the others do next to a session. -/
abbrev Rely (own : τ) : σ → σ → Prop :=
  Relation.ReflTransGen (Moves server contract own)

/-- Every request keeps the invariant, and the value that the program ends with
is as it should be, whatever the others do in between. -/
def Safe (post : α → σ → τ → Prop) : Program ρ reply α → σ → τ → Prop
  | .done value, shared, own =>
      ∀ later, Rely server contract own shared later → contract.Inv later → post value later own
  | .ask request next, shared, own =>
      ∀ later, Rely server contract own shared later → contract.Inv later →
        contract.Cond later own request →
        contract.Inv (server.exec later own request).2.1 ∧
          contract.Own (server.exec later own request).2.2 ∧
          Safe post (next (server.exec later own request).1) (server.exec later own request).2.1
            (server.exec later own request).2.2

end Semantics

namespace Safe

variable {κ ρ : Type} {reply : ρ → Type} {α β σ τ δ : Type} {server : Server ρ reply σ τ δ}
  {contract : Contract κ ρ σ τ} {post post' : α → σ → τ → Prop} {shared later : σ} {own : τ}

theorem rely {program : Program ρ reply α} (hsafe : Safe server contract post program shared own)
    (hrely : Rely server contract own shared later) :
    Safe server contract post program later own := by
  cases program with
  | done value => exact fun final hfinal => hsafe final (hrely.trans hfinal)
  | ask request next => exact fun final hfinal => hsafe final (hrely.trans hfinal)

theorem mono (hpost : ∀ value shared own, post value shared own → post' value shared own)
    {program : Program ρ reply α} (hsafe : Safe server contract post program shared own) :
    Safe server contract post' program shared own := by
  induction program generalizing shared own with
  | done value => exact fun later hrely hinv => hpost _ _ _ (hsafe later hrely hinv)
  | ask request next ih =>
      exact fun later hrely hinv hcond =>
        ⟨(hsafe later hrely hinv hcond).1, (hsafe later hrely hinv hcond).2.1,
          ih _ (hsafe later hrely hinv hcond).2.2⟩

/-- The rule of composition: the second program is safe wherever the first one
may end, and whatever the others then do. -/
theorem bind {post' : β → σ → τ → Prop} {program : Program ρ reply α}
    {next : α → Program ρ reply β} (hsafe : Safe server contract post program shared own)
    (hnext : ∀ value shared own, contract.Inv shared → contract.Own own →
      (∀ later, Rely server contract own shared later → contract.Inv later →
        post value later own) → Safe server contract post' (next value) shared own)
    (hinv : contract.Inv shared) (hown : contract.Own own) :
    Safe server contract post' (program >>= next) shared own := by
  induction program generalizing shared own with
  | done value => exact hnext _ _ _ hinv hown hsafe
  | ask request first ih =>
      intro later hrely hlater hcond
      obtain ⟨hkept, hholds, hrest⟩ := hsafe later hrely hlater hcond
      exact ⟨hkept, hholds, ih _ hrest hkept hholds⟩

/-- The rule of frames: what no step of anyone undoes still holds at the end. -/
theorem frame (lasting : σ → Prop)
    (hexec : ∀ shared own request, lasting shared → lasting (server.exec shared own request).2.1)
    (hdrift : ∀ change shared, lasting shared → lasting (server.drift change shared))
    {program : Program ρ reply α} (hsafe : Safe server contract post program shared own)
    (hlasting : lasting shared) :
    Safe server contract (fun value shared own => post value shared own ∧ lasting shared) program
      shared own := by
  have hrelied : ∀ {own shared later}, lasting shared → Rely server contract own shared later →
      lasting later := by
    intro own shared later hlasting hrely
    induction hrely with
    | refl => exact hlasting
    | tail _ hmove ih =>
        cases hmove with
        | exec other request _ _ _ => exact hexec _ other request ih
        | drift change _ => exact hdrift change _ ih
  induction program generalizing shared own with
  | done value =>
      exact fun later hrely hinv => ⟨hsafe later hrely hinv, hrelied hlasting hrely⟩
  | ask request next ih =>
      intro later hrely hinv hcond
      obtain ⟨hkept, hown, hrest⟩ := hsafe later hrely hinv hcond
      exact ⟨hkept, hown, ih _ hrest (hexec later own request (hrelied hlasting hrely))⟩

/-- What no step of the others changes, nothing they do changes. -/
theorem stable {holds : σ → Prop} (hmoves : ∀ shared later, holds shared →
      Moves server contract own shared later → holds later)
    (hholds : holds shared) (hrely : Rely server contract own shared later) : holds later := by
  induction hrely with
  | refl => exact hholds
  | tail _ hmove ih => exact hmoves _ _ ih hmove

end Safe

/-! ## Runs -/

section Runs

variable {κ ρ : Type} {reply : ρ → Type} {α σ τ δ : Type} (server : Server ρ reply σ τ δ)
  (contract : Contract κ ρ σ τ) (post : κ → α → σ → τ → Prop)

/-- The invariant holds, no sessions clash, and each is safe. -/
structure World.Sound (world : World κ ρ reply α σ τ) : Prop where
  inv : contract.Inv world.shared
  apart : ∀ (i j : ℕ) left right, i ≠ j → world.sessions[i]? = some left →
    world.sessions[j]? = some right → server.Apart left.own right.own
  own : ∀ (i : ℕ) session, world.sessions[i]? = some session → contract.Own session.own
  safe : ∀ (i : ℕ) session, world.sessions[i]? = some session →
    Safe server contract (post session.call) session.program world.shared session.own

variable {server contract post} {program : κ → Program ρ reply α}
  {world next : World κ ρ reply α σ τ}

/-- What one step of the world may do, beside what it needs. -/
theorem World.step_cases {event : WorldEvent κ δ}
    (hstep : world.step server program event = some next) :
    (∃ call, event = .start call ∧
      next = { world with sessions := world.sessions ++ [⟨call, server.idle, program call⟩] }) ∨
    (∃ change, event = .drift change ∧
      next = { world with shared := server.drift change world.shared }) ∨
    ∃ index call own request rest, event = .exec index ∧
      world.sessions[index]? = some ⟨call, own, .ask request rest⟩ ∧
      world.Free server index (server.exec world.shared own request).2.2 ∧
      next = ⟨(server.exec world.shared own request).2.1, world.sessions.set index
        ⟨call, (server.exec world.shared own request).2.2,
          rest (server.exec world.shared own request).1⟩⟩ := by
  cases event with
  | start call => exact Or.inl ⟨call, rfl, (Option.some.inj hstep).symm⟩
  | drift change => exact Or.inr (Or.inl ⟨change, rfl, (Option.some.inj hstep).symm⟩)
  | exec index =>
      unfold World.step at hstep
      dsimp only at hstep
      split at hstep
      · next call own request rest hsession =>
          split at hstep
          · next hfree =>
              exact Or.inr (Or.inr ⟨index, call, own, request, rest, rfl, hsession, hfree,
                (Option.some.inj hstep).symm⟩)
          · cases hstep
      · cases hstep

theorem World.Free.apart {index other : ℕ} {own : τ} (hfree : world.Free server index own)
    {session : Session κ ρ reply α τ} (hne : other ≠ index)
    (hsession : world.sessions[other]? = some session) : server.Apart own session.own := by
  obtain ⟨hlt, -⟩ := List.getElem?_eq_some_iff.1 hsession
  exact hfree other (List.mem_range.2 hlt) hne session hsession

theorem World.Sound.step (hsound : world.Sound server contract post)
    (hstart : ∀ call shared, contract.Inv shared → contract.Starts shared call →
      Safe server contract (post call) (program call) shared server.idle)
    (hidle : contract.Own server.idle)
    (hdrift : ∀ change shared, contract.Inv shared → contract.Inv (server.drift change shared))
    {event : WorldEvent κ δ} (hmeets : world.Meets contract event)
    (hstep : world.step server program event = some next) :
    next.Sound server contract post := by
  rcases World.step_cases hstep with ⟨call, rfl, rfl⟩ | ⟨change, rfl, rfl⟩ |
    ⟨index, call, own, request, rest, rfl, hsession, hfree, rfl⟩
  · refine ⟨hsound.inv, fun i j left right hne hleft hright => ?_, fun i session hsession => ?_,
      fun i session hsession => ?_⟩
    · rw [getElem?_concat_eq_some] at hleft hright
      rcases hleft with hleft | ⟨rfl, rfl⟩
      · rcases hright with hright | ⟨-, rfl⟩
        · exact hsound.apart i j left right hne hleft hright
        · exact server.symm _ _ (server.idle_apart _)
      · exact server.idle_apart _
    · rcases getElem?_concat_eq_some.1 hsession with hold | ⟨-, rfl⟩
      · exact hsound.own i session hold
      · exact hidle
    · rcases getElem?_concat_eq_some.1 hsession with hold | ⟨-, rfl⟩
      · exact hsound.safe i session hold
      · exact hstart call world.shared hsound.inv hmeets
  · have hinv := hdrift change world.shared hsound.inv
    exact ⟨hinv, hsound.apart, hsound.own, fun i session hsession =>
      (hsound.safe i session hsession).rely (.single (.drift change hinv))⟩
  · have hcond : contract.Cond world.shared own request := by
      unfold World.Meets at hmeets
      dsimp only at hmeets
      rwa [hsession] at hmeets
    obtain ⟨hinv, hown, hrest⟩ := hsound.safe index _ hsession world.shared .refl hsound.inv hcond
    refine ⟨hinv, fun i j left right hne hleft hright => ?_, fun i session hget => ?_,
      fun i session hget => ?_⟩
    · rw [getElem?_set_of_some hsession] at hleft hright
      split at hleft
      · next hi =>
          cases hleft
          rw [if_neg (hi ▸ hne.symm)] at hright
          exact hfree.apart (hi ▸ hne.symm) hright
      · next hi =>
          split at hright
          · next hj =>
              cases hright
              exact server.symm _ _ (hfree.apart hi hleft)
          · exact hsound.apart i j left right hne hleft hright
    · rw [getElem?_set_of_some hsession] at hget
      split at hget
      · cases hget
        exact hown
      · exact hsound.own i session hget
    · rw [getElem?_set_of_some hsession] at hget
      split at hget
      · cases hget
        exact hrest
      · next hi =>
          exact (hsound.safe i session hget).rely (.single (.exec own request
            (hsound.apart i index _ _ hi hget hsession) (hsound.own index _ hsession) hinv))

/-- A call that has ended has ended as it should. -/
theorem World.Sound.done (hsound : world.Sound server contract post) {index : ℕ}
    {session : Session κ ρ reply α τ} (hsession : world.sessions[index]? = some session)
    {value : α} (hdone : session.program = .done value) :
    post session.call value world.shared session.own := by
  have hsafe := hsound.safe index session hsession
  rw [hdone] at hsafe
  exact hsafe world.shared .refl hsound.inv

end Runs

end Talea
