import Mathlib

/-!
# Lists of steps that are run again

A setup is a list of entries, each of which has a step of its own: it does what
is missing, or finds it done, or fails and ends the setup.  A setup that has
failed is run again from the start.  This file fixes what such a step owes, and
proves that a setup which has succeeded does nothing when it is run again, and
that one which succeeds behind any number of failed attempts has the effect of
one that was not interrupted.
-/

namespace Talea

variable {σ α ι ε ρ V : Type*}

/-- The steps of the entries one after the other, until one fails; `io turn` is
what the surroundings do during a step. -/
def runEach (step : ι → σ → α → σ × Except ε ρ) (io : ℕ → ι) :
    ℕ → List α → σ → σ × Except ε (List ρ)
  | _, [], state => (state, .ok [])
  | turn, entry :: entries, state =>
      match step (io turn) state entry with
      | (state, .error err) => (state, .error err)
      | (state, .ok found) =>
          match runEach step io (turn + 1) entries state with
          | (state, .error err) => (state, .error err)
          | (state, .ok rest) => (state, .ok (found :: rest))

/-- What a repeatable step owes.  `view` is what counts of a state and `add` the
effect of an entry on it, which is done once and for all.  An entry is settled
when its step is bound to find it done, and answers `again`.  It is stuck when
its step is bound to fail from now on. -/
structure Repeatable (step : ι → σ → α → σ × Except ε ρ) (inv : σ → Prop) (view : σ → V)
    (add : V → α → V) (done : V → α → Prop) (settled stuck : σ → α → Prop) (again : α → ρ) :
    Prop where
  ok : ∀ {io state entry next found}, inv state → step io state entry = (next, .ok found) →
    inv next ∧ view next = add (view state) entry ∧ settled next entry
  failed : ∀ {io state entry next err}, inv state → step io state entry = (next, .error err) →
    inv next ∧ (view next = view state ∨ stuck next entry)
  settled_ok : ∀ {state entry} io, inv state → settled state entry →
    ∃ next, step io state entry = (next, .ok (again entry))
  settled_keeps : ∀ {io state entry other next found}, inv state →
    step io state entry = (next, .ok found) → settled state other → settled next other
  stuck_fails : ∀ {io state entry next found}, inv state → stuck state entry →
    step io state entry ≠ (next, .ok found)
  stuck_keeps : ∀ {io state entry other next result}, inv state →
    step io state entry = (next, result) → stuck state other → stuck next other
  done_add : ∀ seen entry, done (add seen entry) entry
  done_keeps : ∀ {seen other} entry, done seen other → done (add seen entry) other
  add_done : ∀ {seen entry}, done seen entry → add seen entry = seen

section RunEach

variable {step : ι → σ → α → σ × Except ε ρ} {io : ℕ → ι} {turn : ℕ} {entry : α}
  {entries : List α} {state final : σ} {founds : List ρ} {err : ε}

theorem runEach_cons_ok :
    runEach step io turn (entry :: entries) state = (final, .ok founds) ↔
      ∃ next found rest, step (io turn) state entry = (next, .ok found) ∧
        runEach step io (turn + 1) entries next = (final, .ok rest) ∧ founds = found :: rest := by
  rw [runEach]
  rcases step (io turn) state entry with ⟨next, _ | found⟩
  · simp
  · rcases hrest : runEach step io (turn + 1) entries next with ⟨last, _ | rest⟩ <;>
      simp [hrest, eq_comm]

theorem runEach_cons_error :
    runEach step io turn (entry :: entries) state = (final, .error err) ↔
      step (io turn) state entry = (final, .error err) ∨
        ∃ next found, step (io turn) state entry = (next, .ok found) ∧
          runEach step io (turn + 1) entries next = (final, .error err) := by
  rw [runEach]
  rcases step (io turn) state entry with ⟨next, _ | found⟩
  · simp
  · rcases hrest : runEach step io (turn + 1) entries next with ⟨last, _ | rest⟩ <;>
      simp [hrest]

end RunEach

namespace Repeatable

variable {step : ι → σ → α → σ × Except ε ρ} {inv : σ → Prop} {view : σ → V}
  {add : V → α → V} {done : V → α → Prop} {settled stuck : σ → α → Prop} {again : α → ρ}
  (hrep : Repeatable step inv view add done settled stuck again)
include hrep

/-! ## Effects -/

theorem foldl_done {entries : List α} {seen : V} (hdone : ∀ entry ∈ entries, done seen entry) :
    entries.foldl add seen = seen := by
  induction entries with
  | nil => rfl
  | cons entry entries ih =>
      obtain ⟨hentry, hrest⟩ := List.forall_mem_cons.1 hdone
      rw [List.foldl_cons, hrep.add_done hentry, ih hrest]

theorem done_foldl_keeps {entries : List α} {seen : V} {other : α} (hdone : done seen other) :
    done (entries.foldl add seen) other := by
  induction entries generalizing seen with
  | nil => exact hdone
  | cons entry entries ih => exact ih (hrep.done_keeps entry hdone)

theorem done_foldl (entries : List α) (seen : V) :
    ∀ entry ∈ entries, done (entries.foldl add seen) entry := by
  induction entries generalizing seen with
  | nil => simp
  | cons entry entries ih =>
      have hentry : done (entries.foldl add (add seen entry)) entry :=
        hrep.done_foldl_keeps (hrep.done_add seen entry)
      exact List.forall_mem_cons.2 ⟨hentry, ih (add seen entry)⟩

/-- Starting over behind the first entries has the effect of the longer part. -/
theorem foldl_take_take (entries : List α) (seen : V) (early late : ℕ) :
    (entries.take late).foldl add ((entries.take early).foldl add seen) =
      (entries.take (max early late)).foldl add seen := by
  have hdone := hrep.done_foldl (entries.take early) seen
  rcases Nat.le_total late early with hle | hle
  · rw [max_eq_left hle]
    refine hrep.foldl_done fun entry hentry => hdone entry ?_
    exact (List.take_prefix_take_left hle).subset hentry
  · rw [max_eq_right hle]
    obtain ⟨more, rfl⟩ := Nat.exists_eq_add_of_le hle
    rw [List.take_add, List.foldl_append, List.foldl_append, hrep.foldl_done hdone]

/-! ## Setups -/

/-- A setup that succeeds has had the effect of each of its entries, and
settles them all. -/
theorem runEach_ok {io : ℕ → ι} {turn : ℕ} {entries : List α} {state final : σ}
    {founds : List ρ} (hinv : inv state)
    (hrun : runEach step io turn entries state = (final, .ok founds)) :
    inv final ∧ view final = entries.foldl add (view state) ∧
      (∀ entry ∈ entries, settled final entry) ∧
      ∀ other, settled state other → settled final other := by
  induction entries generalizing turn state founds with
  | nil =>
      cases hrun
      exact ⟨hinv, rfl, by simp, fun _ h => h⟩
  | cons entry entries ih =>
      obtain ⟨next, found, rest, hstep, hrest, -⟩ := runEach_cons_ok.1 hrun
      obtain ⟨hnext, hview, hsettled⟩ := hrep.ok hinv hstep
      obtain ⟨hfinal, hview', hall, hkeeps⟩ := ih hnext hrest
      refine ⟨hfinal, by rw [hview', hview, List.foldl_cons], ?_, fun other hother =>
        hkeeps other (hrep.settled_keeps hinv hstep hother)⟩
      exact List.forall_mem_cons.2 ⟨hkeeps entry hsettled, hall⟩

/-- A setup that fails has had the effect of its first entries, or has left one
stuck. -/
theorem runEach_error {io : ℕ → ι} {turn : ℕ} {entries : List α} {state final : σ} {err : ε}
    (hinv : inv state) (hrun : runEach step io turn entries state = (final, .error err)) :
    inv final ∧ ((∃ count, view final = (entries.take count).foldl add (view state)) ∨
      ∃ entry ∈ entries, stuck final entry) := by
  induction entries generalizing turn state with
  | nil => cases hrun
  | cons entry entries ih =>
      rcases runEach_cons_error.1 hrun with hstep | ⟨next, found, hstep, hrest⟩
      · obtain ⟨hfinal, hsame | hstuck⟩ := hrep.failed hinv hstep
        · exact ⟨hfinal, Or.inl ⟨0, hsame⟩⟩
        · exact ⟨hfinal, Or.inr ⟨entry, List.mem_cons_self, hstuck⟩⟩
      · obtain ⟨hnext, hview, -⟩ := hrep.ok hinv hstep
        obtain ⟨hfinal, ⟨count, hcount⟩ | ⟨other, hother, hstuck⟩⟩ := ih hnext hrest
        · exact ⟨hfinal, Or.inl ⟨count + 1, by rw [hcount, hview]; rfl⟩⟩
        · exact ⟨hfinal, Or.inr ⟨other, List.mem_cons_of_mem entry hother, hstuck⟩⟩

theorem stuck_runEach (io : ℕ → ι) (turn : ℕ) (entries : List α) {state : σ} {other : α}
    (hinv : inv state) (hstuck : stuck state other) :
    stuck (runEach step io turn entries state).1 other := by
  induction entries generalizing turn state with
  | nil => exact hstuck
  | cons entry entries ih =>
      rcases hstep : step (io turn) state entry with ⟨next, err | found⟩
      · rw [runEach, hstep]
        exact hrep.stuck_keeps hinv hstep hstuck
      · have hrest := ih (turn + 1) (hrep.ok hinv hstep).1 (hrep.stuck_keeps hinv hstep hstuck)
        rw [runEach, hstep]
        dsimp only
        rcases hrun : runEach step io (turn + 1) entries next with ⟨last, err | rest⟩
        · rwa [hrun] at hrest
        · rwa [hrun] at hrest

/-- No setup with a stuck entry succeeds. -/
theorem not_ok_of_stuck {io : ℕ → ι} {turn : ℕ} {entries : List α} {state final : σ}
    {founds : List ρ} {other : α} (hinv : inv state) (hmem : other ∈ entries)
    (hstuck : stuck state other) : runEach step io turn entries state ≠ (final, .ok founds) := by
  induction entries generalizing turn state founds with
  | nil => cases hmem
  | cons entry entries ih =>
      intro hrun
      obtain ⟨next, found, rest, hstep, hrest, -⟩ := runEach_cons_ok.1 hrun
      rcases List.mem_cons.1 hmem with rfl | hlater
      · exact hrep.stuck_fails hinv hstuck hstep
      · exact ih (hrep.ok hinv hstep).1 hlater (hrep.stuck_keeps hinv hstep hstuck) hrest

/-- A setup whose entries are settled succeeds and finds everything done. -/
theorem runEach_settled (io : ℕ → ι) (turn : ℕ) {entries : List α} {state : σ}
    (hinv : inv state) (hsettled : ∀ entry ∈ entries, settled state entry) :
    ∃ final, runEach step io turn entries state = (final, .ok (entries.map again)) := by
  induction entries generalizing turn state with
  | nil => exact ⟨state, rfl⟩
  | cons entry entries ih =>
      obtain ⟨hentry, hrest⟩ := List.forall_mem_cons.1 hsettled
      obtain ⟨next, hstep⟩ := hrep.settled_ok (io turn) hinv hentry
      obtain ⟨final, hfinal⟩ := ih (turn + 1) (hrep.ok hinv hstep).1 fun other hother =>
        hrep.settled_keeps hinv hstep (hrest other hother)
      exact ⟨final, runEach_cons_ok.2 ⟨next, _, _, hstep, hfinal, rfl⟩⟩

/-- A setup that has succeeded succeeds again, and changes nothing. -/
theorem again_ok {io : ℕ → ι} {turn : ℕ} {entries : List α} {state final : σ}
    {founds : List ρ} (hinv : inv state)
    (hrun : runEach step io turn entries state = (final, .ok founds)) (io' : ℕ → ι) (turn' : ℕ) :
    ∃ later, runEach step io' turn' entries final = (later, .ok (entries.map again)) ∧
      view later = view final := by
  obtain ⟨hfinal, hview, hsettled, -⟩ := hrep.runEach_ok hinv hrun
  obtain ⟨later, hlater⟩ := hrep.runEach_settled io' turn' hfinal hsettled
  refine ⟨later, hlater, ?_⟩
  rw [(hrep.runEach_ok hfinal hlater).2.1]
  refine hrep.foldl_done fun entry hentry => ?_
  rw [hview]
  exact hrep.done_foldl entries _ entry hentry

end Repeatable

/-! ## Attempts -/

/-- The states that attempts of a setup lead to.  An attempt goes through the
entries, or some first ones of them, until it fails. -/
inductive Attempts (step : ι → σ → α → σ × Except ε ρ) (entries : List α) (state : σ) : σ → Prop
  | none : Attempts step entries state state
  | again {reached : σ} (io : ℕ → ι) (count : ℕ)
      (hreached : Attempts step entries state reached) :
      Attempts step entries state (runEach step io 0 (entries.take count) reached).1

namespace Repeatable

variable {step : ι → σ → α → σ × Except ε ρ} {inv : σ → Prop} {view : σ → V}
  {add : V → α → V} {done : V → α → Prop} {settled stuck : σ → α → Prop} {again : α → ρ}
  (hrep : Repeatable step inv view add done settled stuck again)
include hrep

/-- An attempt has had the effect of some first entries, or has left one
stuck. -/
theorem runEach_cases (io : ℕ → ι) (turn : ℕ) (entries : List α) {state : σ}
    (hinv : inv state) :
    inv (runEach step io turn entries state).1 ∧
      ((∃ count ≤ entries.length, view (runEach step io turn entries state).1 =
          (entries.take count).foldl add (view state)) ∨
        ∃ entry ∈ entries, stuck (runEach step io turn entries state).1 entry) := by
  rcases hrun : runEach step io turn entries state with ⟨final, err | founds⟩
  · obtain ⟨hfinal, ⟨count, hcount⟩ | hstuck⟩ := hrep.runEach_error hinv hrun
    · refine ⟨hfinal, Or.inl ⟨min count entries.length, min_le_right _ _, ?_⟩⟩
      rw [hcount, List.take_eq_take_min]
    · exact ⟨hfinal, Or.inr hstuck⟩
  · obtain ⟨hfinal, hview, -⟩ := hrep.runEach_ok hinv hrun
    exact ⟨hfinal, Or.inl ⟨entries.length, le_rfl, by rw [hview, List.take_length]⟩⟩

theorem attempts {entries : List α} {state reached : σ} (hinv : inv state)
    (hattempts : Attempts step entries state reached) :
    inv reached ∧ ((∃ count, view reached = (entries.take count).foldl add (view state)) ∨
      ∃ entry ∈ entries, stuck reached entry) := by
  induction hattempts with
  | none => exact ⟨hinv, Or.inl ⟨0, rfl⟩⟩
  | @again reached io len _ ih =>
      obtain ⟨hreached, ⟨early, hearly⟩ | ⟨entry, hentry, hstuck⟩⟩ := ih
      · obtain ⟨hfinal, ⟨late, -, hlate⟩ | ⟨entry, hentry, hstuck⟩⟩ :=
          hrep.runEach_cases io 0 (entries.take len) hreached
        · refine ⟨hfinal, Or.inl ⟨max early (min late len), ?_⟩⟩
          rw [hlate, hearly, List.take_take, hrep.foldl_take_take]
        · exact ⟨hfinal, Or.inr ⟨entry, List.mem_of_mem_take hentry, hstuck⟩⟩
      · exact ⟨(hrep.runEach_cases io 0 (entries.take len) hreached).1,
          Or.inr ⟨entry, hentry, hrep.stuck_runEach io 0 _ hreached hstuck⟩⟩

/-- A setup that succeeds behind attempts has the effect of all its entries,
each done once. -/
theorem resumed {entries : List α} {state reached final : σ} {io : ℕ → ι} {founds : List ρ}
    (hinv : inv state) (hattempts : Attempts step entries state reached)
    (hrun : runEach step io 0 entries reached = (final, .ok founds)) :
    inv final ∧ view final = entries.foldl add (view state) := by
  obtain ⟨hreached, ⟨count, hcount⟩ | ⟨entry, hentry, hstuck⟩⟩ := hrep.attempts hinv hattempts
  · obtain ⟨hfinal, hview, -⟩ := hrep.runEach_ok hreached hrun
    refine ⟨hfinal, ?_⟩
    have htwice := hrep.foldl_take_take entries (view state) count (max count entries.length)
    rw [List.take_of_length_le (le_max_right _ _), max_eq_right (le_max_left _ _),
      List.take_of_length_le (le_max_right _ _)] at htwice
    rw [hview, hcount, htwice]
  · exact absurd hrun (hrep.not_ok_of_stuck hreached hentry hstuck)

end Repeatable

end Talea
