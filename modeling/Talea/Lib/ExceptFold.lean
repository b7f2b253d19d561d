import Mathlib

/-!
# Loops that may fail

Folds and checks in `Except`: when they succeed, what every step of a fold
keeps, and that a loop only depends on its steps at the items it visits.
-/

namespace Talea

variable {ε α β σ τ : Type}

theorem Except.bind_eq_ok {result : Except ε α} {next : α → Except ε β} {value : β} :
    (result >>= next) = .ok value ↔ ∃ mid, result = .ok mid ∧ next mid = .ok value := by
  cases result with
  | error err => simp [bind, Except.bind]
  | ok mid => simp [bind, Except.bind]

theorem Except.map_eq_ok {result : Except ε α} {f : α → β} {value : β} :
    result.map f = .ok value ↔ ∃ mid, result = .ok mid ∧ f mid = value := by
  cases result <;> simp [Except.map]

/-- Mapping succeeds where it succeeds at every item. -/
theorem Except.mapM_eq_ok {f : α → Except ε β} {items : List α} {values : List β} :
    items.mapM f = .ok values ↔ List.Forall₂ (fun item value => f item = .ok value) items values := by
  induction items generalizing values with
  | nil =>
      constructor
      · intro hmap
        cases hmap
        exact .nil
      · intro hall
        cases hall
        rfl
  | cons item items ih =>
      rw [List.mapM_cons, Except.bind_eq_ok]
      constructor
      · rintro ⟨value, hitem, hmap⟩
        obtain ⟨rest, hrest, hmap⟩ := Except.bind_eq_ok.1 hmap
        cases hmap
        exact .cons hitem (ih.1 hrest)
      · intro hall
        cases hall with
        | cons hitem hrest => exact ⟨_, hitem, by rw [ih.2 hrest]; rfl⟩

/-- A fold over related states: when each step of the second fold is the step
of the first one up to `embed`, so is the whole fold. -/
theorem foldlM_map_of_step {step : σ → α → Except ε σ} {step' : τ → α → Except ε τ}
    {embed : σ → τ} (hstep : ∀ state item, step' (embed state) item = (step state item).map embed)
    (items : List α) (state : σ) :
    items.foldlM step' (embed state) = (items.foldlM step state).map embed := by
  induction items generalizing state with
  | nil => rfl
  | cons item items ih =>
      rw [List.foldlM_cons, List.foldlM_cons, hstep]
      cases step state item with
      | error err => rfl
      | ok next => exact ih next

/-- What every step of a fold keeps, the fold keeps. -/
theorem foldlM_invariant {step : σ → α → Except ε σ} {Inv : σ → Prop} {items : List α}
    (hstep : ∀ state item next, item ∈ items → Inv state → step state item = .ok next → Inv next)
    {state final : σ} (hinit : Inv state) (hfold : items.foldlM step state = .ok final) :
    Inv final := by
  induction items generalizing state with
  | nil => cases hfold; exact hinit
  | cons item items ih =>
      rw [List.foldlM_cons, Except.bind_eq_ok] at hfold
      obtain ⟨next, hitem, hrest⟩ := hfold
      exact ih (fun state other next hother => hstep state other next (List.mem_cons_of_mem _ hother))
        (hstep state item next List.mem_cons_self hinit hitem) hrest

theorem foldlM_congr {step step' : σ → α → Except ε σ} {items : List α}
    (hsame : ∀ item ∈ items, ∀ state, step state item = step' state item) (state : σ) :
    items.foldlM step state = items.foldlM step' state := by
  induction items generalizing state with
  | nil => rfl
  | cons item items ih =>
      rw [List.foldlM_cons, List.foldlM_cons, hsame item List.mem_cons_self]
      congr 1
      funext next
      exact ih (fun other hother => hsame other (List.mem_cons_of_mem _ hother)) next

theorem Except.forM_eq_ok {check : α → Except ε Unit} {items : List α} :
    items.forM check = .ok () ↔ ∀ item ∈ items, check item = .ok () := by
  induction items with
  | nil => simp [pure, Except.pure]
  | cons item items ih =>
      change (check item >>= fun _ => items.forM check) = .ok () ↔ _
      rw [Except.bind_eq_ok, List.forall_mem_cons, ← ih]
      exact ⟨fun ⟨_, hitem, hrest⟩ => ⟨hitem, hrest⟩, fun ⟨hitem, hrest⟩ => ⟨(), hitem, hrest⟩⟩

theorem forM_congr {check check' : α → Except ε Unit} {items : List α}
    (hsame : ∀ item ∈ items, check item = check' item) :
    items.forM check = items.forM check' := by
  induction items with
  | nil => rfl
  | cons item items ih =>
      change (check item >>= fun _ => items.forM check) =
        (check' item >>= fun _ => items.forM check')
      rw [hsame item List.mem_cons_self,
        ih fun other hother => hsame other (List.mem_cons_of_mem _ hother)]

/-- A loop that collects keys and fails at the first one it has already. -/
theorem foldlM_distinct {κ : Type} [DecidableEq κ] {step : Finset κ → α → Except ε (Finset κ)}
    {key : α → κ} {err : α → ε} {items : List α}
    (hstep : ∀ seen, ∀ item ∈ items, step seen item =
      if key item ∈ seen then .error (err item) else .ok (insert (key item) seen)) :
    (∃ seen, items.foldlM step ∅ = .ok seen ∧ (items.map key).Nodup) ∨
      ∃ before item after, items = before ++ item :: after ∧ (before.map key).Nodup ∧
        key item ∈ before.map key ∧ items.foldlM step ∅ = .error (err item) := by
  have hfold : ∀ (before rest : List α), items = before ++ rest → (before.map key).Nodup →
      (∃ seen, rest.foldlM step (before.map key).toFinset = .ok seen ∧ (items.map key).Nodup) ∨
        ∃ done item after, items = done ++ item :: after ∧ (done.map key).Nodup ∧
          key item ∈ done.map key ∧
          rest.foldlM step (before.map key).toFinset = .error (err item) := by
    intro before rest
    induction rest generalizing before with
    | nil =>
        intro heq hnodup
        exact Or.inl ⟨_, rfl, by rwa [heq, List.append_nil]⟩
    | cons item rest ih =>
        intro heq hnodup
        have hitem := hstep (before.map key).toFinset item (by simp [heq])
        rw [List.foldlM_cons, hitem]
        by_cases hin : key item ∈ before.map key
        · refine Or.inr ⟨before, item, rest, heq, hnodup, hin, ?_⟩
          rw [if_pos (List.mem_toFinset.2 hin)]
          rfl
        · have hnext := ih (before ++ [item]) (by simp [heq]) (by
            rw [List.map_append, List.nodup_append]
            refine ⟨hnodup, List.nodup_singleton _, fun left hleft right hright hsame => ?_⟩
            rw [List.map_singleton, List.mem_singleton] at hright
            exact hin (hright ▸ hsame ▸ hleft))
          have hseen : ((before ++ [item]).map key).toFinset =
              insert (key item) (before.map key).toFinset := by
            ext other
            simp
          rw [hseen] at hnext
          rw [if_neg fun hmem => hin (List.mem_toFinset.1 hmem)]
          exact hnext
  exact hfold [] items rfl List.nodup_nil

/-- When such a loop succeeds, all keys are distinct. -/
theorem nodup_of_foldlM_eq_ok {κ : Type} [DecidableEq κ]
    {step : Finset κ → α → Except ε (Finset κ)} {key : α → κ}
    (hstep : ∀ seen item next, step seen item = .ok next →
      key item ∉ seen ∧ next = insert (key item) seen)
    {items : List α} {seen final : Finset κ} (hfold : items.foldlM step seen = .ok final) :
    (items.map key).Nodup ∧ ∀ item ∈ items, key item ∉ seen := by
  induction items generalizing seen with
  | nil => exact ⟨List.nodup_nil, by simp⟩
  | cons item items ih =>
      rw [List.foldlM_cons, Except.bind_eq_ok] at hfold
      obtain ⟨next, hitem, hrest⟩ := hfold
      obtain ⟨hnew, rfl⟩ := hstep seen item next hitem
      obtain ⟨hnodup, hothers⟩ := ih hrest
      refine ⟨?_, List.forall_mem_cons.2 ⟨hnew, fun other hother hmem => ?_⟩⟩
      · rw [List.map_cons, List.nodup_cons]
        refine ⟨fun hmem => ?_, hnodup⟩
        obtain ⟨other, hother, hsame⟩ := List.mem_map.1 hmem
        exact hothers other hother (hsame ▸ Finset.mem_insert_self _ _)
      · exact hothers other hother (Finset.mem_insert_of_mem hmem)

end Talea
