import Mathlib.Tactic

/-!
# Runs of labelled transition systems

A system is a relation saying which state an action may lead to.  A run lists the actions
it takes in order, so that properties of whole histories (what was selected between two
points, which steps met a side condition) can be stated on the list of labels.
-/

namespace VisualOS.Framework

variable {σ α : Type*}

/-- `Run step s as t`: the actions `as`, taken in order from `s`, end in `t`. -/
inductive Run (step : σ → α → σ → Prop) : σ → List α → σ → Prop
  | nil (s : σ) : Run step s [] s
  | cons {s t u : σ} {a : α} {as : List α} :
      step s a t → Run step t as u → Run step s (a :: as) u

namespace Run

variable {step : σ → α → σ → Prop}

theorem nil_iff {s t : σ} : Run step s [] t ↔ t = s := by
  constructor
  · intro h
    cases h
    rfl
  · rintro rfl
    exact .nil t

theorem cons_iff {s u : σ} {a : α} {as : List α} :
    Run step s (a :: as) u ↔ ∃ t, step s a t ∧ Run step t as u := by
  constructor
  · intro h
    cases h with
    | cons hs hr => exact ⟨_, hs, hr⟩
  · rintro ⟨t, hs, hr⟩
    exact .cons hs hr

theorem split {s u : σ} {as bs : List α} (h : Run step s (as ++ bs) u) :
    ∃ t, Run step s as t ∧ Run step t bs u := by
  induction as generalizing s with
  | nil => exact ⟨s, .nil s, h⟩
  | cons a as ih =>
      cases h with
      | cons hs hr =>
          obtain ⟨t, h₁, h₂⟩ := ih hr
          exact ⟨t, .cons hs h₁, h₂⟩

theorem append {s t u : σ} {as bs : List α} (h : Run step s as t) (h' : Run step t bs u) :
    Run step s (as ++ bs) u := by
  induction h with
  | nil => exact h'
  | cons ha _ ih => exact .cons ha (ih h')

theorem exists_cons {s t : σ} {a : α} {as : List α} (hs : step s a t)
    (h : ∃ u, Run step t as u) : ∃ u, Run step s (a :: as) u := by
  obtain ⟨u, hu⟩ := h
  exact ⟨u, .cons hs hu⟩

/-- What every step keeps holds along the whole run. -/
theorem invariant {Inv : σ → Prop} (hstep : ∀ s a t, Inv s → step s a t → Inv t)
    {s t : σ} {as : List α} (h : Run step s as t) (hs : Inv s) : Inv t := by
  induction h with
  | nil => exact hs
  | cons ha _ ih => exact ih (hstep _ _ _ hs ha)

theorem mono {step' : σ → α → σ → Prop} (hstep : ∀ s a t, step s a t → step' s a t)
    {s t : σ} {as : List α} (h : Run step s as t) : Run step' s as t := by
  induction h with
  | nil => exact .nil _
  | cons ha _ ih => exact .cons (hstep _ _ _ ha) ih

/-- A simulation carries over to whole runs, action by action. -/
theorem simulation {σ' : Type*} {step' : σ' → α → σ' → Prop} {R : σ → σ' → Prop}
    (hstep : ∀ s a t s', R s s' → step s a t → ∃ t', step' s' a t' ∧ R t t') {s t : σ} {s' : σ'}
    {as : List α} (h : Run step s as t) (hs : R s s') : ∃ t', Run step' s' as t' ∧ R t t' := by
  induction h generalizing s' with
  | nil => exact ⟨s', .nil s', hs⟩
  | cons ha _ ih =>
      obtain ⟨t', ha', ht'⟩ := hstep _ _ _ _ hs ha
      obtain ⟨u', hrest, hu'⟩ := ih ht'
      exact ⟨u', .cons ha' hrest, hu'⟩

theorem foldl (next : σ → α → σ) (s : σ) (as : List α) :
    Run (fun s a t => t = next s a) s as (as.foldl next s) := by
  induction as generalizing s with
  | nil => exact .nil s
  | cons a as ih => exact .cons rfl (ih (next s a))

/-- A run can be computed where an action leads to at most one state. -/
theorem foldlM {next : σ → α → Option σ} {s t : σ} {as : List α}
    (h : as.foldlM next s = some t) : Run (fun s a t => next s a = some t) s as t := by
  induction as generalizing s with
  | nil =>
      obtain rfl : s = t := Option.some.inj h
      exact .nil s
  | cons a as ih =>
      rw [List.foldlM_cons, Option.bind_eq_bind, Option.bind_eq_some_iff] at h
      obtain ⟨u, ha, hrest⟩ := h
      exact .cons ha (ih hrest)

end Run

/-- The steps of a system that meet a condition on the action and the state before it. -/
def Guarded (step : σ → α → σ → Prop) (ok : σ → α → Prop) (s : σ) (a : α) (t : σ) : Prop :=
  ok s a ∧ step s a t

/-- Suppose that guarded steps keep an invariant and that a step into a good state must have met the
guard.  Then all states along a run are good if and only if all of its steps meet the guard. -/
theorem Run.good_iff_guarded {step : σ → α → σ → Prop} {ok : σ → α → Prop} {Good Inv : σ → Prop}
    (hdet : ∀ s a t u, step s a t → step s a u → t = u) (hgood : ∀ s, Inv s → Good s)
    (hkeep : ∀ s a t, Inv s → ok s a → step s a t → Inv t)
    (hneeds : ∀ s a t, Inv s → step s a t → Good t → ok s a)
    {s t : σ} {as : List α} (hs : Inv s) (h : Run step s as t) :
    (∀ before after u, as = before ++ after → Run step s before u → Good u) ↔
      Run (Guarded step ok) s as t := by
  constructor
  · intro hall
    induction h with
    | nil => exact .nil _
    | @cons s v t a as ha _ ih =>
        have hok : ok s a := hneeds s a v hs ha (hall [a] as v rfl (.cons ha (.nil v)))
        apply Run.cons ⟨hok, ha⟩
        apply ih (hkeep s a v hs hok ha)
        intro before after u has hu
        exact hall (a :: before) after u (congrArg (a :: ·) has) (.cons ha hu)
  · intro hguarded before after u has hu
    -- The guarded run goes through the same states as any other run of the same actions.
    induction hu generalizing as with
    | nil => exact hgood _ hs
    | cons ha _ ih =>
        subst has
        cases hguarded with
        | cons hb hrest =>
            obtain rfl := hdet _ _ _ _ ha hb.2
            exact ih (hkeep _ _ _ hs hb.1 ha) (hrest.mono fun _ _ _ h => h.2) hrest rfl

/-- The condition holds before each action, where `next` is the only state it leads to. -/
def Along (next : σ → α → σ) (ok : σ → α → Prop) : σ → List α → Prop
  | _, [] => True
  | s, a :: as => ok s a ∧ Along next ok (next s a) as

instance decidableAlong (next : σ → α → σ) (ok : σ → α → Prop) [∀ s a, Decidable (ok s a)] :
    ∀ s as, Decidable (Along next ok s as)
  | _, [] => inferInstanceAs (Decidable True)
  | s, a :: as =>
      have := decidableAlong next ok (next s a) as
      inferInstanceAs (Decidable (_ ∧ _))

theorem Along.run {next : σ → α → σ} {ok : σ → α → Prop} {s : σ} {as : List α}
    (h : Along next ok s as) :
    Run (Guarded (fun s a t => t = next s a) ok) s as (as.foldl next s) := by
  induction as generalizing s with
  | nil => exact .nil s
  | cons a as ih => exact .cons ⟨h.1, rfl⟩ (ih h.2)

end VisualOS.Framework
