import Mathlib.Data.List.Basic

/-!
# Labelled systems and simulations

A labelled system is given by where it may start and by its steps. `Runs` chains steps and
collects their labels. A property that every step keeps holds at the end of every run, and a
relation that every step respects, and that is reflexive and transitive, relates the two ends.

`Simulation` relates a system to a more abstract one: each step of the first is a short run of
the second, whose labels are read off the label of the step. Then every run of the first has a
run of the second beside it.
-/

namespace Systems

/-- A system with states `σ` whose steps are labelled by `α`. -/
structure System (σ α : Type*) where
  starts : σ → Prop
  step : σ → α → σ → Prop

namespace System

variable {σ α : Type*}

/-- Steps one after the other, with their labels in order. -/
inductive Runs (S : System σ α) : σ → List α → σ → Prop
  | refl (s : σ) : Runs S s [] s
  | step {s s' s'' : σ} {a : α} {as : List α} (hStep : S.step s a s') (hRest : Runs S s' as s'') :
      Runs S s (a :: as) s''

variable {S : System σ α} {s s' s'' : σ} {a : α} {as bs : List α}

theorem Runs.one (hStep : S.step s a s') : S.Runs s [a] s' := .step hStep (.refl s')

theorem Runs.append (h : S.Runs s as s') (h' : S.Runs s' bs s'') : S.Runs s (as ++ bs) s'' := by
  induction h with
  | refl s => exact h'
  | step hStep _ ih => exact .step hStep (ih h')

/-- A run can be cut between any two of its labels. -/
theorem Runs.split (h : S.Runs s (as ++ bs) s'') : ∃ s', S.Runs s as s' ∧ S.Runs s' bs s'' := by
  induction as generalizing s with
  | nil => exact ⟨s, .refl s, h⟩
  | cons a as ih =>
    cases h with
    | step hStep hRest =>
      obtain ⟨s', hFirst, hSecond⟩ := ih hRest
      exact ⟨s', .step hStep hFirst, hSecond⟩

theorem Runs.head (h : S.Runs s (a :: as) s'') : ∃ s', S.step s a s' ∧ S.Runs s' as s'' := by
  cases h with
  | step hStep hRest => exact ⟨_, hStep, hRest⟩

/-- The rule of invariants, for runs all of whose labels satisfy `Q`. -/
theorem Runs.invariant {P : σ → Prop} {Q : α → Prop}
    (hKept : ∀ s a s', Q a → P s → S.step s a s' → P s') (h : S.Runs s as s')
    (hLabels : ∀ a ∈ as, Q a) (hP : P s) : P s' := by
  induction h with
  | refl s => exact hP
  | @step s s₁ s' a as hStep _ ih =>
    apply ih fun b hb => hLabels b (List.mem_cons_of_mem _ hb)
    exact hKept s a s₁ (hLabels a List.mem_cons_self) hP hStep

/-- The rule of relations between the two ends of a run. -/
theorem Runs.related {R : σ → σ → Prop} {Q : α → Prop} (hRefl : ∀ s, R s s)
    (hTrans : ∀ s s' s'', R s s' → R s' s'' → R s s'')
    (hStep : ∀ s a s', Q a → S.step s a s' → R s s') (h : S.Runs s as s')
    (hLabels : ∀ a ∈ as, Q a) : R s s' := by
  apply h.invariant (P := R s) (Q := Q) _ hLabels (hRefl s)
  intro s₁ a s₂ hQ hR hOne
  exact hTrans s s₁ s₂ hR (hStep s₁ a s₂ hQ hOne)

end System

/-! ## Simulations -/

variable {σ α τ β : Type*}

/-- Every step of `C` is a run of `A` with the labels that `f` reads off, and `R` is kept. -/
structure Simulation (C : System σ α) (A : System τ β) (f : α → List β) (R : σ → τ → Prop) :
    Prop where
  starts : ∀ s, C.starts s → ∃ t, A.starts t ∧ R s t
  step : ∀ s a s' t, R s t → C.step s a s' → ∃ t', A.Runs t (f a) t' ∧ R s' t'

namespace Simulation

variable {C : System σ α} {A : System τ β} {f : α → List β} {R : σ → τ → Prop} {s s' : σ} {t : τ}
  {as : List α}

/-- Related states stay related along a run. -/
theorem runs (h : Simulation C A f R) (hR : R s t) (hRun : C.Runs s as s') :
    ∃ t', A.Runs t (as.flatMap f) t' ∧ R s' t' := by
  induction hRun generalizing t with
  | refl s => exact ⟨t, .refl t, hR⟩
  | @step s s₁ s' a as hStep _ ih =>
    obtain ⟨t₁, hFirst, hR₁⟩ := h.step s a s₁ t hR hStep
    obtain ⟨t', hRest, hR'⟩ := ih hR₁
    exact ⟨t', hFirst.append hRest, hR'⟩

end Simulation

end Systems
