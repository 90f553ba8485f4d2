import Kafko.Systems.Simulation
import Mathlib.Order.Nat
import Mathlib.Data.Nat.Init

/-!
# Fair executions

An execution goes on for ever; at each moment a step is taken, or nothing happens. A set of labels
`A` stands for a task. Weak fairness is what a scheduler grants to a task that can run at every
moment from some time on, and strong fairness what a queue grants to a task that can run again and
again. A property leads to another one if from each moment at which the first holds a moment
follows at which the second does. `by_measure` is the rule for loops.

Where each step of a system is one step of another one, an execution of the first has one of the
second beside it (`Lockstep.execution`), which is fair if the first is.
-/

namespace Systems

variable {σ α : Type*}

/-- Some step with a label in `A` is possible. -/
def System.Enabled (S : System σ α) (A : α → Prop) (s : σ) : Prop := ∃ a s', A a ∧ S.step s a s'

structure Execution (S : System σ α) where
  state : Nat → σ
  label : Nat → Option α
  starts : S.starts (state 0)
  next : ∀ t, label t = none ∧ state (t + 1) = state t ∨
    ∃ a, label t = some a ∧ S.step (state t) a (state (t + 1))

/-- From every moment of `P` on there is a moment of `Q`. -/
def Leads (P Q : Nat → Prop) : Prop := ∀ t, P t → ∃ u, t ≤ u ∧ Q u

namespace Leads

variable {P Q R : Nat → Prop}

theorem of_imp (h : ∀ t, P t → Q t) : Leads P Q := fun t hP => ⟨t, Nat.le_refl t, h t hP⟩

theorem trans (h : Leads P Q) (h' : Leads Q R) : Leads P R := by
  intro t hP
  obtain ⟨u, hLe, hQ⟩ := h t hP
  obtain ⟨v, hLe', hR⟩ := h' u hQ
  exact ⟨v, hLe.trans hLe', hR⟩

theorem weaken (h : Leads P Q) (hQ : ∀ t, Q t → R t) : Leads P R := h.trans (of_imp hQ)

/-- A property that stays until something happens is there when it happens. -/
theorem keep {Stop : Nat → Prop} (hStay : ∀ t, P t → ¬ Stop t → P (t + 1)) {t u : Nat} (hP : P t)
    (hLe : t ≤ u) : P u ∨ ∃ v, t ≤ v ∧ P v ∧ Stop v := by
  induction u, hLe using Nat.le_induction with
  | base => exact Or.inl hP
  | succ u hLe ih =>
    rcases ih with hPu | hStopped
    · by_cases hStop : Stop u
      · exact Or.inr ⟨u, hLe, hPu, hStop⟩
      · exact Or.inl (hStay u hPu hStop)
    · exact Or.inr hStopped

theorem keep_always (hStay : ∀ t, P t → P (t + 1)) {t u : Nat} (hP : P t) (hLe : t ≤ u) : P u := by
  induction u, hLe using Nat.le_induction with
  | base => exact hP
  | succ u _ ih => exact hStay u ih

/-- The rule for loops: as long as the goal is not reached the measure keeps falling. -/
theorem by_measure {P : Nat → Nat → Prop}
    (h : ∀ m, Leads (P m) fun t => Q t ∨ ∃ m' < m, P m' t) (m : Nat) : Leads (P m) Q := by
  induction m using Nat.strong_induction_on with
  | _ m ih =>
    intro t hP
    obtain ⟨u, hu, hEnd⟩ := h m t hP
    rcases hEnd with hQ | ⟨m', hLess, hP'⟩
    · exact ⟨u, hu, hQ⟩
    · obtain ⟨v, hv, hQ⟩ := ih m' hLess u hP'
      exact ⟨v, hu.trans hv, hQ⟩

/-- Properties that stay are reached together. -/
theorem all {n : Nat} {Q : Nat → Nat → Prop} (hP : ∀ t, P t → P (t + 1))
    (hQ : ∀ i < n, ∀ t, P t → Q i t → Q i (t + 1)) (h : ∀ i < n, Leads P (Q i)) :
    Leads P fun t => ∀ i < n, Q i t := by
  induction n with
  | zero => exact of_imp fun t _ i hi => absurd hi (Nat.not_lt_zero i)
  | succ n ih =>
    intro t hPt
    obtain ⟨u, hu, hBefore⟩ :=
      ih (fun i hi => hQ i (Nat.lt_succ_of_lt hi)) (fun i hi => h i (Nat.lt_succ_of_lt hi)) t hPt
    have hPu : P u := keep_always hP hPt hu
    obtain ⟨v, hv, hLast⟩ := h n (Nat.lt_succ_self n) u hPu
    refine ⟨v, hu.trans hv, ?_⟩
    have hKept : ∀ i < n, P v ∧ Q i v := by
      intro i hi
      refine keep_always (P := fun t => P t ∧ Q i t) ?_ ⟨hPu, hBefore i hi⟩ hv
      exact fun t hBoth => ⟨hP t hBoth.1, hQ i (Nat.lt_succ_of_lt hi) t hBoth.1 hBoth.2⟩
    intro i hi
    rcases Nat.lt_succ_iff_lt_or_eq.mp hi with hLt | rfl
    · exact (hKept i hLt).2
    · exact hLast

end Leads

namespace Execution

variable {S : System σ α} (e : Execution S)

/-- At this moment a step with a label in `A` is taken. -/
def Occurs (A : α → Prop) (t : Nat) : Prop := ∃ a, A a ∧ e.label t = some a

def WeaklyFair (A : α → Prop) : Prop :=
  ∀ t, (∀ u, t ≤ u → S.Enabled A (e.state u)) → ∃ u, t ≤ u ∧ e.Occurs A u

def StronglyFair (A : α → Prop) : Prop :=
  ∀ t, (∀ u, t ≤ u → ∃ v, u ≤ v ∧ S.Enabled A (e.state v)) → ∃ u, t ≤ u ∧ e.Occurs A u

/-- A task that is ready at every moment from some time on takes a step. Weak fairness is this with a
task that is ready when it can run. -/
def GetsTurn (ready : σ → Prop) (A : α → Prop) : Prop :=
  ∀ t, (∀ u, t ≤ u → ready (e.state u)) → ∃ u, t ≤ u ∧ e.Occurs A u

variable {e} {P : Nat → Prop} {A B : α → Prop}

/-- What a moment does to the state. -/
theorem step_or_rest (t : Nat) (R : Option α → σ → Prop) (hRest : R none (e.state t))
    (hStep : ∀ a s', S.step (e.state t) a s' → R (some a) s') :
    R (e.label t) (e.state (t + 1)) := by
  rcases e.next t with ⟨hLabel, hState⟩ | ⟨a, hLabel, hMove⟩
  · rw [hLabel, hState]
    exact hRest
  · rw [hLabel]
    exact hStep a _ hMove

/-- What every step keeps stays for ever. -/
theorem always {I : σ → Prop} (hKept : ∀ s a s', I s → S.step s a s' → I s') {t u : Nat}
    (h : I (e.state t)) (hLe : t ≤ u) : I (e.state u) := by
  induction u, hLe using Nat.le_induction with
  | base => exact h
  | succ u _ ih =>
    exact step_or_rest u (fun _ s' => I s') ih fun a s' hStep => hKept _ a s' ih hStep

/-- A weakly fair task that can run until something stops it runs: it takes no step that leaves
everything as it is, and every other one leads where it should. -/
theorem weak_leads {D R : Nat → Prop} (hFair : e.WeaklyFair A)
    (hEnabled : ∀ t, P t → S.Enabled A (e.state t))
    (hStep : ∀ t, P t → ¬ D t → P (t + 1) ∧ ¬ e.Occurs A t ∨ R (t + 1)) :
    Leads P fun t => P t ∧ D t ∨ R t := by
  intro t hP
  by_contra hNever
  have hGoesOn : ∀ v, t ≤ v → P v → P (v + 1) ∧ ¬ e.Occurs A v := by
    intro v hv hPv
    have hNot : ¬ D v := fun hDone => hNever ⟨v, hv, Or.inl ⟨hPv, hDone⟩⟩
    rcases hStep v hPv hNot with hBoth | hR
    · exact hBoth
    · exact absurd ⟨v + 1, Nat.le_succ_of_le hv, Or.inr hR⟩ hNever
  have hAlways : ∀ v, t ≤ v → P v := by
    intro v hv
    induction v, hv using Nat.le_induction with
    | base => exact hP
    | succ v hv ih => exact (hGoesOn v hv ih).1
  obtain ⟨u, hu, hNow⟩ := hFair t fun u hu => hEnabled u (hAlways u hu)
  exact (hGoesOn u hu (hAlways u hu)).2 hNow

/-- Such a task makes something happen that includes its own steps. -/
theorem weak_occurs (hFair : e.WeaklyFair A) (hSub : ∀ a, A a → B a)
    (hStay : ∀ t, P t → ¬ e.Occurs B t → P (t + 1)) (hEnabled : ∀ t, P t → S.Enabled A (e.state t)) :
    Leads P fun t => P t ∧ e.Occurs B t := by
  have hLeads := weak_leads (D := e.Occurs B) (R := fun _ => False) hFair hEnabled ?_
  · exact hLeads.weaken fun t h => h.resolve_right id
  · intro t hP hNot
    refine Or.inl ⟨hStay t hP hNot, ?_⟩
    intro hNow
    obtain ⟨a, hA, hLabel⟩ := hNow
    exact hNot ⟨a, hSub a hA, hLabel⟩

/-- For a strongly fair task it is enough that it can run again and again. -/
theorem strong_occurs (hFair : e.StronglyFair A) (hSub : ∀ a, A a → B a)
    (hStay : ∀ t, P t → ¬ e.Occurs B t → P (t + 1))
    (hEnabled : Leads P fun t => S.Enabled A (e.state t) ∨ P t ∧ e.Occurs B t) :
    Leads P fun t => P t ∧ e.Occurs B t := by
  intro t hP
  by_contra hNever
  have hNot : ∀ v, t ≤ v → P v → ¬ e.Occurs B v := fun v hv hPv hNow => hNever ⟨v, hv, hPv, hNow⟩
  have hAlways : ∀ v, t ≤ v → P v := by
    intro v hv
    induction v, hv using Nat.le_induction with
    | base => exact hP
    | succ v hv ih => exact hStay v ih (hNot v hv ih)
  have hOften : ∀ u, t ≤ u → ∃ v, u ≤ v ∧ S.Enabled A (e.state v) := by
    intro u hu
    obtain ⟨v, hv, hEnd⟩ := hEnabled u (hAlways u hu)
    rcases hEnd with hOpen | ⟨hPv, hNow⟩
    · exact ⟨v, hv, hOpen⟩
    · exact absurd hNow (hNot v (hu.trans hv) hPv)
  obtain ⟨u, hu, a, hA, hLabel⟩ := hFair t hOften
  exact hNot u hu (hAlways u hu) ⟨a, hSub a hA, hLabel⟩

/-- A task that again and again cannot run is treated fairly. -/
theorem weaklyFair_of_disabled (h : ∀ t, ∃ u, t ≤ u ∧ ¬ S.Enabled A (e.state u)) :
    e.WeaklyFair A := by
  intro t hAlways
  obtain ⟨u, hu, hNot⟩ := h t
  exact absurd (hAlways u hu) hNot

/-- So is one that runs again and again. -/
theorem stronglyFair_of_occurs (h : ∀ t, ∃ u, t ≤ u ∧ e.Occurs A u) : e.StronglyFair A :=
  fun t _ => h t

/-- And one that can never run in the end. -/
theorem stronglyFair_of_disabled {n : Nat} (h : ∀ t, n ≤ t → ¬ S.Enabled A (e.state t)) :
    e.StronglyFair A := by
  intro t hOften
  obtain ⟨u, hu, hEnabled⟩ := hOften (max t n) (Nat.le_max_left t n)
  exact absurd hEnabled (h u ((Nat.le_max_right t n).trans hu))

/-- The beginning of an execution is a run. -/
theorem runs_of_labels {as : List α} (h : ∀ (i : Nat) (a : α), as[i]? = some a → e.label i = some a) :
    S.Runs (e.state 0) as (e.state as.length) := by
  have hFrom : ∀ (as : List α) (t : Nat), (∀ (i : Nat) (a : α), as[i]? = some a →
      e.label (t + i) = some a) → S.Runs (e.state t) as (e.state (t + as.length)) := by
    intro as
    induction as with
    | nil => exact fun t _ => .refl _
    | cons a as ih =>
      intro t hLabels
      rcases e.next t with ⟨hNone, -⟩ | ⟨b, hLabel, hStep⟩
      · have hSome := hLabels 0 a rfl
        rw [Nat.add_zero, hNone] at hSome
        cases hSome
      · obtain rfl : b = a := Option.some.inj (hLabel.symm.trans (hLabels 0 a rfl))
        have hRest := ih (t + 1) fun i c hi => by
          rw [show t + 1 + i = t + (i + 1) by omega]
          exact hLabels (i + 1) c hi
        rw [List.length_cons, show t + (as.length + 1) = t + 1 + as.length by omega]
        exact .step hStep hRest
  have hRuns := hFrom as 0 fun i a hi => by
    rw [Nat.zero_add]
    exact h i a hi
  rwa [Nat.zero_add] at hRuns

/-- A run after whose end nothing happens. -/
theorem exists_rest {s s' : σ} {as : List α} (hStart : S.starts s) (hRuns : S.Runs s as s') :
    ∃ e : Execution S, e.state 0 = s ∧ (∀ t, e.label t = as[t]?) ∧
      ∀ t, as.length ≤ t → e.state t = s' := by
  have hAll : ∃ state : Nat → σ, state 0 = s ∧ (∀ t, as[t]? = none ∧ state (t + 1) = state t ∨
      ∃ a, as[t]? = some a ∧ S.step (state t) a (state (t + 1))) ∧
      ∀ t, as.length ≤ t → state t = s' := by
    clear hStart
    induction hRuns with
    | refl s => exact ⟨fun _ => s, rfl, fun t => Or.inl ⟨rfl, rfl⟩, fun _ _ => rfl⟩
    | @step s s₁ s' a as hStep _ ih =>
      obtain ⟨state, hZero, hNext, hEnd⟩ := ih
      refine ⟨fun t => t.casesOn s state, rfl, ?_, ?_⟩
      · intro t
        cases t with
        | zero =>
          right
          refine ⟨a, rfl, ?_⟩
          change S.step s a (state 0)
          rwa [hZero]
        | succ t => exact hNext t
      · intro t hLe
        cases t with
        | zero => cases hLe
        | succ t => exact hEnd t (Nat.le_of_succ_le_succ hLe)
  obtain ⟨state, hZero, hNext, hEnd⟩ := hAll
  exact ⟨⟨state, fun t => as[t]?, by rwa [hZero], hNext⟩, hZero, fun _ => rfl, hEnd⟩

/-- A run after whose end a loop is repeated. -/
theorem exists_lasso {J : σ → Prop} {s s' : σ} {first loop : List α} (hStart : S.starts s)
    (hRuns : S.Runs s first s') (hJ : J s') (hNe : loop ≠ [])
    (hLoop : ∀ s, J s → ∃ s', S.Runs s loop s' ∧ J s') :
    ∃ e : Execution S, e.state 0 = s ∧
      (∀ t a, first[t]? = some a → e.label t = some a) ∧
      (∀ t, ∃ a, e.label t = some a ∧ (a ∈ first ∨ a ∈ loop)) ∧
      (∀ a ∈ loop, ∀ t, ∃ u, t ≤ u ∧ e.label u = some a) ∧
      ∀ t, ∃ u, t ≤ u ∧ J (e.state u) := by
  -- What is left of the run or of the loop goes with the state.
  let Plan := { x : σ × List α // ∃ s', S.Runs x.1 x.2 s' ∧ J s' }
  have hNext : ∀ x : Plan, ∃ a, ∃ y : Plan, S.step x.1.1 a y.1.1 ∧
      (x.1.2 = a :: y.1.2 ∨ x.1.2 = [] ∧ loop = a :: y.1.2) := by
    intro x
    obtain ⟨s', hRuns, hJ⟩ := x.2
    cases hLeft : x.1.2 with
    | cons a as =>
      rw [hLeft] at hRuns
      obtain ⟨s₁, hStep, hRest⟩ := hRuns.head
      exact ⟨a, ⟨(s₁, as), s', hRest, hJ⟩, hStep, Or.inl rfl⟩
    | nil =>
      rw [hLeft] at hRuns
      cases hRuns
      obtain ⟨s'', hRuns, hJ''⟩ := hLoop _ hJ
      obtain ⟨a, as, rfl⟩ := List.exists_cons_of_ne_nil hNe
      obtain ⟨s₁, hStep, hRest⟩ := hRuns.head
      exact ⟨a, ⟨(s₁, as), s'', hRest, hJ''⟩, hStep, Or.inr ⟨rfl, rfl⟩⟩
  choose label next hStep hLeft using hNext
  let plan : Nat → Plan := fun t => Nat.rec ⟨(s, first), s', hRuns, hJ⟩ (fun _ x => next x) t
  -- A list that is left is gone through.
  have hThrough : ∀ (as : List α) (t : Nat), (plan t).1.2 = as →
      (plan (t + as.length)).1.2 = [] ∧
        ∀ (i : Nat) (a : α), as[i]? = some a → label (plan (t + i)) = a := by
    intro as
    induction as with
    | nil =>
      intro t hAs
      exact ⟨hAs, fun i a hi => by simp at hi⟩
    | cons a as ih =>
      intro t hAs
      rcases hLeft (plan t) with hCons | ⟨hNil, -⟩
      · rw [hAs] at hCons
        obtain ⟨hHead, hTail⟩ := List.cons.inj hCons
        obtain ⟨hEnd, hLabels⟩ := ih (t + 1) hTail.symm
        refine ⟨?_, ?_⟩
        · rw [List.length_cons, show t + (as.length + 1) = t + 1 + as.length by omega]
          exact hEnd
        · intro i b hi
          cases i with
          | zero =>
            obtain rfl : a = b := Option.some.inj hi
            exact hHead.symm
          | succ i =>
            rw [show t + (i + 1) = t + 1 + i by omega]
            exact hLabels i b hi
      · rw [hAs] at hNil
        cases hNil
  have hEmpty : ∀ t, ∃ u, t ≤ u ∧ (plan u).1.2 = [] :=
    fun t => ⟨_, Nat.le_add_right t _, (hThrough _ t rfl).1⟩
  have hAgain : ∀ t, (plan t).1.2 = [] →
      ∀ (i : Nat) (a : α), loop[i]? = some a → label (plan (t + i)) = a := by
    intro t hNil i a hi
    rcases hLeft (plan t) with hCons | ⟨-, hBegin⟩
    · rw [hNil] at hCons
      cases hCons
    · rw [hBegin] at hi
      cases i with
      | zero => exact Option.some.inj hi
      | succ i =>
        rw [show t + (i + 1) = t + 1 + i by omega]
        exact (hThrough _ (t + 1) rfl).2 i a hi
  have hMem : ∀ t, ∀ a ∈ (plan t).1.2, a ∈ first ∨ a ∈ loop := by
    intro t
    induction t with
    | zero => exact fun a ha => Or.inl ha
    | succ t ih =>
      intro a ha
      rcases hLeft (plan t) with hCons | ⟨-, hBegin⟩
      · exact ih a (by rw [hCons]; exact List.mem_cons_of_mem _ ha)
      · exact Or.inr (by rw [hBegin]; exact List.mem_cons_of_mem _ ha)
  refine ⟨⟨fun t => (plan t).1.1, fun t => some (label (plan t)), hStart,
    fun t => Or.inr ⟨_, rfl, hStep (plan t)⟩⟩, rfl, ?_, ?_, ?_, ?_⟩
  · intro t a hFirst
    have hLabel := (hThrough first 0 rfl).2 t a hFirst
    rw [Nat.zero_add] at hLabel
    exact congrArg some hLabel
  · intro t
    refine ⟨_, rfl, ?_⟩
    rcases hLeft (plan t) with hCons | ⟨-, hBegin⟩
    · exact hMem t _ (by rw [hCons]; exact List.mem_cons_self)
    · exact Or.inr (by rw [hBegin]; exact List.mem_cons_self)
  · intro a ha t
    obtain ⟨u, hu, hNil⟩ := hEmpty t
    obtain ⟨i, hi⟩ := List.mem_iff_getElem?.mp ha
    exact ⟨u + i, Nat.le_add_right_of_le hu, congrArg some (hAgain u hNil i a hi)⟩
  · intro t
    obtain ⟨u, hu, hNil⟩ := hEmpty t
    refine ⟨u, hu, ?_⟩
    obtain ⟨s'', hRuns', hJ'⟩ := (plan u).2
    rw [hNil] at hRuns'
    cases hRuns'
    exact hJ'

end Execution

/-! ## Executions side by side -/

variable {τ β : Type*}

/-- Each step of `C` is one step of `A`. The relation `M` says which labels belong together where `C`
gets to a state. -/
structure Lockstep (C : System σ α) (A : System τ β) (M : σ → α → β → Prop) (R : σ → τ → Prop) :
    Prop where
  starts : ∀ s, C.starts s → ∃ t, A.starts t ∧ R s t
  step : ∀ s a s' t, R s t → C.step s a s' → ∃ b t', M s' a b ∧ A.step t b t' ∧ R s' t'

variable {C : System σ α} {A : System τ β} {M : σ → α → β → Prop} {R : σ → τ → Prop}

/-- The two executions do the same at every moment. -/
structure Beside (M : σ → α → β → Prop) (R : σ → τ → Prop) (e : Execution C) (e' : Execution A) :
    Prop where
  state : ∀ t, R (e.state t) (e'.state t)
  label : ∀ t, Option.Rel (M (e.state (t + 1))) (e.label t) (e'.label t)

theorem Lockstep.execution (h : Lockstep C A M R) (e : Execution C) :
    ∃ e' : Execution A, Beside M R e e' := by
  have hNext : ∀ (n : Nat) (x : { t // R (e.state n) t }),
      ∃ (b : Option β) (y : { t // R (e.state (n + 1)) t }),
        Option.Rel (M (e.state (n + 1))) (e.label n) b ∧
        (b = none ∧ y.1 = x.1 ∨ ∃ b', b = some b' ∧ A.step x.1 b' y.1) := by
    intro n x
    rcases e.next n with ⟨hLabel, hState⟩ | ⟨a, hLabel, hStep⟩
    · refine ⟨none, ⟨x.1, by rw [hState]; exact x.2⟩, ?_, Or.inl ⟨rfl, rfl⟩⟩
      rw [hLabel]
      exact .none
    · obtain ⟨b, t', hM, hOne, hR⟩ := h.step _ a _ x.1 x.2 hStep
      refine ⟨some b, ⟨t', hR⟩, ?_, Or.inr ⟨b, rfl, hOne⟩⟩
      rw [hLabel]
      exact .some hM
  obtain ⟨t₀, hStarts, hR₀⟩ := h.starts _ e.starts
  choose label next hLabel hStep using hNext
  let state : (n : Nat) → { t // R (e.state n) t } := fun n => Nat.rec ⟨t₀, hR₀⟩ (fun n x => next n x) n
  exact ⟨⟨fun n => (state n).1, fun n => label n (state n), hStarts, fun n => hStep n (state n)⟩,
    fun n => (state n).2, fun n => hLabel n (state n)⟩

namespace Beside

variable {e : Execution C} {e' : Execution A} {ready : σ → Prop} {P : α → Prop} {Q : β → Prop}

theorem occurs (h : Beside M R e e') (hLabel : ∀ s a b, M s a b → P a → Q b) {t : Nat}
    (hOccurs : e.Occurs P t) : e'.Occurs Q t := by
  obtain ⟨a, hP, hHere⟩ := hOccurs
  have hRel := h.label t
  rw [hHere] at hRel
  generalize hThere : e'.label t = there at hRel
  cases hRel with
  | some hM => exact ⟨_, hLabel _ a _ hM hP, hThere⟩

theorem weaklyFair (h : Beside M R e e') (hFair : e.GetsTurn ready P)
    (hReady : ∀ s t, R s t → A.Enabled Q t → ready s) (hLabel : ∀ s a b, M s a b → P a → Q b) :
    e'.WeaklyFair Q := by
  intro t hAlways
  obtain ⟨u, hu, hOccurs⟩ := hFair t fun u hu => hReady _ _ (h.state u) (hAlways u hu)
  exact ⟨u, hu, h.occurs hLabel hOccurs⟩

theorem stronglyFair (h : Beside M R e e') (hFair : e.StronglyFair P)
    (hEnabled : ∀ s t, R s t → A.Enabled Q t → C.Enabled P s)
    (hLabel : ∀ s a b, M s a b → P a → Q b) : e'.StronglyFair Q := by
  intro t hOften
  have hOften' : ∀ u, t ≤ u → ∃ v, u ≤ v ∧ C.Enabled P (e.state v) := by
    intro u hu
    obtain ⟨v, hv, hOpen⟩ := hOften u hu
    exact ⟨v, hv, hEnabled _ _ (h.state v) hOpen⟩
  obtain ⟨u, hu, hOccurs⟩ := hFair t hOften'
  exact ⟨u, hu, h.occurs hLabel hOccurs⟩

end Beside

end Systems
