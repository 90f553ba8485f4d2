import Kafko.Disk.Effect

/-!
# While loops

A `While` is the loop `while cond { body }` over its loop variables, with a last expression
behind it. Nothing bounds it: `Ends` says that it stops, after how many runs of the body and how.
A loop whose body lowers a measure ends (`ends_of_progress`). A loop that ends does what its
fuelled version does with at least as much fuel as it needs turns (`Ends.run_eq`).
-/

namespace Disk

/-- A loop over the variables `β` that yields an `α`. -/
structure While (ν ε σ β α : Type) where
  cond : β → Bool
  /-- `inl` goes around again; `inr` is a `break` or a `return` with a value. -/
  body : β → Fx ν ε σ (β ⊕ α)
  after : β → α

namespace While

variable {ν ε σ β α : Type}

/-- The loop stops with `out` after `n` runs of its body. -/
inductive Ends (l : While ν ε σ β α) (env : Env ν) :
    Nat → β → σ → World ν → Res ε α × σ × World ν → Prop
  | done {b s w} : l.cond b = false → Ends l env 0 b s w (.ok (l.after b), s, w)
  | leave {b s w a s' w'} : l.cond b = true → l.body b env s w = (.ok (.inr a), s', w') →
      Ends l env 1 b s w (.ok a, s', w')
  | err {b s w e s' w'} : l.cond b = true → l.body b env s w = (.err e, s', w') →
      Ends l env 1 b s w (.err e, s', w')
  | panic {b s w m s' w'} : l.cond b = true → l.body b env s w = (.panic m, s', w') →
      Ends l env 1 b s w (.panic m, s', w')
  | crash {b s w s' w'} : l.cond b = true → l.body b env s w = (.crash, s', w') →
      Ends l env 1 b s w (.crash, s', w')
  | again {n b s w b' s' w' out} : l.cond b = true →
      l.body b env s w = (.ok (.inl b'), s', w') → Ends l env n b' s' w' out →
      Ends l env (n + 1) b s w out

/-- The loop cut off after `fuel` runs of its body. -/
def run (l : While ν ε σ β α) : Nat → β → Fx ν ε σ α
  | 0, b => pure (l.after b)
  | fuel + 1, b =>
    if l.cond b then do
      match ← l.body b with
      | .inl b' => l.run fuel b'
      | .inr a => pure a
    else pure (l.after b)

variable {l : While ν ε σ β α} {env : Env ν} {n fuel : Nat} {b : β} {s : σ} {w : World ν}
  {out : Res ε α × σ × World ν}

theorem run_of_cond_false (h : l.cond b = false) : l.run fuel b = pure (l.after b) := by
  cases fuel with
  | zero => rfl
  | succ fuel =>
    rw [run, h]
    rfl

theorem run_succ (h : l.cond b = true) (env : Env ν) (s : σ) (w : World ν) :
    l.run (fuel + 1) b env s w = (l.body b >>= fun t => match t with
      | .inl b' => l.run fuel b'
      | .inr a => pure a) env s w := by
  rw [run, h]
  rfl

/-- With enough fuel the cut is not felt, so a loop ends in one way only. -/
theorem Ends.run_eq (h : Ends l env n b s w out) (hFuel : n ≤ fuel) :
    l.run fuel b env s w = out := by
  induction h generalizing fuel with
  | done hCond =>
    rw [run_of_cond_false hCond]
    rfl
  | leave hCond hBody =>
    obtain ⟨fuel, rfl⟩ := Nat.exists_eq_add_of_le' hFuel
    rw [run_succ hCond, Fx.run_bind hBody]
    rfl
  | err hCond hBody =>
    obtain ⟨fuel, rfl⟩ := Nat.exists_eq_add_of_le' hFuel
    rw [run_succ hCond]
    show Fx.bind _ _ _ _ _ = _
    rw [Fx.bind, hBody]
  | panic hCond hBody =>
    obtain ⟨fuel, rfl⟩ := Nat.exists_eq_add_of_le' hFuel
    rw [run_succ hCond]
    show Fx.bind _ _ _ _ _ = _
    rw [Fx.bind, hBody]
  | crash hCond hBody =>
    obtain ⟨fuel, rfl⟩ := Nat.exists_eq_add_of_le' hFuel
    rw [run_succ hCond]
    show Fx.bind _ _ _ _ _ = _
    rw [Fx.bind, hBody]
  | again hCond hBody _ ih =>
    obtain ⟨fuel, rfl⟩ : ∃ k, fuel = k + 1 := ⟨fuel - 1, by omega⟩
    rw [run_succ hCond, Fx.run_bind hBody]
    apply ih
    omega

/-- A loop whose body takes at least `k` off a measure that is positive while the loop goes on
ends; the number of turns is bounded by the measure. -/
theorem ends_of_progress {k : Nat} (μ : β → Nat) (hk : 0 < k)
    (hPositive : ∀ b, l.cond b = true → 0 < μ b)
    (hProgress : ∀ b env s w b' s' w', l.cond b = true →
      l.body b env s w = (.ok (.inl b'), s', w') → μ b' + k ≤ μ b)
    (env : Env ν) (b : β) (s : σ) (w : World ν) :
    ∃ n out, Ends l env n b s w out ∧ k * n < μ b + k := by
  induction hMeasure : μ b using Nat.strongRecOn generalizing b s w with
  | ind m ih =>
    subst hMeasure
    cases hCond : l.cond b with
    | false =>
      refine ⟨0, _, Ends.done hCond, ?_⟩
      omega
    | true =>
      have hPos := hPositive b hCond
      have hOne : k * 1 < μ b + k := by omega
      rcases hBody : l.body b env s w with ⟨r, s', w'⟩
      cases r with
      | err e => exact ⟨1, _, Ends.err hCond hBody, hOne⟩
      | panic m => exact ⟨1, _, Ends.panic hCond hBody, hOne⟩
      | crash => exact ⟨1, _, Ends.crash hCond hBody, hOne⟩
      | ok t =>
        cases t with
        | inr a => exact ⟨1, _, Ends.leave hCond hBody, hOne⟩
        | inl b' =>
          have hLess := hProgress b env s w b' s' w' hCond hBody
          obtain ⟨n, out, hEnds, hBound⟩ := ih (μ b') (by omega) b' s' w' rfl
          refine ⟨n + 1, out, Ends.again hCond hBody hEnds, ?_⟩
          rw [Nat.mul_succ]
          omega

end While

end Disk
