import Kafko.Disk.Store

/-!
# Programs that call the file system

`Fx ν ε σ α` is a computation over in-memory state `σ` and a directory with names in `ν`.
It ends in one of four ways (`Res`): a value, a returned error, a panic, or a crash of the
machine in the middle of a call. Both the memory and the directory keep whatever was done
before, also when the computation does not end in a value.

Every file-system call asks the environment (`Env`) what happens to it. The environment is
an arbitrary function of the number of calls made so far and of the call itself, so a
statement about every environment covers every pattern of failures and every crash point.

`wp` is the weakest precondition of a computation; its rules let a proof walk through a
program once and collect, for each call, what has to hold if it succeeds, if it fails, and
if the machine stops there.
-/

namespace Disk

/-! ## Results -/

inductive ErrorKind
  | notFound
  | alreadyExists
  | storageFull
  | permissionDenied
  | other
  deriving DecidableEq, Repr

/-- How a computation ends. -/
inductive Res (ε α : Type)
  | ok (a : α)
  | err (e : ε)
  | panic (message : String)
  | crash
  deriving DecidableEq, Repr

namespace Res

variable {ε α β : Type}

def bind (r : Res ε α) (f : α → Res ε β) : Res ε β :=
  match r with
  | ok a => f a
  | err e => err e
  | panic m => panic m
  | crash => crash

instance : Monad (Res ε) where
  pure := ok
  bind := bind

/-- A loop over a list whose body gets the index and replaces the element. -/
def forEach (body : Nat → α → Res ε β) : Nat → List α → Res ε (List β)
  | _, [] => ok []
  | i, a :: as => do
    let b ← body i a
    let bs ← forEach body (i + 1) as
    ok (b :: bs)

/-- `if c { return Err(e) }`. -/
def failIf (c : Prop) [Decidable c] (e : ε) : Res ε Unit := if c then err e else ok ()

@[simp] theorem pure_eq (a : α) : (pure a : Res ε α) = ok a := rfl

@[simp] theorem ok_bind (a : α) (f : α → Res ε β) : ok a >>= f = f a := rfl

@[simp] theorem err_bind (e : ε) (f : α → Res ε β) : err e >>= f = err e := rfl

theorem bind_eq_ok {r : Res ε α} {f : α → Res ε β} {b : β} :
    r >>= f = ok b ↔ ∃ a, r = ok a ∧ f a = ok b := by
  cases r with
  | ok a => simp
  | err e => simp
  | panic m =>
    constructor
    · intro h
      cases h
    · rintro ⟨_, h, _⟩
      cases h
  | crash =>
    constructor
    · intro h
      cases h
    · rintro ⟨_, h, _⟩
      cases h

theorem forEach_ok {body : Nat → α → Res ε β} {i : Nat} {as : List α} {bs : List β}
    (h : forEach body i as = ok bs) {k : Nat} {a : α} (ha : as[k]? = some a) :
    ∃ b, bs[k]? = some b ∧ body (i + k) a = ok b := by
  induction as generalizing i bs k with
  | nil => simp at ha
  | cons a' as ih =>
    rw [forEach] at h
    obtain ⟨b', hb', hRest⟩ := bind_eq_ok.mp h
    obtain ⟨rest, hRest', hEq⟩ := bind_eq_ok.mp hRest
    cases hEq
    cases k with
    | zero =>
      obtain rfl : a' = a := by simpa using ha
      exact ⟨b', by simp, hb'⟩
    | succ k =>
      obtain ⟨b, hb, hBody⟩ := ih hRest' (k := k) (by simpa using ha)
      refine ⟨b, by simpa using hb, ?_⟩
      rwa [Nat.add_assoc, Nat.add_comm 1 k] at hBody

theorem failIf_pos {c : Prop} [Decidable c] (h : c) (e : ε) : failIf c e = err e := if_pos h

theorem failIf_neg {c : Prop} [Decidable c] (h : ¬ c) (e : ε) : failIf c e = ok () := if_neg h

/-- The computation ends in a value or in a returned error. -/
def Returns (r : Res ε α) : Prop := (∃ a, r = ok a) ∨ ∃ e, r = err e

theorem returns_ok (a : α) : Returns (ok a : Res ε α) := Or.inl ⟨a, rfl⟩

theorem returns_err (e : ε) : Returns (err e : Res ε α) := Or.inr ⟨e, rfl⟩

theorem Returns.bind {r : Res ε α} {f : α → Res ε β} (h : Returns r)
    (hf : ∀ a, r = ok a → Returns (f a)) : Returns (r >>= f) := by
  rcases h with ⟨a, rfl⟩ | ⟨e, rfl⟩
  · exact hf a rfl
  · exact returns_err e

/-- What stands behind a guard is only run where the guard lets it through. -/
theorem returns_failIf_bind {c : Prop} [Decidable c] {e : ε} {f : Unit → Res ε β}
    (hf : ¬ c → Returns (f ())) : Returns (failIf c e >>= f) := by
  by_cases hc : c
  · rw [failIf_pos hc]
    exact returns_err e
  · rw [failIf_neg hc]
    exact hf hc

end Res

/-! ## The environment -/

/-- A file-system call, as the environment sees it. -/
inductive Call (ν : Type)
  | mkdir
  | readDir
  | createNew (name : ν)
  | openFile (name : ν)
  | metadata (name : ν)
  | readAll (name : ν)
  | seek (name : ν) (pos : Nat)
  | read (name : ν) (len : Nat)
  | write (name : ν) (bytes : Bytes)
  | append (name : ν) (bytes : Bytes)
  | setLen (name : ν) (len : Nat)
  | syncData (name : ν)
  | remove (name : ν)
  deriving DecidableEq, Repr

/-- What the environment does with one call. A failing or crashing write has already
written the given number of bytes; a short read returns at most the given number. -/
inductive Outcome
  | ok
  | fail (kind : ErrorKind) (written : Nat)
  | short (len : Nat)
  | crash (written : Nat)
  deriving DecidableEq, Repr

structure Env (ν : Type) where
  /-- The fate of the call made after `tick` earlier ones. -/
  outcome : (tick : Nat) → Call ν → Outcome
  /-- The system clock, in milliseconds since the epoch. -/
  clock : (tick : Nat) → Int
  /-- The modification time of a file, in milliseconds since the epoch. -/
  mtime : (tick : Nat) → ν → Int

namespace Env

variable {ν : Type}

/-- No call fails, no read is short, nothing crashes. -/
def Quiet (env : Env ν) : Prop := ∀ tick call, env.outcome tick call = .ok

/-- Every read returns as much as it can. -/
def FullReads (env : Env ν) : Prop := ∀ tick call n, env.outcome tick call ≠ .short n

theorem Quiet.fullReads {env : Env ν} (h : env.Quiet) : env.FullReads := by
  intro tick call n hn
  rw [h tick call] at hn
  cases hn

/-- No call returns an error of the environment's making. -/
def Steady (env : Env ν) : Prop :=
  ∀ tick call kind written, env.outcome tick call ≠ .fail kind written

/-- The machine does not stop. -/
def Alive (env : Env ν) : Prop := ∀ tick call written, env.outcome tick call ≠ .crash written

theorem Quiet.steady {env : Env ν} (h : env.Quiet) : env.Steady := by
  intro tick call kind written hFail
  rw [h tick call] at hFail
  cases hFail

theorem Quiet.alive {env : Env ν} (h : env.Quiet) : env.Alive := by
  intro tick call written hCrash
  rw [h tick call] at hCrash
  cases hCrash

theorem not_steady_of_fail {env : Env ν} {tick : Nat} {call : Call ν} {kind : ErrorKind}
    {written : Nat} (h : env.outcome tick call = .fail kind written) : ¬ env.Steady :=
  fun hSteady => hSteady _ _ _ _ h

/-- The environment makes the call fail. -/
def Fails (env : Env ν) (tick : Nat) (call : Call ν) : Prop :=
  ∃ kind written, env.outcome tick call = .fail kind written

theorem Fails.not_steady {env : Env ν} {tick : Nat} {call : Call ν} (h : env.Fails tick call) :
    ¬ env.Steady := by
  obtain ⟨kind, written, hFail⟩ := h
  exact not_steady_of_fail hFail

/-- Every call of this name fails, and no other. -/
structure FailsOnly (env : Env ν) (call : Call ν) : Prop where
  fails : ∀ tick, env.Fails tick call
  others : ∀ tick other, other ≠ call → env.outcome tick other = .ok

theorem FailsOnly.eq {env : Env ν} {call other : Call ν} {tick : Nat} (h : env.FailsOnly call)
    (hFails : env.Fails tick other) : other = call := by
  by_contra hNe
  obtain ⟨kind, written, hFail⟩ := hFails
  rw [h.others tick other hNe] at hFail
  cases hFail

theorem FailsOnly.alive {env : Env ν} {call : Call ν} (h : env.FailsOnly call) : env.Alive := by
  intro tick other written hCrash
  by_cases hCall : other = call
  · obtain ⟨kind, written', hFail⟩ := h.fails tick
    rw [hCall, hFail] at hCrash
    cases hCrash
  · rw [h.others tick other hCall] at hCrash
    cases hCrash

theorem not_alive_of_crash {env : Env ν} {tick : Nat} {call : Call ν} {written : Nat}
    (h : env.outcome tick call = .crash written) : ¬ env.Alive :=
  fun hAlive => hAlive _ _ _ h

/-- The environment in which nothing goes wrong and both clocks stand still. -/
def quiet : Env ν := ⟨fun _ _ => .ok, fun _ => 0, fun _ _ => 0⟩

theorem quiet_quiet : (quiet : Env ν).Quiet := fun _ _ => rfl

end Env

/-! ## Computations -/

/-- The part of the outside world a computation changes. -/
structure World (ν : Type) where
  store : Store ν
  tick : Nat

/-- Error types that can carry a file-system error. -/
class OfIo (ε : Type) where
  ofIo : ErrorKind → ε

def Fx (ν ε σ α : Type) : Type := Env ν → σ → World ν → Res ε α × σ × World ν

namespace Fx

variable {ν ε σ τ α β : Type}

def pure (a : α) : Fx ν ε σ α := fun _ s w => (.ok a, s, w)

def bind (m : Fx ν ε σ α) (f : α → Fx ν ε σ β) : Fx ν ε σ β := fun env s w =>
  match m env s w with
  | (.ok a, s', w') => f a env s' w'
  | (.err e, s', w') => (.err e, s', w')
  | (.panic m, s', w') => (.panic m, s', w')
  | (.crash, s', w') => (.crash, s', w')

instance : Monad (Fx ν ε σ) where
  pure := pure
  bind := bind

def get : Fx ν ε σ σ := fun _ s w => (.ok s, s, w)

def modify (f : σ → σ) : Fx ν ε σ Unit := fun _ s w => (.ok (), f s, w)

def panic (message : String) : Fx ν ε σ α := fun _ s w => (.panic message, s, w)

/-- Embeds a computation that touches neither memory nor the directory. -/
def lift (r : Res ε α) : Fx ν ε σ α := fun _ s w => (r, s, w)

/-- Runs a computation on a part of the state. -/
def zoom (part : σ → τ) (update : σ → τ → σ) (m : Fx ν ε τ α) : Fx ν ε σ α := fun env s w =>
  match m env (part s) w with
  | (r, t, w') => (r, update s t, w')

/-- Runs a computation on a local variable that starts as `init` and is returned with the
result. -/
def withLocal (init : τ) (m : Fx ν ε τ α) : Fx ν ε σ (α × τ) := fun env s w =>
  match m env init w with
  | (.ok a, t, w') => (.ok (a, t), s, w')
  | (.err e, _, w') => (.err e, s, w')
  | (.panic msg, _, w') => (.panic msg, s, w')
  | (.crash, _, w') => (.crash, s, w')

/-- Turns the errors `handler` accepts into values. -/
def recover (m : Fx ν ε σ α) (handler : ε → Option α) : Fx ν ε σ α := fun env s w =>
  match m env s w with
  | (.err e, s', w') =>
    match handler e with
    | some a => (.ok a, s', w')
    | none => (.err e, s', w')
  | r => r

/-- Hands a returned error to the caller as a value; a panic goes through. -/
def attempt (m : Fx ν ε σ α) : Fx ν ε σ (Except ε α) := fun env s w =>
  match m env s w with
  | (.ok a, s', w') => (.ok (.ok a), s', w')
  | (.err e, s', w') => (.ok (.error e), s', w')
  | (.panic msg, s', w') => (.panic msg, s', w')
  | (.crash, s', w') => (.crash, s', w')

/-- The value of a clock that never fails. -/
def now : Fx ν ε σ Int := fun env s w => (.ok (env.clock w.tick), s, w)

theorem run_bind {m : Fx ν ε σ α} {f : α → Fx ν ε σ β} {env : Env ν} {s s' : σ}
    {w w' : World ν} {a : α} (h : m env s w = (.ok a, s', w')) :
    (m >>= f) env s w = f a env s' w' := by
  change bind m f env s w = _
  rw [bind, h]

theorem run_get_bind (f : σ → Fx ν ε σ β) (env : Env ν) (s : σ) (w : World ν) :
    (get >>= f) env s w = f s env s w := rfl

/-- What comes after a computation that does not end in a value is not run. -/
theorem run_bind_stops {m : Fx ν ε σ α} (f : α → Fx ν ε σ β) {env : Env ν} {s s' : σ}
    {w w' : World ν} {r : Res ε α} (h : m env s w = (r, s', w')) (hStops : ∀ a, r ≠ .ok a) :
    ((m >>= f) env s w).2 = (s', w') := by
  change (bind m f env s w).2 = _
  rw [bind, h]
  cases r with
  | ok a => exact absurd rfl (hStops a)
  | err e => rfl
  | panic p => rfl
  | crash => rfl

theorem run_map (m : Fx ν ε σ α) (f : α → β) (env : Env ν) (s : σ) (w : World ν) :
    ((m >>= fun a => Pure.pure (f a)) env s w).2 = (m env s w).2 := by
  change (bind m (fun a => pure (f a)) env s w).2 = _
  unfold bind
  rcases m env s w with ⟨r, s', w'⟩
  cases r <;> rfl

theorem bind_eq_ok {m : Fx ν ε σ α} {f : α → Fx ν ε σ β} {env : Env ν} {s s' : σ}
    {w w' : World ν} {b : β} (h : (m >>= f) env s w = (.ok b, s', w')) :
    ∃ a s₁ w₁, m env s w = (.ok a, s₁, w₁) ∧ f a env s₁ w₁ = (.ok b, s', w') := by
  change bind m f env s w = _ at h
  unfold bind at h
  rcases hm : m env s w with ⟨r, s₁, w₁⟩
  rw [hm] at h
  cases r with
  | ok a => exact ⟨a, s₁, w₁, rfl, h⟩
  | err e => cases h
  | panic p => cases h
  | crash => cases h

theorem bind_eq_panic {m : Fx ν ε σ α} {f : α → Fx ν ε σ β} {env : Env ν} {s s' : σ}
    {w w' : World ν} {p : String} (h : (m >>= f) env s w = (.panic p, s', w')) :
    m env s w = (.panic p, s', w') ∨
      ∃ a s₁ w₁, m env s w = (.ok a, s₁, w₁) ∧ f a env s₁ w₁ = (.panic p, s', w') := by
  change bind m f env s w = _ at h
  unfold bind at h
  rcases hm : m env s w with ⟨r, s₁, w₁⟩
  rw [hm] at h
  cases r with
  | ok a => exact Or.inr ⟨a, s₁, w₁, rfl, h⟩
  | err e => cases h
  | panic p' =>
    cases h
    exact Or.inl rfl
  | crash => cases h

/-- A computation whose value is only repackaged. -/
theorem map_eq_ok {m : Fx ν ε σ α} {f : α → β} {env : Env ν} {s s' : σ} {w w' : World ν} {b : β}
    (h : (m >>= fun a => Pure.pure (f a)) env s w = (.ok b, s', w')) :
    ∃ a, b = f a ∧ m env s w = (.ok a, s', w') := by
  obtain ⟨a, s₁, w₁, hm, hf⟩ := bind_eq_ok h
  cases hf
  exact ⟨a, rfl, hm⟩

theorem bind_assoc {γ : Type} (m : Fx ν ε σ α) (f : α → Fx ν ε σ β) (g : β → Fx ν ε σ γ) :
    m >>= f >>= g = m >>= fun a => f a >>= g := by
  funext env s w
  show bind (bind m f) g env s w = bind m (fun a => bind (f a) g) env s w
  unfold bind
  rcases m env s w with ⟨r, s', w'⟩
  cases r <;> rfl

theorem bind_pure_unit (m : Fx ν ε σ Unit) : (m >>= fun _ => Pure.pure ()) = m := by
  funext env s w
  change bind m (fun _ => pure ()) env s w = m env s w
  unfold bind
  rcases m env s w with ⟨r, s', w'⟩
  cases r <;> rfl

end Fx

/-! ## Weakest preconditions -/

/-- A postcondition: one predicate for each way to end. -/
structure Post (ν ε σ α : Type) where
  ok : α → σ → World ν → Prop
  err : ε → σ → World ν → Prop
  panic : String → σ → World ν → Prop
  crash : σ → World ν → Prop

namespace Post

variable {ν ε σ α : Type}

def Holds (Q : Post ν ε σ α) : Res ε α × σ × World ν → Prop
  | (.ok a, s, w) => Q.ok a s w
  | (.err e, s, w) => Q.err e s w
  | (.panic m, s, w) => Q.panic m s w
  | (.crash, s, w) => Q.crash s w

end Post

/-- The states from which `m` can only end in `Q`. -/
def wp {ν ε σ α : Type} (env : Env ν) (m : Fx ν ε σ α) (Q : Post ν ε σ α) (s : σ)
    (w : World ν) : Prop :=
  Q.Holds (m env s w)

section Rules

variable {ν ε σ τ α β : Type} {env : Env ν} {s : σ} {w : World ν}

theorem wp_mono {m : Fx ν ε σ α} {P Q : Post ν ε σ α} (h : wp env m P s w)
    (hOk : ∀ a s' w', P.ok a s' w' → Q.ok a s' w')
    (hErr : ∀ e s' w', P.err e s' w' → Q.err e s' w')
    (hPanic : ∀ p s' w', P.panic p s' w' → Q.panic p s' w')
    (hCrash : ∀ s' w', P.crash s' w' → Q.crash s' w') : wp env m Q s w := by
  unfold wp at *
  rcases hm : m env s w with ⟨r, s', w'⟩
  rw [hm] at h
  cases r with
  | ok a => exact hOk a s' w' h
  | err e => exact hErr e s' w' h
  | panic p => exact hPanic p s' w' h
  | crash => exact hCrash s' w' h

theorem wp_pure (a : α) (Q : Post ν ε σ α) :
    wp env (Pure.pure a) Q s w ↔ Q.ok a s w := Iff.rfl

theorem wp_bind (m : Fx ν ε σ α) (f : α → Fx ν ε σ β) (Q : Post ν ε σ β) :
    wp env (m >>= f) Q s w ↔
      wp env m ⟨fun a s' w' => wp env (f a) Q s' w', Q.err, Q.panic, Q.crash⟩ s w := by
  change Q.Holds (Fx.bind m f env s w) ↔ _
  unfold wp Fx.bind
  rcases m env s w with ⟨r, s', w'⟩
  cases r <;> rfl

/-- The rule for calling a function through its specification. -/
theorem wp_bind_of {m : Fx ν ε σ α} {f : α → Fx ν ε σ β} {P : Post ν ε σ α}
    {Q : Post ν ε σ β} (h : wp env m P s w)
    (hOk : ∀ a s' w', P.ok a s' w' → wp env (f a) Q s' w')
    (hErr : ∀ e s' w', P.err e s' w' → Q.err e s' w')
    (hPanic : ∀ p s' w', P.panic p s' w' → Q.panic p s' w')
    (hCrash : ∀ s' w', P.crash s' w' → Q.crash s' w') : wp env (m >>= f) Q s w :=
  (wp_bind m f Q).mpr (wp_mono h hOk hErr hPanic hCrash)

theorem wp_get_bind (f : σ → Fx ν ε σ β) (Q : Post ν ε σ β) :
    wp env (Fx.get >>= f) Q s w ↔ wp env (f s) Q s w := Iff.rfl

theorem wp_modify (g : σ → σ) (Q : Post ν ε σ Unit) :
    wp env (Fx.modify g) Q s w ↔ Q.ok () (g s) w := Iff.rfl

theorem wp_modify_bind (g : σ → σ) (f : Unit → Fx ν ε σ β) (Q : Post ν ε σ β) :
    wp env (Fx.modify g >>= f) Q s w ↔ wp env (f ()) Q (g s) w := Iff.rfl

theorem wp_lift_ok (a : α) (Q : Post ν ε σ α) :
    wp env (Fx.lift (.ok a)) Q s w ↔ Q.ok a s w := Iff.rfl

theorem wp_lift_bind (a : α) (f : α → Fx ν ε σ β) (Q : Post ν ε σ β) :
    wp env (Fx.lift (.ok a) >>= f) Q s w ↔ wp env (f a) Q s w := Iff.rfl

theorem wp_now_bind (f : Int → Fx ν ε σ β) (Q : Post ν ε σ β) :
    wp env (Fx.now >>= f) Q s w ↔ wp env (f (env.clock w.tick)) Q s w := Iff.rfl

theorem wp_zoom (part : σ → τ) (update : σ → τ → σ) (m : Fx ν ε τ α) (Q : Post ν ε σ α) :
    wp env (Fx.zoom part update m) Q s w ↔
      wp env m ⟨fun a t w' => Q.ok a (update s t) w', fun e t w' => Q.err e (update s t) w',
        fun p t w' => Q.panic p (update s t) w', fun t w' => Q.crash (update s t) w'⟩
        (part s) w := by
  unfold wp Fx.zoom
  rcases m env (part s) w with ⟨r, t, w'⟩
  cases r <;> rfl

theorem wp_withLocal (init : τ) (m : Fx ν ε τ α) (Q : Post ν ε σ (α × τ)) :
    wp env (Fx.withLocal init m) Q s w ↔
      wp env m ⟨fun a t w' => Q.ok (a, t) s w', fun e _ w' => Q.err e s w',
        fun p _ w' => Q.panic p s w', fun _ w' => Q.crash s w'⟩ init w := by
  unfold wp Fx.withLocal
  rcases m env init w with ⟨r, t, w'⟩
  cases r <;> rfl

theorem wp_attempt (m : Fx ν ε σ α) (Q : Post ν ε σ (Except ε α)) :
    wp env (Fx.attempt m) Q s w ↔
      wp env m ⟨fun a s' w' => Q.ok (.ok a) s' w', fun e s' w' => Q.ok (.error e) s' w',
        Q.panic, Q.crash⟩ s w := by
  unfold wp Fx.attempt
  rcases m env s w with ⟨r, s', w'⟩
  cases r <;> rfl

theorem wp_recover {m : Fx ν ε σ α} {handler : ε → Option α} {Q : Post ν ε σ α}
    (h : wp env m ⟨Q.ok, fun e s' w' => match handler e with
      | some a => Q.ok a s' w'
      | none => Q.err e s' w', Q.panic, Q.crash⟩ s w) :
    wp env (Fx.recover m handler) Q s w := by
  unfold wp Fx.recover at *
  rcases hm : m env s w with ⟨r, s', w'⟩
  rw [hm] at h
  cases r with
  | ok a => exact h
  | panic p => exact h
  | crash => exact h
  | err e =>
    cases hh : handler e with
    | some a => simpa [Post.Holds, hh] using h
    | none => simpa [Post.Holds, hh] using h

/-- What a weakest precondition says about a run that is known to end in a value. -/
theorem ok_of_wp {m : Fx ν ε σ α} {Q : Post ν ε σ α} (h : wp env m Q s w) {a : α} {s' : σ}
    {w' : World ν} (hRun : m env s w = (.ok a, s', w')) : Q.ok a s' w' := by
  unfold wp at h
  rw [hRun] at h
  exact h

theorem panic_of_wp {m : Fx ν ε σ α} {Q : Post ν ε σ α} (h : wp env m Q s w) {p : String} {s' : σ}
    {w' : World ν} (hRun : m env s w = (.panic p, s', w')) : Q.panic p s' w' := by
  unfold wp at h
  rw [hRun] at h
  exact h

end Rules

/-! ## What a computation leaves alone -/

/-- However `m` ends, the given part of memory is what it was. -/
def Fx.Leaves {ν ε σ τ α : Type} (part : σ → τ) (m : Fx ν ε σ α) : Prop :=
  ∀ env s w, part (m env s w).2.1 = part s

namespace Fx.Leaves

variable {ν ε σ τ α β : Type} {part : σ → τ}

theorem pure (a : α) : Fx.Leaves part (Pure.pure a : Fx ν ε σ α) := fun _ _ _ => rfl

theorem get : Fx.Leaves part (Fx.get : Fx ν ε σ σ) := fun _ _ _ => rfl

theorem modify {f : σ → σ} (h : ∀ s, part (f s) = part s) :
    Fx.Leaves part (Fx.modify f : Fx ν ε σ Unit) := fun _ s _ => h s

theorem lift (r : Res ε α) : Fx.Leaves part (Fx.lift r : Fx ν ε σ α) := fun _ _ _ => rfl

theorem panic (message : String) : Fx.Leaves part (Fx.panic message : Fx ν ε σ α) :=
  fun _ _ _ => rfl

theorem now : Fx.Leaves part (Fx.now : Fx ν ε σ Int) := fun _ _ _ => rfl

theorem bind {m : Fx ν ε σ α} {f : α → Fx ν ε σ β} (h : Fx.Leaves part m)
    (hf : ∀ a, Fx.Leaves part (f a)) : Fx.Leaves part (m >>= f) := by
  intro env s w
  have hm := h env s w
  change part (Fx.bind m f env s w).2.1 = part s
  unfold Fx.bind
  rcases hRun : m env s w with ⟨r, s', w'⟩
  rw [hRun] at hm
  cases r with
  | ok a => exact (hf a env s' w').trans hm
  | err e => exact hm
  | panic p => exact hm
  | crash => exact hm

theorem recover {m : Fx ν ε σ α} {handler : ε → Option α} (h : Fx.Leaves part m) :
    Fx.Leaves part (Fx.recover m handler) := by
  intro env s w
  have hm := h env s w
  unfold Fx.recover
  rcases hRun : m env s w with ⟨r, s', w'⟩
  rw [hRun] at hm
  cases r with
  | ok a => exact hm
  | err e =>
    dsimp only
    cases handler e with
    | some a => exact hm
    | none => exact hm
  | panic p => exact hm
  | crash => exact hm

end Fx.Leaves

/-- `m` neither reads nor changes the memory. -/
def Fx.Blind {ν ε σ α : Type} (m : Fx ν ε σ α) : Prop :=
  ∀ env w, ∃ r w', ∀ s, m env s w = (r, s, w')

namespace Fx.Blind

variable {ν ε σ α β : Type}

theorem pure (a : α) : Fx.Blind (Pure.pure a : Fx ν ε σ α) := fun _ w => ⟨.ok a, w, fun _ => rfl⟩

theorem bind {m : Fx ν ε σ α} {f : α → Fx ν ε σ β} (h : Fx.Blind m)
    (hf : ∀ a, Fx.Blind (f a)) : Fx.Blind (m >>= f) := by
  intro env w
  obtain ⟨r, w', hRun⟩ := h env w
  cases r with
  | ok a =>
    obtain ⟨r', w'', hRest⟩ := hf a env w'
    exact ⟨r', w'', fun s => (Fx.run_bind (hRun s)).trans (hRest s)⟩
  | err e =>
    refine ⟨.err e, w', fun s => ?_⟩
    change Fx.bind m f env s w = _
    rw [Fx.bind, hRun]
  | panic p =>
    refine ⟨.panic p, w', fun s => ?_⟩
    change Fx.bind m f env s w = _
    rw [Fx.bind, hRun]
  | crash =>
    refine ⟨.crash, w', fun s => ?_⟩
    change Fx.bind m f env s w = _
    rw [Fx.bind, hRun]

theorem recover {m : Fx ν ε σ α} {handler : ε → Option α} (h : Fx.Blind m) :
    Fx.Blind (Fx.recover m handler) := by
  intro env w
  obtain ⟨r, w', hRun⟩ := h env w
  unfold Fx.recover
  simp only [hRun]
  cases r with
  | ok a => exact ⟨.ok a, w', fun _ => rfl⟩
  | panic p => exact ⟨.panic p, w', fun _ => rfl⟩
  | crash => exact ⟨.crash, w', fun _ => rfl⟩
  | err e =>
    cases hHandler : handler e with
    | some a => exact ⟨.ok a, w', fun _ => by simp only [hHandler]⟩
    | none => exact ⟨.err e, w', fun _ => by simp only [hHandler]⟩

end Fx.Blind

end Disk
