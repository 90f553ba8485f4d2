import Kafko.Disk.Calls

/-!
# Reads that come in pieces

`read` may return fewer bytes than the buffer holds. `Env.delivered` is what one call returns
at most, and `Env.Smooth` says that nothing else goes wrong. `Post.orStuck` describes a program
by its good outcome and by a fact about its input that every other outcome of a smooth run
reveals; two rules carry it through a program.
-/

namespace Disk

namespace Env

variable {ν : Type} {env : Env ν}

/-- No call fails and the machine does not stop. Reads may be short. -/
def Smooth (env : Env ν) : Prop :=
  ∀ tick call, env.outcome tick call = .ok ∨ ∃ n, env.outcome tick call = .short n

theorem Quiet.smooth (h : env.Quiet) : env.Smooth := fun tick call => Or.inl (h tick call)

theorem Smooth.not_fail (h : env.Smooth) {tick : Nat} {call : Call ν} {kind : ErrorKind} {k : Nat}
    (hFail : env.outcome tick call = .fail kind k) : False := by
  rcases h tick call with hOk | ⟨n, hShort⟩
  · rw [hOk] at hFail
    cases hFail
  · rw [hShort] at hFail
    cases hFail

theorem Smooth.not_crash (h : env.Smooth) {tick : Nat} {call : Call ν} {k : Nat}
    (hCrash : env.outcome tick call = .crash k) : False := by
  rcases h tick call with hOk | ⟨n, hShort⟩
  · rw [hOk] at hCrash
    cases hCrash
  · rw [hShort] at hCrash
    cases hCrash

/-- How many bytes a read into a buffer of `len` bytes returns, if the file has as many. -/
def delivered (env : Env ν) (tick : Nat) (name : ν) (len : Nat) : Nat :=
  match env.outcome tick (.read name len) with
  | .short n => min len (max n 1)
  | _ => len

/-- Only a read into an empty buffer may return nothing. -/
theorem delivered_pos (env : Env ν) (tick : Nat) (name : ν) {len : Nat} (h : 0 < len) :
    0 < env.delivered tick name len := by
  unfold delivered
  split
  · omega
  · exact h

theorem FullReads.delivered (h : env.FullReads) (tick : Nat) (name : ν) (len : Nat) :
    env.delivered tick name len = len := by
  unfold Env.delivered
  split
  · next n hShort => exact absurd hShort (h _ _ _)
  · rfl

end Env

/-- A zeroed buffer as long as the file, after one read into it. -/
def zeroFilled (n : Nat) (bytes : Bytes) : Bytes :=
  bytes.take n ++ List.replicate (bytes.length - (bytes.take n).length) 0

theorem zeroFilled_length (n : Nat) (bytes : Bytes) : (zeroFilled n bytes).length = bytes.length := by
  simp only [zeroFilled, List.length_append, List.length_replicate, List.length_take]
  omega

@[simp] theorem zeroFilled_full (bytes : Bytes) : zeroFilled bytes.length bytes = bytes := by
  simp [zeroFilled]

section

variable {ν ε σ α β : Type}

/-- The program ends in `ok`, or the run was not smooth, or `stuck` holds. -/
def Post.orStuck (env : Env ν) (ok : α → σ → World ν → Prop) (stuck : Prop) : Post ν ε σ α where
  ok := ok
  err := fun _ _ _ => env.Smooth → stuck
  panic := fun _ _ _ => env.Smooth → stuck
  crash := fun _ _ => env.Smooth → stuck

variable {env : Env ν} {s : σ} {w : World ν} {stuck stuck' : Prop}

theorem wp_orStuck_bind {m : Fx ν ε σ α} {f : α → Fx ν ε σ β} {P : α → σ → World ν → Prop}
    {Q : β → σ → World ν → Prop} (hm : wp env m (Post.orStuck env P stuck) s w)
    (hStuck : stuck → stuck')
    (hf : ∀ a s' w', P a s' w' → wp env (f a) (Post.orStuck env Q stuck') s' w') :
    wp env (m >>= f) (Post.orStuck env Q stuck') s w :=
  wp_bind_of hm hf (fun _ _ _ h hSmooth => hStuck (h hSmooth))
    (fun _ _ _ h hSmooth => hStuck (h hSmooth)) (fun _ _ h hSmooth => hStuck (h hSmooth))

theorem wp_orStuck_mono {m : Fx ν ε σ α} {P Q : α → σ → World ν → Prop}
    (hm : wp env m (Post.orStuck env P stuck) s w) (hOk : ∀ a s' w', P a s' w' → Q a s' w')
    (hStuck : stuck → stuck') : wp env m (Post.orStuck env Q stuck') s w :=
  wp_mono hm hOk (fun _ _ _ h hSmooth => hStuck (h hSmooth))
    (fun _ _ _ h hSmooth => hStuck (h hSmooth)) (fun _ _ h hSmooth => hStuck (h hSmooth))

/-- A smooth run that is not stuck is good. -/
theorem run_of_orStuck {m : Fx ν ε σ α} {P : α → σ → World ν → Prop}
    (hm : wp env m (Post.orStuck env P stuck) s w) (hSmooth : env.Smooth) (hNot : ¬ stuck) :
    ∃ a s' w', m env s w = (.ok a, s', w') ∧ P a s' w' := by
  unfold wp at hm
  rcases hRun : m env s w with ⟨r, s', w'⟩
  rw [hRun] at hm
  cases r with
  | ok a => exact ⟨a, s', w', rfl, hm⟩
  | err e => exact absurd (hm hSmooth) hNot
  | panic p => exact absurd (hm hSmooth) hNot
  | crash => exact absurd (hm hSmooth) hNot

variable [DecidableEq ν] [OfIo ε]

theorem wp_orStuck_onFile {call : Call ν} {name : ν} {value : File → α} {change : File → File}
    {Q : α → σ → World ν → Prop} {f : File} (hf : w.store.get name = some f)
    (hOk : Q (value f) s ⟨w.store.put name (change f), w.tick + 1⟩) :
    wp env (Fx.onFile call name value change : Fx ν ε σ α) (Post.orStuck env Q stuck) s w :=
  wp_onFile hf hOk (fun _ _ hFail hSmooth => (hSmooth.not_fail hFail).elim)
    (fun _ hCrash hSmooth => (hSmooth.not_crash hCrash).elim)

theorem wp_orStuck_read {name : ν} {len : Nat} {Q : Bytes → σ → World ν → Prop} {f : File}
    (hf : w.store.get name = some f)
    (hOk : ∀ bytes, bytes = f.peek (env.delivered w.tick name len) →
      Q bytes s ⟨w.store.put name (f.seek (f.pos + bytes.length)), w.tick + 1⟩) :
    wp env (Fx.read name len : Fx ν ε σ Bytes) (Post.orStuck env Q stuck) s w :=
  wp_orStuck_onFile hf (hOk _ rfl)

theorem wp_orStuck_createNew {name : ν} {Q : Unit → σ → World ν → Prop}
    (hNew : env.Smooth → w.store.get name = none)
    (hOk : Q () s ⟨w.store.put name File.empty, w.tick + 1⟩) :
    wp env (Fx.createNew name : Fx ν ε σ Unit) (Post.orStuck env Q stuck) s w := by
  refine wp_perform ?_ ?_ (fun _ _ hFail hSmooth => (hSmooth.not_fail hFail).elim)
    (fun _ hCrash hSmooth => (hSmooth.not_crash hCrash).elim)
  · intro a d h
    cases hf : w.store.get name with
    | none =>
      simp only [hf, Except.ok.injEq, Prod.mk.injEq] at h
      obtain ⟨-, rfl⟩ := h
      exact hOk
    | some f => simp [hf] at h
  · intro kind h hSmooth
    simp [hNew hSmooth] at h

end

end Disk
