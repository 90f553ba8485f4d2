import Kafko.Disk.Calls

/-!
# Which files exist

Only `createNew` and `remove` change the set of names. A computation built from the other calls
keeps each of them however it ends (`Fx.Keeps`), which is what a failed or interrupted computation
leaves to its successors when nothing is known about the bytes.
-/

namespace Disk

namespace Store

variable {ν : Type} [DecidableEq ν] {d d' : Store ν} {name : ν}

/-- No file appears and none goes away. -/
def SameNames (d d' : Store ν) : Prop := ∀ name, (d'.get name).isSome = (d.get name).isSome

theorem Updates.sameNames {g : File} (h : d.Updates d' name g) (hf : (d.get name).isSome) :
    d.SameNames d' := by
  intro other
  by_cases hEq : other = name
  · rw [hEq, h.self, hf]
    rfl
  · rw [h.others other hEq]

theorem isSome_put (d : Store ν) (name other : ν) (f : File) :
    ((d.put name f).get other).isSome ↔ other = name ∨ (d.get other).isSome := by
  by_cases hEq : other = name
  · simp [hEq]
  · simp [get_put_of_ne d f hEq, hEq]

end Store

/-! ## However a computation ends -/

section

variable {ν ε σ τ α β : Type} [DecidableEq ν] {env : Env ν} {s : σ} {w : World ν}

/-- One predicate for every way to end. -/
def Post.always (P : σ → World ν → Prop) : Post ν ε σ α := ⟨fun _ => P, fun _ => P, fun _ => P, P⟩

omit [DecidableEq ν] in
theorem wp_always_mono {m : Fx ν ε σ α} {P Q : σ → World ν → Prop}
    (hm : wp env m (Post.always P) s w) (hEnd : ∀ s' w', P s' w' → Q s' w') :
    wp env m (Post.always Q) s w :=
  wp_mono hm (fun _ => hEnd) (fun _ => hEnd) (fun _ => hEnd) hEnd

omit [DecidableEq ν] in
theorem end_of_always {m : Fx ν ε σ α} {P : σ → World ν → Prop}
    (hm : wp env m (Post.always P) s w) {r : Res ε α} {s' : σ} {w' : World ν}
    (hRun : m env s w = (r, s', w')) : P s' w' := by
  unfold wp at hm
  rw [hRun] at hm
  cases r with
  | ok a => exact hm
  | err e => exact hm
  | panic p => exact hm
  | crash => exact hm

/-- However `m` ends, a file of this name exists if it existed before. -/
def Fx.Keeps (name : ν) (m : Fx ν ε σ α) : Prop :=
  ∀ (env : Env ν) (s : σ) (w : World ν),
    ((m env s w).2.2.store.get name).isSome = (w.store.get name).isSome

namespace Fx.Keeps

variable {name : ν}

theorem always {m : Fx ν ε σ α} {S : ν → Prop} (h : ∀ name, S name → Fx.Keeps name m) :
    wp env m (Post.always fun _ w' => ∀ name, S name →
      (w'.store.get name).isSome = (w.store.get name).isSome) s w := by
  have hEnd : ∀ name, S name →
      ((m env s w).2.2.store.get name).isSome = (w.store.get name).isSome :=
    fun name hName => h name hName env s w
  unfold wp
  rcases hRun : m env s w with ⟨r, s', w'⟩
  rw [hRun] at hEnd
  cases r with
  | ok a => exact hEnd
  | err e => exact hEnd
  | panic p => exact hEnd
  | crash => exact hEnd

theorem pure (a : α) : Fx.Keeps name (Pure.pure a : Fx ν ε σ α) := fun _ _ _ => rfl

theorem get : Fx.Keeps name (Fx.get : Fx ν ε σ σ) := fun _ _ _ => rfl

theorem modify (f : σ → σ) : Fx.Keeps name (Fx.modify f : Fx ν ε σ Unit) := fun _ _ _ => rfl

theorem lift (r : Res ε α) : Fx.Keeps name (Fx.lift r : Fx ν ε σ α) := fun _ _ _ => rfl

theorem panic (message : String) : Fx.Keeps name (Fx.panic message : Fx ν ε σ α) :=
  fun _ _ _ => rfl

theorem bind {m : Fx ν ε σ α} {f : α → Fx ν ε σ β} (h : Fx.Keeps name m)
    (hf : ∀ a, Fx.Keeps name (f a)) : Fx.Keeps name (m >>= f) := by
  intro env s w
  have hm := h env s w
  change ((Fx.bind m f env s w).2.2.store.get name).isSome = _
  unfold Fx.bind
  rcases hRun : m env s w with ⟨r, s', w'⟩
  rw [hRun] at hm
  cases r with
  | ok a => exact (hf a env s' w').trans hm
  | err e => exact hm
  | panic p => exact hm
  | crash => exact hm

theorem zoom {part : σ → τ} {update : σ → τ → σ} {m : Fx ν ε τ α} (h : Fx.Keeps name m) :
    Fx.Keeps name (Fx.zoom part update m) := fun env s w => h env (part s) w

theorem withLocal {init : τ} {m : Fx ν ε τ α} (h : Fx.Keeps name m) :
    Fx.Keeps name (Fx.withLocal init m : Fx ν ε σ (α × τ)) := by
  intro env s w
  have hm := h env init w
  unfold Fx.withLocal
  rcases hRun : m env init w with ⟨r, t, w'⟩
  rw [hRun] at hm
  cases r with
  | ok a => exact hm
  | err e => exact hm
  | panic p => exact hm
  | crash => exact hm

theorem recover {m : Fx ν ε σ α} {handler : ε → Option α} (h : Fx.Keeps name m) :
    Fx.Keeps name (Fx.recover m handler) := by
  intro env s w
  have hm := h env s w
  unfold Fx.recover
  rcases hRun : m env s w with ⟨r, s', w'⟩
  rw [hRun] at hm
  cases r with
  | ok a => exact hm
  | err e =>
    dsimp only
    cases handler e with
    | some a => exact hm
    | none => exact hm
  | panic p => exact hm
  | crash => exact hm

variable [OfIo ε]

theorem perform {call : Call ν} {room : Nat} {good : Store ν → Except ErrorKind (α × Store ν)}
    {part : Nat → Store ν → Store ν}
    (hGood : ∀ d a d', good d = .ok (a, d') → (d'.get name).isSome = (d.get name).isSome)
    (hPart : ∀ k d, ((part k d).get name).isSome = (d.get name).isSome) :
    Fx.Keeps name (Fx.perform call room good part : Fx ν ε σ α) := by
  intro env s w
  have hEnd : wp env (Fx.perform call room good part : Fx ν ε σ α) (Post.always fun _ w' =>
      (w'.store.get name).isSome = (w.store.get name).isSome) s w := by
    apply wp_perform
    · intro _ d hDone
      exact hGood _ _ _ hDone
    · intro _ _
      rfl
    · intro _ _ _
      exact hPart _ _
    · intro _ _
      exact hPart _ _
  exact end_of_always hEnd rfl

theorem onFile (call : Call ν) (other : ν) (value : File → α) (change : File → File) :
    Fx.Keeps name (Fx.onFile call other value change : Fx ν ε σ α) := by
  refine perform ?_ (fun _ _ => rfl)
  intro d a d' hGood
  cases hf : d.get other with
  | none => simp [hf] at hGood
  | some f =>
    simp only [hf, Except.ok.injEq, Prod.mk.injEq] at hGood
    obtain ⟨-, rfl⟩ := hGood
    exact (Store.updates_put d other (change f)).sameNames (by rw [hf]; rfl) name

theorem mkdir : Fx.Keeps name (Fx.mkdir : Fx ν ε σ Unit) := by
  refine perform ?_ (fun _ _ => rfl)
  intro d a d' hGood
  cases hGood
  rfl

theorem readDir : Fx.Keeps name (Fx.readDir : Fx ν ε σ (List ν)) := by
  refine perform ?_ (fun _ _ => rfl)
  intro d a d' hGood
  cases hGood
  rfl

theorem writing (call : Call ν) (other : ν) (bytes : Bytes) (change : File → Bytes → File) :
    Fx.Keeps name (Fx.writing call other bytes change : Fx ν ε σ Unit) := by
  refine perform ?_ ?_
  · intro d a d' hGood
    cases hf : d.get other with
    | none => simp [hf] at hGood
    | some f =>
      simp only [hf, Except.ok.injEq, Prod.mk.injEq] at hGood
      obtain ⟨-, rfl⟩ := hGood
      exact (Store.updates_put d other _).sameNames (by rw [hf]; rfl) name
  · intro k d
    cases hf : d.get other with
    | none => rfl
    | some f => exact (Store.updates_put d other _).sameNames (by rw [hf]; rfl) name

theorem read (other : ν) (len : Nat) : Fx.Keeps name (Fx.read other len : Fx ν ε σ Bytes) :=
  fun env s w => onFile _ _ _ _ env s w

theorem createNew {other : ν} (hNe : name ≠ other) :
    Fx.Keeps name (Fx.createNew other : Fx ν ε σ Unit) := by
  refine perform ?_ (fun _ _ => rfl)
  intro d a d' hGood
  cases hf : d.get other with
  | some f => simp [hf] at hGood
  | none =>
    simp only [hf, Except.ok.injEq, Prod.mk.injEq] at hGood
    obtain ⟨-, rfl⟩ := hGood
    rw [Store.get_put_of_ne _ _ hNe]

theorem remove {other : ν} (hNe : name ≠ other) :
    Fx.Keeps name (Fx.remove other : Fx ν ε σ Unit) := by
  refine perform ?_ (fun _ _ => rfl)
  intro d a d' hGood
  cases hf : d.get other with
  | none => simp [hf] at hGood
  | some f =>
    simp only [hf, Except.ok.injEq, Prod.mk.injEq] at hGood
    obtain ⟨-, rfl⟩ := hGood
    rw [Store.get_erase_of_ne _ hNe]

end Fx.Keeps

end

end Disk
