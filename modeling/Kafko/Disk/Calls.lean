import Kafko.Disk.Effect

/-!
# File-system calls and their rules

Each call consults the environment, then acts on the store. The rules below have one
premise for each thing that can happen: the call succeeds, the store itself refuses it (a
missing or an already existing file), the environment makes it fail, or the machine stops.
A handle is identified with the name of its file, which is sound as long as a file has one
open handle and is not replaced behind it.
-/

namespace Disk

variable {ν ε σ α : Type} [DecidableEq ν] [OfIo ε]

namespace Fx

/-- Performs a call: `good` is its effect, `part k` what is left when it stops after `k`
bytes, `room` the most a failing call may have written. -/
def perform (call : Call ν) (room : Nat) (good : Store ν → Except ErrorKind (α × Store ν))
    (part : Nat → Store ν → Store ν) : Fx ν ε σ α := fun env s w =>
  match env.outcome w.tick call with
  | .fail kind k => (.err (OfIo.ofIo kind), s, ⟨part (min k room) w.store, w.tick + 1⟩)
  | .crash k => (.crash, s, ⟨part k w.store, w.tick + 1⟩)
  | .ok | .short _ =>
    match good w.store with
    | .ok (a, d) => (.ok a, s, ⟨d, w.tick + 1⟩)
    | .error kind => (.err (OfIo.ofIo kind), s, ⟨w.store, w.tick + 1⟩)

/-- A call that changes one existing file and cannot stop half way. -/
def onFile (call : Call ν) (name : ν) (value : File → α) (change : File → File) :
    Fx ν ε σ α :=
  perform call 0
    (fun d => match d.get name with
      | some f => .ok (value f, d.put name (change f))
      | none => .error .notFound)
    (fun _ d => d)

/-- A write through a handle: `change f bytes` is the file after `bytes` were written. -/
def writing (call : Call ν) (name : ν) (bytes : Bytes) (change : File → Bytes → File) :
    Fx ν ε σ Unit :=
  perform call (bytes.length - 1)
    (fun d => match d.get name with
      | some f => .ok ((), d.put name (change f bytes))
      | none => .error .notFound)
    (fun k d => match d.get name with
      | some f => d.put name (change f (bytes.take k))
      | none => d)

def mkdir : Fx ν ε σ Unit := perform .mkdir 0 (fun d => .ok ((), d)) (fun _ d => d)

def readDir : Fx ν ε σ (List ν) := perform .readDir 0 (fun d => .ok (d.names, d)) (fun _ d => d)

/-- Creates an empty file; refuses a name that exists. -/
def createNew (name : ν) : Fx ν ε σ Unit :=
  perform (.createNew name) 0
    (fun d => match d.get name with
      | some _ => .error .alreadyExists
      | none => .ok ((), d.put name File.empty))
    (fun _ d => d)

def openFile (name : ν) : Fx ν ε σ Unit :=
  onFile (.openFile name) name (fun _ => ()) (fun f => f.seek 0)

def metadataLen (name : ν) : Fx ν ε σ Nat :=
  onFile (.metadata name) name (fun f => f.data.length) id

def metadataMtime (name : ν) : Fx ν ε σ Int := fun env s w =>
  onFile (.metadata name) name (fun _ => env.mtime w.tick name) id env s w

def readAll (name : ν) : Fx ν ε σ Bytes := onFile (.readAll name) name File.data id

def seek (name : ν) (pos : Nat) : Fx ν ε σ Unit :=
  onFile (.seek name pos) name (fun _ => ()) (fun f => f.seek pos)

def setLen (name : ν) (len : Nat) : Fx ν ε σ Unit :=
  onFile (.setLen name len) name (fun _ => ()) (fun f => f.setLen len)

def syncData (name : ν) : Fx ν ε σ Unit :=
  onFile (.syncData name) name (fun _ => ()) File.sync

/-- One `read` call: the bytes from the handle's position, fewer if the environment says
so, but none only at the end of the file. -/
def read (name : ν) (len : Nat) : Fx ν ε σ Bytes := fun env s w =>
  let limit := match env.outcome w.tick (.read name len) with
    | .short n => min len (max n 1)
    | _ => len
  onFile (.read name len) name (fun f => f.peek limit)
    (fun f => f.seek (f.pos + (f.peek limit).length)) env s w

def write (name : ν) (bytes : Bytes) : Fx ν ε σ Unit :=
  writing (.write name bytes) name bytes File.write

def append (name : ν) (bytes : Bytes) : Fx ν ε σ Unit :=
  writing (.append name bytes) name bytes File.append

def remove (name : ν) : Fx ν ε σ Unit :=
  perform (.remove name) 0
    (fun d => match d.get name with
      | some _ => .ok ((), d.erase name)
      | none => .error .notFound)
    (fun _ d => d)

end Fx

section Rules

variable {env : Env ν} {s : σ} {w : World ν}

omit [DecidableEq ν] in
theorem wp_perform {call : Call ν} {room : Nat}
    {good : Store ν → Except ErrorKind (α × Store ν)} {part : Nat → Store ν → Store ν}
    {Q : Post ν ε σ α}
    (hOk : ∀ a d, good w.store = .ok (a, d) → Q.ok a s ⟨d, w.tick + 1⟩)
    (hRefuse : ∀ kind, good w.store = .error kind →
      Q.err (OfIo.ofIo kind) s ⟨w.store, w.tick + 1⟩)
    (hFail : ∀ kind k, env.outcome w.tick call = .fail kind k →
      Q.err (OfIo.ofIo kind) s ⟨part (min k room) w.store, w.tick + 1⟩)
    (hCrash : ∀ k, env.outcome w.tick call = .crash k →
      Q.crash s ⟨part k w.store, w.tick + 1⟩) :
    wp env (Fx.perform call room good part) Q s w := by
  have hGood : Q.Holds (match good w.store with
      | .ok (a, d) => ((.ok a : Res ε α), s, (⟨d, w.tick + 1⟩ : World ν))
      | .error kind => (.err (OfIo.ofIo kind), s, ⟨w.store, w.tick + 1⟩)) := by
    cases hg : good w.store with
    | ok p => exact hOk p.1 p.2 hg
    | error kind => exact hRefuse kind hg
  unfold wp Fx.perform
  cases hOut : env.outcome w.tick call with
  | ok => exact hGood
  | short n => exact hGood
  | fail kind k => exact hFail kind k hOut
  | crash k => exact hCrash k hOut

omit [DecidableEq ν] in
/-- A call that fails in a known way. -/
theorem wp_perform_fail {call : Call ν} {room : Nat}
    {good : Store ν → Except ErrorKind (α × Store ν)} {part : Nat → Store ν → Store ν}
    {Q : Post ν ε σ α} {kind : ErrorKind} {k : Nat}
    (hFail : env.outcome w.tick call = .fail kind k)
    (hErr : Q.err (OfIo.ofIo kind) s ⟨part (min k room) w.store, w.tick + 1⟩) :
    wp env (Fx.perform call room good part) Q s w := by
  unfold wp Fx.perform
  rw [hFail]
  exact hErr

omit [DecidableEq ν] in
/-- A call that is known to fail. -/
theorem wp_perform_fails {call : Call ν} {room : Nat}
    {good : Store ν → Except ErrorKind (α × Store ν)} {part : Nat → Store ν → Store ν}
    {Q : Post ν ε σ α} (hFails : env.Fails w.tick call)
    (hErr : ∀ kind k, Q.err (OfIo.ofIo kind) s ⟨part (min k room) w.store, w.tick + 1⟩) :
    wp env (Fx.perform call room good part) Q s w := by
  obtain ⟨kind, k, hFail⟩ := hFails
  exact wp_perform_fail hFail (hErr kind k)

theorem wp_onFile {call : Call ν} {name : ν} {value : File → α} {change : File → File}
    {Q : Post ν ε σ α} {f : File} (hf : w.store.get name = some f)
    (hOk : Q.ok (value f) s ⟨w.store.put name (change f), w.tick + 1⟩)
    (hFail : ∀ kind k, env.outcome w.tick call = .fail kind k →
      Q.err (OfIo.ofIo kind) s ⟨w.store, w.tick + 1⟩)
    (hCrash : ∀ k, env.outcome w.tick call = .crash k → Q.crash s ⟨w.store, w.tick + 1⟩) :
    wp env (Fx.onFile call name value change) Q s w := by
  refine wp_perform ?_ ?_ hFail hCrash
  · intro a d h
    simp only [hf, Except.ok.injEq, Prod.mk.injEq] at h
    obtain ⟨rfl, rfl⟩ := h
    exact hOk
  · intro kind h
    simp [hf] at h

theorem wp_writing {call : Call ν} {name : ν} {bytes : Bytes}
    {change : File → Bytes → File} {Q : Post ν ε σ Unit} {f : File}
    (hf : w.store.get name = some f)
    (hOk : Q.ok () s ⟨w.store.put name (change f bytes), w.tick + 1⟩)
    (hFail : ∀ kind k, env.outcome w.tick call = .fail kind k →
      Q.err (OfIo.ofIo kind) s
        ⟨w.store.put name (change f (bytes.take (min k (bytes.length - 1)))), w.tick + 1⟩)
    (hCrash : ∀ k, env.outcome w.tick call = .crash k →
      Q.crash s ⟨w.store.put name (change f (bytes.take k)), w.tick + 1⟩) :
    wp env (Fx.writing call name bytes change) Q s w := by
  refine wp_perform ?_ ?_ ?_ ?_
  · intro a d h
    simp only [hf, Except.ok.injEq, Prod.mk.injEq] at h
    obtain ⟨-, rfl⟩ := h
    exact hOk
  · intro kind h
    simp [hf] at h
  · intro kind k h
    simpa only [hf] using hFail kind k h
  · intro k h
    simpa only [hf] using hCrash k h

/-- A write that fails in a known way. -/
theorem wp_writing_fail {call : Call ν} {name : ν} {bytes : Bytes}
    {change : File → Bytes → File} {Q : Post ν ε σ Unit} {f : File} {kind : ErrorKind} {k : Nat}
    (hf : w.store.get name = some f) (hFail : env.outcome w.tick call = .fail kind k)
    (hErr : Q.err (OfIo.ofIo kind) s
      ⟨w.store.put name (change f (bytes.take (min k (bytes.length - 1)))), w.tick + 1⟩) :
    wp env (Fx.writing call name bytes change) Q s w := by
  apply wp_perform_fail hFail
  simpa only [hf] using hErr

omit [DecidableEq ν] in
theorem wp_mkdir {Q : Post ν ε σ Unit} (hOk : Q.ok () s ⟨w.store, w.tick + 1⟩)
    (hFail : ∀ kind k, env.outcome w.tick .mkdir = .fail kind k →
      Q.err (OfIo.ofIo kind) s ⟨w.store, w.tick + 1⟩)
    (hCrash : ∀ k, env.outcome w.tick .mkdir = .crash k → Q.crash s ⟨w.store, w.tick + 1⟩) :
    wp env Fx.mkdir Q s w := by
  refine wp_perform ?_ ?_ hFail hCrash
  · intro a d h
    cases h
    exact hOk
  · intro kind h
    cases h

omit [DecidableEq ν] in
theorem wp_readDir {Q : Post ν ε σ (List ν)}
    (hOk : Q.ok w.store.names s ⟨w.store, w.tick + 1⟩)
    (hFail : ∀ kind k, env.outcome w.tick .readDir = .fail kind k →
      Q.err (OfIo.ofIo kind) s ⟨w.store, w.tick + 1⟩)
    (hCrash : ∀ k, env.outcome w.tick .readDir = .crash k →
      Q.crash s ⟨w.store, w.tick + 1⟩) :
    wp env Fx.readDir Q s w := by
  refine wp_perform ?_ ?_ hFail hCrash
  · intro a d h
    cases h
    exact hOk
  · intro kind h
    cases h

theorem wp_createNew {name : ν} {Q : Post ν ε σ Unit} (hNew : w.store.get name = none)
    (hOk : Q.ok () s ⟨w.store.put name File.empty, w.tick + 1⟩)
    (hFail : ∀ kind k, env.outcome w.tick (.createNew name) = .fail kind k →
      Q.err (OfIo.ofIo kind) s ⟨w.store, w.tick + 1⟩)
    (hCrash : ∀ k, env.outcome w.tick (.createNew name) = .crash k →
      Q.crash s ⟨w.store, w.tick + 1⟩) :
    wp env (Fx.createNew name) Q s w := by
  refine wp_perform ?_ ?_ hFail hCrash
  · intro a d h
    simp only [hNew, Except.ok.injEq, Prod.mk.injEq] at h
    obtain ⟨-, rfl⟩ := h
    exact hOk
  · intro kind h
    simp [hNew] at h

theorem wp_metadataMtime {name : ν} {Q : Post ν ε σ Int} {f : File}
    (hf : w.store.get name = some f)
    (hOk : Q.ok (env.mtime w.tick name) s ⟨w.store.put name f, w.tick + 1⟩)
    (hFail : ∀ kind k, env.outcome w.tick (.metadata name) = .fail kind k →
      Q.err (OfIo.ofIo kind) s ⟨w.store, w.tick + 1⟩)
    (hCrash : ∀ k, env.outcome w.tick (.metadata name) = .crash k →
      Q.crash s ⟨w.store, w.tick + 1⟩) :
    wp env (Fx.metadataMtime name) Q s w := by
  change wp env (Fx.onFile (.metadata name) name (fun _ => env.mtime w.tick name) id) Q s w
  exact wp_onFile hf hOk hFail hCrash

/-- The rule for a read that is not cut short. -/
theorem wp_read {name : ν} {len : Nat} {Q : Post ν ε σ Bytes} {f : File}
    (hFull : env.FullReads) (hf : w.store.get name = some f)
    (hOk : Q.ok (f.peek len) s
      ⟨w.store.put name (f.seek (f.pos + (f.peek len).length)), w.tick + 1⟩)
    (hFail : ∀ kind k, env.outcome w.tick (.read name len) = .fail kind k →
      Q.err (OfIo.ofIo kind) s ⟨w.store, w.tick + 1⟩)
    (hCrash : ∀ k, env.outcome w.tick (.read name len) = .crash k →
      Q.crash s ⟨w.store, w.tick + 1⟩) :
    wp env (Fx.read name len) Q s w := by
  have hLimit : (match env.outcome w.tick (.read name len) with
      | .short n => min len (max n 1)
      | _ => len) = len := by
    cases hOut : env.outcome w.tick (.read name len) with
    | short n => exact absurd hOut (hFull _ _ _)
    | ok => rfl
    | fail kind k => rfl
    | crash k => rfl
  unfold wp Fx.read
  simp only [hLimit]
  exact wp_onFile hf hOk hFail hCrash

/-- Removing a file that may be absent: the caller decides what a refusal means. -/
theorem wp_remove {name : ν} {Q : Post ν ε σ Unit}
    (hOk : ∀ f, w.store.get name = some f → Q.ok () s ⟨w.store.erase name, w.tick + 1⟩)
    (hMissing : w.store.get name = none →
      Q.err (OfIo.ofIo .notFound) s ⟨w.store, w.tick + 1⟩)
    (hFail : ∀ kind k, env.outcome w.tick (.remove name) = .fail kind k →
      Q.err (OfIo.ofIo kind) s ⟨w.store, w.tick + 1⟩)
    (hCrash : ∀ k, env.outcome w.tick (.remove name) = .crash k →
      Q.crash s ⟨w.store, w.tick + 1⟩) :
    wp env (Fx.remove name) Q s w := by
  refine wp_perform ?_ ?_ hFail hCrash
  · intro a d h
    cases hf : w.store.get name with
    | none => simp [hf] at h
    | some f =>
      simp only [hf, Except.ok.injEq, Prod.mk.injEq] at h
      obtain ⟨-, rfl⟩ := h
      exact hOk f hf
  · intro kind h
    cases hf : w.store.get name with
    | none =>
      simp only [hf, Except.error.injEq] at h
      subst h
      exact hMissing hf
    | some f => simp [hf] at h

end Rules

omit [DecidableEq ν] in
/-- A file-system call changes the directory only. -/
theorem Fx.Leaves.perform {τ : Type} {part : σ → τ} (call : Call ν) (room : Nat)
    (good : Store ν → Except ErrorKind (α × Store ν)) (stop : Nat → Store ν → Store ν) :
    Fx.Leaves part (Fx.perform call room good stop : Fx ν ε σ α) := by
  intro env s w
  unfold Fx.perform
  cases env.outcome w.tick call with
  | fail kind k => rfl
  | crash k => rfl
  | ok =>
    dsimp only
    split <;> rfl
  | short n =>
    dsimp only
    split <;> rfl

omit [DecidableEq ν] in
theorem Fx.Blind.perform (call : Call ν) (room : Nat)
    (good : Store ν → Except ErrorKind (α × Store ν)) (stop : Nat → Store ν → Store ν) :
    Fx.Blind (Fx.perform call room good stop : Fx ν ε σ α) := by
  intro env w
  unfold Fx.perform
  cases env.outcome w.tick call with
  | fail kind k => exact ⟨_, _, fun _ => rfl⟩
  | crash k => exact ⟨_, _, fun _ => rfl⟩
  | ok => cases good w.store <;> exact ⟨_, _, fun _ => rfl⟩
  | short n => cases good w.store <;> exact ⟨_, _, fun _ => rfl⟩

end Disk
