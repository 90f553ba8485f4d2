import Kafko.Disk.Store

/-!
# Names, files and handles

In a `Store` a file is known by its name. Here a directory entry refers to a file, and so
does an open handle: a handle stays with its file when the file gets another name, and two
handles may refer to one file. This is what `rename` over an existing name needs.

As in `Store`, names are durable at once, and a crash may take from a file anything above
its synced length.
-/

namespace Disk

namespace File

/-- A write through a handle that stands at `pos`. -/
def writeAt (f : File) (pos : Nat) (bytes : Bytes) : File := (f.seek pos).write bytes

/-- The file after a crash that spares `kept` bytes, or as many as are synced. -/
def crash (f : File) (kept : Nat) : File :=
  ⟨(f.data ++ f.cut).take (max f.synced kept), f.synced, [], 0⟩

/-- All bytes of the file are synced, and they are `bytes`. -/
structure Settled (f : File) (bytes : Bytes) : Prop where
  data : f.data = bytes
  synced : f.synced = bytes.length
  cut : f.cut = []

theorem writeAt_end {f : File} {pos : Nat} (h : f.data.length = pos) (bytes : Bytes) :
    (f.writeAt pos bytes).data = f.data ++ bytes :=
  write_at_end (f := f.seek pos) h.symm bytes

theorem settled_sync (f : File) : f.sync.Settled f.data := ⟨rfl, rfl, rfl⟩

theorem Settled.crash {f : File} {bytes : Bytes} (h : f.Settled bytes) (kept : Nat) :
    (f.crash kept).Settled bytes := by
  refine ⟨?_, h.synced, rfl⟩
  change (f.data ++ f.cut).take (max f.synced kept) = bytes
  rw [h.data, h.cut, h.synced, List.append_nil,
    List.take_of_length_le (Nat.le_max_left _ _)]

end File

variable {ν : Type} [DecidableEq ν]

/-- A directory whose entries refer to numbered files. No file has two names. -/
structure Links (ν : Type) where
  entries : ν → Option Nat
  files : Nat → File
  fresh : Nat
  bound : ∀ name i, entries name = some i → i < fresh
  single : ∀ a b i, entries a = some i → entries b = some i → a = b

namespace Links

def empty : Links ν where
  entries := fun _ => none
  files := fun _ => File.empty
  fresh := 0
  bound := by simp
  single := by simp

/-- Changes a file through a handle. -/
def onFile (d : Links ν) (handle : Nat) (change : File → File) : Links ν :=
  { d with files := fun i => if i = handle then change (d.files i) else d.files i }

/-- Makes `name` refer to a new empty file. -/
def bind (d : Links ν) (name : ν) : Links ν where
  entries := fun other => if other = name then some d.fresh else d.entries other
  files := fun i => if i = d.fresh then File.empty else d.files i
  fresh := d.fresh + 1
  bound := by
    intro other i h
    split at h
    · cases h
      exact Nat.lt_succ_self _
    · exact Nat.lt_succ_of_lt (d.bound other i h)
  single := by
    intro a b i ha hb
    have hNew : ∀ c, d.entries c ≠ some d.fresh :=
      fun c hc => Nat.lt_irrefl _ (d.bound c _ hc)
    split at ha
    · next hName =>
      cases ha
      split at hb
      · next hName' => rw [hName, hName']
      · exact absurd hb (hNew b)
    · split at hb
      · cases hb
        exact absurd ha (hNew a)
      · exact d.single a b i ha hb

/-- Opens `name` for writing: an existing file is emptied, a missing one is made. -/
def create (d : Links ν) (name : ν) : Links ν × Nat :=
  match d.entries name with
  | some i => (d.onFile i fun f => f.setLen 0, i)
  | none => (d.bind name, d.fresh)

def writeAt (d : Links ν) (handle pos : Nat) (bytes : Bytes) : Links ν :=
  d.onFile handle fun f => f.writeAt pos bytes

def syncAll (d : Links ν) (handle : Nat) : Links ν := d.onFile handle File.sync

/-- The directory in which `target` refers to the file `source` referred to. -/
def move (d : Links ν) (source target : ν) : Links ν where
  entries := fun name =>
    if name = target then d.entries source
    else if name = source then none
    else d.entries name
  files := d.files
  fresh := d.fresh
  bound := by
    intro name i h
    split at h
    · exact d.bound source i h
    · split at h
      · cases h
      · exact d.bound name i h
  single := by
    have hOther : ∀ c i, c ≠ source → d.entries c = some i → d.entries source ≠ some i :=
      fun c i hne hc hs => hne (d.single c source i hc hs)
    intro a b i ha hb
    split at ha
    · next hTarget =>
      split at hb
      · next hTarget' => rw [hTarget, hTarget']
      · split at hb
        · cases hb
        · next hne => exact absurd ha (hOther b i hne hb)
    · split at ha
      · cases ha
      · next hne =>
        split at hb
        · exact absurd hb (hOther a i hne ha)
        · split at hb
          · cases hb
          · exact d.single a b i ha hb

/-- Renames a file, replacing the target; fails if there is no such file. -/
def rename (d : Links ν) (source target : ν) : Option (Links ν) :=
  if (d.entries source).isSome then some (d.move source target) else none

def get (d : Links ν) (name : ν) : Option File := (d.entries name).map d.files

def read (d : Links ν) (name : ν) : Option Bytes := (d.get name).map File.data

def crash (d : Links ν) (kept : Nat → Nat) : Links ν :=
  { d with files := fun i => (d.files i).crash (kept i) }

/-! ## What each operation leaves alone -/

variable {d : Links ν} {name other : ν} {handle : Nat}

omit [DecidableEq ν] in
@[simp] theorem files_onFile_self (change : File → File) :
    (d.onFile handle change).files handle = change (d.files handle) := if_pos rfl

omit [DecidableEq ν] in
theorem files_onFile_of_ne (change : File → File) {i : Nat} (h : i ≠ handle) :
    (d.onFile handle change).files i = d.files i := if_neg h

omit [DecidableEq ν] in
@[simp] theorem entries_onFile (change : File → File) :
    (d.onFile handle change).entries = d.entries := rfl

/-- In `d'` the name refers to the same file as in `d`, with the same contents. -/
structure SameAt (d d' : Links ν) (name : ν) : Prop where
  entry : d'.entries name = d.entries name
  file : d'.get name = d.get name

omit [DecidableEq ν] in
theorem SameAt.refl (d : Links ν) (name : ν) : SameAt d d name := ⟨rfl, rfl⟩

omit [DecidableEq ν] in
theorem get_of_entries {i : Nat} (h : d.entries name = some i) : d.get name = some (d.files i) := by
  rw [get, h, Option.map_some]

omit [DecidableEq ν] in
theorem SameAt.files {d d' : Links ν} (h : SameAt d d' name) {i : Nat}
    (hEntry : d.entries name = some i) : d'.files i = d.files i := by
  have hFile := h.file
  rw [get_of_entries hEntry, get_of_entries (h.entry.trans hEntry)] at hFile
  exact Option.some.inj hFile

omit [DecidableEq ν] in
/-- A change through the handle of `other` does not concern the file called `name`. -/
theorem sameAt_onFile (change : File → File) (hOther : d.entries other = some handle)
    (hne : name ≠ other) : SameAt d (d.onFile handle change) name := by
  refine ⟨rfl, ?_⟩
  unfold get
  rw [entries_onFile]
  cases hName : d.entries name with
  | none => rfl
  | some i =>
    have hi : i ≠ handle := by
      intro hEq
      subst hEq
      exact hne (d.single name other i hName hOther)
    rw [Option.map_some, Option.map_some, files_onFile_of_ne change hi]

/-- The name `create` was called with refers to an empty file. -/
theorem create_self (d : Links ν) (name : ν) :
    (d.create name).1.entries name = some (d.create name).2 ∧
      ((d.create name).1.files (d.create name).2).data = [] := by
  unfold create
  cases h : d.entries name with
  | none => exact ⟨if_pos rfl, by simp [bind, File.empty]⟩
  | some i =>
    refine ⟨h, ?_⟩
    simp only [files_onFile_self]
    rw [File.setLen_of_le (Nat.zero_le _), List.take_zero]

theorem sameAt_create (d : Links ν) (hne : name ≠ other) :
    SameAt d (d.create other).1 name := by
  unfold create
  cases hOther : d.entries other with
  | some i => exact sameAt_onFile (fun f => f.setLen 0) hOther hne
  | none =>
    have hEntry : (d.bind other).entries name = d.entries name := if_neg hne
    refine ⟨hEntry, ?_⟩
    unfold get
    rw [hEntry]
    cases hName : d.entries name with
    | none => rfl
    | some i =>
      have hOld : i ≠ d.fresh := (d.bound name i hName).ne
      have hFile : (d.bind other).files i = d.files i := if_neg hOld
      rw [Option.map_some, Option.map_some, hFile]

theorem get_move_target (d : Links ν) (source target : ν) :
    (d.move source target).get target = d.get source := by
  have hEntry : (d.move source target).entries target = d.entries source := if_pos rfl
  unfold get
  rw [hEntry]
  rfl

theorem sameAt_move {source target : ν} (hs : name ≠ source) (ht : name ≠ target) :
    SameAt d (d.move source target) name := by
  have hEntry : (d.move source target).entries name = d.entries name := by
    change (if name = target then _ else if name = source then _ else d.entries name) = _
    rw [if_neg ht, if_neg hs]
  refine ⟨hEntry, ?_⟩
  unfold get
  rw [hEntry]
  rfl

omit [DecidableEq ν] in
theorem get_crash (d : Links ν) (kept : Nat → Nat) (name : ν) :
    ∃ k, (d.crash kept).get name = (d.get name).map fun f => f.crash k := by
  unfold get
  change ∃ k, (d.entries name).map (fun i => (d.files i).crash (kept i)) = _
  cases d.entries name with
  | none => exact ⟨0, rfl⟩
  | some i => exact ⟨kept i, rfl⟩

end Links

end Disk
