import Kafko.Disk.Bytes

/-!
# Files and directories that can lose unsynced bytes

A `Store` is one directory: finitely many named files. A file remembers, besides its bytes,
how long it was at its last successful `sync_data` and which bytes a later `set_len` cut
off without a sync in between. A crash may take away anything above the synced length and
may bring cut bytes back (`File.Survives`); names are durable as soon as the call that
changes them returns.

The operations are total functions on files and stores. Which of them a program performs,
and which of its calls the environment lets fail, is the subject of `Effect.lean`.
-/

namespace Disk

/-! ## Files -/

structure File where
  data : Bytes
  /-- The length at the last successful sync. -/
  synced : Nat
  /-- Bytes above `data` that an unsynced truncation removed. -/
  cut : Bytes
  /-- The position of the open handle. -/
  pos : Nat
  deriving DecidableEq, Repr

namespace File

def empty : File := ⟨[], 0, [], 0⟩

/-- Overwrites from the handle's position on; a gap above the end is filled with zeros, unless
there is nothing to write. -/
def write (f : File) (bytes : Bytes) : File :=
  if bytes.isEmpty then f
  else
    let data := (f.data ++ List.replicate (f.pos - f.data.length) 0).take f.pos ++ bytes ++
      f.data.drop (f.pos + bytes.length)
    { f with data := data, cut := f.cut.drop (data.length - f.data.length),
             pos := f.pos + bytes.length }

/-- A write through a handle opened in append mode. -/
def append (f : File) (bytes : Bytes) : File :=
  { f with data := f.data ++ bytes, cut := f.cut.drop bytes.length }

def setLen (f : File) (n : Nat) : File :=
  { f with data := (f.data ++ List.replicate (n - f.data.length) 0).take n,
           cut := f.data.drop n ++ f.cut }

def sync (f : File) : File :=
  { f with synced := f.data.length, cut := [] }

def seek (f : File) (pos : Nat) : File := { f with pos := pos }

/-- The bytes a read of at most `n` bytes returns. -/
def peek (f : File) (n : Nat) : Bytes := (f.data.drop f.pos).take n

/-- The file without the position of its handle. -/
def rewind (f : File) : File := { f with pos := 0 }

/-- What may be left of a file after a crash: some prefix of the bytes written to it that
is at least as long as the file was at its last sync. -/
structure Survives (old new : File) : Prop where
  kept : ∃ n, old.synced ≤ n ∧ new.data = (old.data ++ old.cut).take n
  synced : new.synced = old.synced
  cut : new.cut = []

/-- What is left of a file if a crash loses as little as it can. -/
def settled (f : File) : File :=
  ⟨(f.data ++ f.cut).take (max f.synced f.data.length), f.synced, [], 0⟩

theorem survives_settled (f : File) : f.Survives f.settled :=
  ⟨⟨_, Nat.le_max_left _ _, rfl⟩, rfl, rfl⟩

/-- What is left of a file if a crash loses everything it can. -/
def lost (f : File) : File := ⟨(f.data ++ f.cut).take f.synced, f.synced, [], 0⟩

theorem survives_lost (f : File) : f.Survives f.lost := ⟨⟨_, Nat.le_refl _, rfl⟩, rfl, rfl⟩

theorem write_at_end {f : File} (h : f.pos = f.data.length) (bytes : Bytes) :
    (f.write bytes).data = f.data ++ bytes := by
  unfold write
  split
  · next hNone =>
    rw [List.isEmpty_iff.mp hNone, List.append_nil]
  · simp [h]

@[simp] theorem write_nil (f : File) : f.write [] = f := rfl

@[simp] theorem write_pos (f : File) (bytes : Bytes) :
    (f.write bytes).pos = f.pos + bytes.length := by
  unfold write
  split
  · next hNone =>
    rw [List.isEmpty_iff.mp hNone]
    rfl
  · rfl

@[simp] theorem write_synced (f : File) (bytes : Bytes) : (f.write bytes).synced = f.synced := by
  unfold write
  split <;> rfl

theorem write_cut {f : File} (h : f.cut = []) (bytes : Bytes) : (f.write bytes).cut = [] := by
  unfold write
  split
  · exact h
  · simp [h]

theorem setLen_of_le {f : File} {n : Nat} (h : n ≤ f.data.length) :
    (f.setLen n).data = f.data.take n := by
  simp [setLen, h]

/-- A truncation keeps every byte of the file in `data` or `cut`. -/
theorem setLen_content {f : File} {n : Nat} (h : n ≤ f.data.length) :
    (f.setLen n).data ++ (f.setLen n).cut = f.data ++ f.cut := by
  rw [setLen_of_le h]
  simp [setLen, ← List.append_assoc]

end File

/-! ## Stores -/

variable {ν : Type} [DecidableEq ν]

/-- A directory: named files, no name twice. -/
structure Store (ν : Type) where
  entries : List (ν × File)
  nodup : (entries.map Prod.fst).Nodup

namespace Store

def empty : Store ν := ⟨[], List.nodup_nil⟩

def names (d : Store ν) : List ν := d.entries.map Prod.fst

def get (d : Store ν) (name : ν) : Option File :=
  (d.entries.find? fun e => e.1 = name).map Prod.snd

def erase (d : Store ν) (name : ν) : Store ν where
  entries := d.entries.filter fun e => e.1 ≠ name
  nodup := d.nodup.sublist (List.filter_sublist.map _)

def put (d : Store ν) (name : ν) (f : File) : Store ν where
  entries := (name, f) :: (d.erase name).entries
  nodup := by
    rw [List.map_cons, List.nodup_cons]
    refine ⟨?_, (d.erase name).nodup⟩
    simp [erase]

@[simp] theorem get_empty (name : ν) : (empty : Store ν).get name = none := rfl

theorem get_erase (d : Store ν) (name other : ν) :
    (d.erase name).get other = if other = name then none else d.get other := by
  simp only [get, erase, List.find?_filter]
  split
  · next h =>
    subst h
    rw [Option.map_eq_none_iff, List.find?_eq_none]
    intro e _
    simp
  · next h =>
    congr 2
    funext e
    by_cases he : e.1 = other
    · simp [he, h]
    · simp [he]

theorem get_put (d : Store ν) (name other : ν) (f : File) :
    (d.put name f).get other = if other = name then some f else d.get other := by
  by_cases h : other = name
  · subst h
    simp [get, put]
  · have hErase := get_erase d name other
    rw [if_neg h] at hErase
    rw [if_neg h, ← hErase]
    have h' : ¬ name = other := fun he => h he.symm
    simp [get, put, h']

@[simp] theorem get_put_self (d : Store ν) (name : ν) (f : File) :
    (d.put name f).get name = some f := by
  rw [get_put, if_pos rfl]

theorem get_put_of_ne (d : Store ν) {name other : ν} (f : File) (h : other ≠ name) :
    (d.put name f).get other = d.get other := by
  rw [get_put, if_neg h]

@[simp] theorem get_erase_self (d : Store ν) (name : ν) : (d.erase name).get name = none := by
  rw [get_erase, if_pos rfl]

theorem get_erase_of_ne (d : Store ν) {name other : ν} (h : other ≠ name) :
    (d.erase name).get other = d.get other := by
  rw [get_erase, if_neg h]

theorem mem_names {d : Store ν} {name : ν} : name ∈ d.names ↔ (d.get name).isSome := by
  simp [names, get]

omit [DecidableEq ν] in
theorem nodup_names (d : Store ν) : d.names.Nodup := d.nodup

/-- `d'` is `d` except that `name` now holds `f`. -/
structure Updates (d d' : Store ν) (name : ν) (f : File) : Prop where
  self : d'.get name = some f
  others : ∀ other, other ≠ name → d'.get other = d.get other

theorem updates_put (d : Store ν) (name : ν) (f : File) : Updates d (d.put name f) name f :=
  ⟨get_put_self d name f, fun _ h => get_put_of_ne d f h⟩

namespace Updates

variable {d d' d'' : Store ν} {name : ν} {f g : File}

theorem refl (h : d.get name = some f) : Updates d d name f := ⟨h, fun _ _ => rfl⟩

theorem trans (h : Updates d d' name f) (h' : Updates d' d'' name g) : Updates d d'' name g :=
  ⟨h'.self, fun other hne => (h'.others other hne).trans (h.others other hne)⟩

end Updates

/-- Nothing but the position of the handle of `name` has changed. -/
def Moves (d d' : Store ν) (name : ν) : Prop :=
  ∃ f g, d.get name = some f ∧ Updates d d' name g ∧ g.rewind = f.rewind

theorem Moves.rewind {d d' : Store ν} {name : ν} (h : Moves d d' name) (other : ν) :
    (d'.get other).map File.rewind = (d.get other).map File.rewind := by
  obtain ⟨f, g, hf, hUpd, hRewind⟩ := h
  by_cases hEq : other = name
  · rw [hEq, hUpd.self, hf, Option.map_some, Option.map_some, hRewind]
  · rw [hUpd.others other hEq]

/-- What may be left of a directory after a crash. -/
structure Survives (old new : Store ν) : Prop where
  names : ∀ name, (new.get name).isSome = (old.get name).isSome
  files : ∀ name f g, old.get name = some f → new.get name = some g → f.Survives g

namespace Survives

theorem get_none {old new : Store ν} (h : Survives old new) {name : ν}
    (hOld : old.get name = none) : new.get name = none := by
  have := h.names name
  simpa [hOld] using this

theorem get_some {old new : Store ν} (h : Survives old new) {name : ν} {f : File}
    (hOld : old.get name = some f) : ∃ g, new.get name = some g ∧ f.Survives g := by
  have hSome := h.names name
  rw [hOld, Option.isSome_some] at hSome
  obtain ⟨g, hg⟩ := Option.isSome_iff_exists.mp hSome
  exact ⟨g, hg, h.files name f g hOld hg⟩

/-- A crash may also take nothing away. -/
theorem refl {d : Store ν} (h : ∀ e ∈ d.entries, e.2.cut = []) : Survives d d := by
  refine ⟨fun _ => rfl, ?_⟩
  intro name f g hf hg
  obtain rfl : f = g := Option.some.inj (hf.symm.trans hg)
  obtain ⟨e, he, rfl⟩ := Option.map_eq_some_iff.mp hf
  have hCut := h e (List.mem_of_find?_eq_some he)
  refine ⟨⟨max e.2.synced e.2.data.length, Nat.le_max_left _ _, ?_⟩, rfl, hCut⟩
  rw [hCut, List.append_nil, List.take_of_length_le (Nat.le_max_right _ _)]

end Survives

def mapFiles (keep : File → File) (d : Store ν) : Store ν where
  entries := d.entries.map fun e => (e.1, keep e.2)
  nodup := by
    rw [List.map_map]
    exact d.nodup

theorem survives_mapFiles {keep : File → File} (hKeep : ∀ f : File, f.Survives (keep f))
    (d : Store ν) : Survives d (d.mapFiles keep) := by
  have hGet : ∀ name, (d.mapFiles keep).get name = (d.get name).map keep := by
    intro name
    simp only [get, mapFiles, List.find?_map, Option.map_map]
    rfl
  constructor
  · intro name
    rw [hGet, Option.isSome_map]
  · intro name f g hf hg
    rw [hGet, hf] at hg
    cases hg
    exact hKeep f

/-- What is left of a directory if a crash loses as little as it can. -/
def settled (d : Store ν) : Store ν where
  entries := d.entries.map fun e => (e.1, e.2.settled)
  nodup := by
    rw [List.map_map]
    exact d.nodup

theorem survives_settled (d : Store ν) : Survives d d.settled :=
  survives_mapFiles File.survives_settled d

end Store

end Disk
