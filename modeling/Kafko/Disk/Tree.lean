import Kafko.Disk.Store
import Mathlib.Data.List.AList
import Mathlib.Data.List.Infix

/-!
# Paths and directory trees

A `DirPath` is a directory of a file system without links, by the names that lead to it from
the root. Text is resolved against a path as Unix resolves it: empty components and `.` are
skipped, `..` leads to the parent, and the root is its own parent.

A `DirTree` maps the directories that exist to the files in them. Making a directory makes every
directory on the way to it, in order, so an interrupted call leaves a first part of the way
behind. Removing a directory removes whatever lies below it; which part of that an interrupted
call leaves behind is open. All reasoning about trees goes through `AList.lookup`.
-/

namespace Disk

/-! ## Paths -/

abbrev DirPath := List String

inductive Component
  | parent
  | name (s : String)
  deriving DecidableEq, Repr

/-- The pieces between the slashes. -/
def splitSlash (cs : List Char) : List (List Char) :=
  cs.foldr (fun c pieces => if c = '/' then [] :: pieces else (c :: pieces.headD []) :: pieces.tail)
    [[]]

def Component.ofPiece (piece : List Char) : Option Component :=
  if piece = [] ∨ piece = ['.'] then none
  else if piece = ['.', '.'] then some .parent
  else some (.name (String.ofList piece))

def components (s : String) : List Component := (splitSlash s.toList).filterMap Component.ofPiece

def isAbsolute (s : String) : Bool := s.toList.head? = some '/'

namespace DirPath

def enter (p : DirPath) : Component → DirPath
  | .parent => p.dropLast
  | .name s => p ++ [s]

def follow (p : DirPath) (cs : List Component) : DirPath := cs.foldl enter p

/-- The directories entered on the way, in order. -/
def trail (p : DirPath) : List Component → List DirPath
  | [] => []
  | c :: cs => p.enter c :: trail (p.enter c) cs

/-- `Path::join`: an absolute path replaces the one it is joined to. -/
def join (p : DirPath) (s : String) : DirPath :=
  follow (if isAbsolute s then [] else p) (components s)

/-- The directories that a call for `p.join s` passes through. -/
def wayTo (p : DirPath) (s : String) : List DirPath :=
  (if isAbsolute s then [[]] else p.inits) ++ trail (if isAbsolute s then [] else p) (components s)

theorem follow_mem_trail (p : DirPath) (cs : List Component) :
    p.follow cs ∈ p :: p.trail cs := by
  induction cs generalizing p with
  | nil => exact List.mem_cons_self
  | cons c cs ih => exact List.mem_cons_of_mem _ (ih (p.enter c))

/-- The way to a directory ends in it. -/
theorem join_mem_wayTo (p : DirPath) (s : String) : p.join s ∈ p.wayTo s := by
  unfold join wayTo
  split
  · rcases List.mem_cons.mp (follow_mem_trail [] (components s)) with hSelf | hTrail
    · exact List.mem_append_left _ (by rw [hSelf]; exact List.mem_cons_self)
    · exact List.mem_append_right _ hTrail
  · rcases List.mem_cons.mp (follow_mem_trail p (components s)) with hSelf | hTrail
    · exact List.mem_append_left _ (by rw [hSelf, List.mem_inits])
    · exact List.mem_append_right _ hTrail

end DirPath

/-- The name of a directory entry: one component that is not special. -/
def PlainName (s : String) : Prop := components s = [.name s]

instance (s : String) : Decidable (PlainName s) := inferInstanceAs (Decidable (_ = _))

theorem not_mem_of_mem_splitSlash {cs piece : List Char} (h : piece ∈ splitSlash cs) :
    '/' ∉ piece := by
  induction cs generalizing piece with
  | nil =>
    obtain rfl : piece = [] := List.mem_singleton.mp h
    exact List.not_mem_nil
  | cons c cs ih =>
    rw [splitSlash, List.foldr_cons, ← splitSlash] at h
    split at h
    · rcases List.mem_cons.mp h with rfl | hTail
      · exact List.not_mem_nil
      · exact ih hTail
    · next hc =>
      rcases List.mem_cons.mp h with rfl | hTail
      · intro hMem
        rcases List.mem_cons.mp hMem with hEq | hHead
        · exact hc hEq.symm
        · cases hPieces : splitSlash cs with
          | nil => simp [hPieces] at hHead
          | cons first rest =>
            rw [hPieces] at hHead
            exact ih (by rw [hPieces]; exact List.mem_cons_self) hHead
      · exact ih (List.mem_of_mem_tail hTail)

theorem splitSlash_of_not_mem {cs : List Char} (h : '/' ∉ cs) : splitSlash cs = [cs] := by
  induction cs with
  | nil => rfl
  | cons c cs ih =>
    have hc : c ≠ '/' := by
      rintro rfl
      exact h List.mem_cons_self
    rw [splitSlash, List.foldr_cons, ← splitSlash, if_neg hc,
      ih fun hMem => h (List.mem_cons_of_mem _ hMem)]
    rfl

theorem Component.ofPiece_eq_name {piece : List Char} {s : String}
    (h : Component.ofPiece piece = some (.name s)) : piece = s.toList := by
  unfold Component.ofPiece at h
  split at h
  · cases h
  · split at h
    · cases h
    · obtain rfl : String.ofList piece = s := by simpa using h
      exact String.toList_ofList.symm

namespace PlainName

theorem no_slash {s : String} (h : PlainName s) : '/' ∉ s.toList := by
  have hMem : Component.name s ∈ components s := by
    rw [h]
    exact List.mem_singleton.mpr rfl
  obtain ⟨piece, hPiece, hName⟩ := List.mem_filterMap.mp hMem
  obtain rfl := Component.ofPiece_eq_name hName
  exact not_mem_of_mem_splitSlash hPiece

theorem not_absolute {s : String} (h : PlainName s) : isAbsolute s = false := by
  apply decide_eq_false
  intro hHead
  exact h.no_slash (List.mem_of_head? hHead)

theorem join {s : String} (h : PlainName s) (p : DirPath) : p.join s = p ++ [s] := by
  rw [DirPath.join, h.not_absolute, h]
  rfl

theorem wayTo {s : String} (h : PlainName s) (p : DirPath) :
    p.wayTo s = p.inits ++ [p ++ [s]] := by
  rw [DirPath.wayTo, h.not_absolute, h]
  rfl

/-- Names made of digits are plain. -/
theorem of_digits {cs : List Char} (hNil : cs ≠ []) (hDigits : ∀ c ∈ cs, c.isDigit = true) :
    PlainName (String.ofList cs) := by
  have hSlash : '/' ∉ cs := fun hMem => absurd (hDigits _ hMem) (by decide)
  have hDot : '.' ∉ cs := fun hMem => absurd (hDigits _ hMem) (by decide)
  have hOne : cs ≠ ['.'] := by
    rintro rfl
    exact hDot (by simp)
  have hTwo : cs ≠ ['.', '.'] := by
    rintro rfl
    exact hDot (by simp)
  rw [PlainName, components, String.toList_ofList, splitSlash_of_not_mem hSlash]
  simp [Component.ofPiece, hNil, hOne, hTwo]

theorem toString (n : Nat) : PlainName (ToString.toString n) := by
  have hRepr : ToString.toString n = String.ofList (Nat.toDigits 10 n) := by
    rw [← Nat.toList_repr, String.ofList_toList]
    rfl
  rw [hRepr]
  apply of_digits
  · exact Nat.toDigits_ne_nil
  · intro c hc
    exact Nat.isDigit_of_mem_toDigits (by decide) (by decide) hc

end PlainName

/-! ## Trees -/

/-- The directories that exist, with the files in each of them. -/
abbrev DirTree (ν : Type) := AList (fun _ : DirPath => Store ν)

namespace DirTree

variable {ν : Type}

def makeDir (t : DirTree ν) (p : DirPath) : DirTree ν := if p ∈ t then t else t.insert p Store.empty

/-- `create_dir_all` along a way. -/
def createDirs (t : DirTree ν) (way : List DirPath) : DirTree ν := way.foldl makeDir t

/-- Replaces the files of a directory that exists. -/
def setFiles (t : DirTree ν) (p : DirPath) (d : Store ν) : DirTree ν :=
  if p ∈ t then t.insert p d else t

/-- `remove_dir_all`, with the directories that an interrupted call leaves behind. -/
def removeDirAll (t : DirTree ν) (p : DirPath) (left : DirPath → Bool) : DirTree ν where
  entries := t.entries.filter fun e => left e.1 ∨ ¬ p <+: e.1
  nodupKeys := List.NodupKeys.sublist List.filter_sublist t.nodupKeys

/-- `read_dir`: the names of the directories in `p`. -/
def children (t : DirTree ν) (p : DirPath) : List String :=
  t.keys.filterMap fun q => if q.dropLast = p then q.getLast? else none

/-- Replaces the files of every directory. -/
def mapFiles (t : DirTree ν) (f : DirPath → Store ν → Store ν) : DirTree ν where
  entries := t.entries.map fun e => ⟨e.1, f e.1 e.2⟩
  nodupKeys := by
    have hKeys :
        (t.entries.map fun e => (⟨e.1, f e.1 e.2⟩ : Sigma fun _ : DirPath => Store ν)).keys =
          t.entries.keys := by
      simp [List.keys, Function.comp_def]
    rw [List.NodupKeys, hKeys]
    exact t.nodupKeys

/-- What a computation finds in a directory. -/
def filesAt (t : DirTree ν) (p : DirPath) : Store ν := (t.lookup p).getD Store.empty

theorem lookup_makeDir (t : DirTree ν) (p q : DirPath) :
    (t.makeDir p).lookup q = if q = p then some (t.filesAt p) else t.lookup q := by
  unfold makeDir
  by_cases hMem : p ∈ t
  · rw [if_pos hMem]
    split
    · next hEq =>
      obtain ⟨d, hd⟩ := Option.isSome_iff_exists.mp (AList.lookup_isSome.mpr hMem)
      rw [hEq, filesAt, hd, Option.getD_some]
    · rfl
  · rw [if_neg hMem]
    split
    · next hEq =>
      rw [hEq, AList.lookup_insert, filesAt, AList.lookup_eq_none.mpr hMem, Option.getD_none]
    · next hNe => exact AList.lookup_insert_ne hNe

theorem lookup_createDirs (t : DirTree ν) (way : List DirPath) (q : DirPath) :
    (t.createDirs way).lookup q = if q ∈ way then some (t.filesAt q) else t.lookup q := by
  induction way generalizing t with
  | nil => rfl
  | cons p way ih =>
    change (createDirs (t.makeDir p) way).lookup q = _
    rw [ih]
    by_cases hEq : q = p
    · have hHere : (t.makeDir p).lookup q = some (t.filesAt q) := by
        rw [lookup_makeDir, if_pos hEq, hEq]
      have hIn : q ∈ p :: way := by
        rw [hEq]
        exact List.mem_cons_self
      rw [filesAt, hHere, if_pos hIn, Option.getD_some, ite_self]
    · have hHere : (t.makeDir p).lookup q = t.lookup q := by
        rw [lookup_makeDir, if_neg hEq]
      rw [filesAt, hHere]
      simp [hEq, filesAt]

/-- Making directories changes no file. -/
theorem filesAt_createDirs (t : DirTree ν) (way : List DirPath) (q : DirPath) :
    (t.createDirs way).filesAt q = t.filesAt q := by
  unfold filesAt
  rw [lookup_createDirs]
  split
  · rfl
  · rfl

theorem lookup_setFiles (t : DirTree ν) (p q : DirPath) (d : Store ν) :
    (t.setFiles p d).lookup q = if q = p ∧ p ∈ t then some d else t.lookup q := by
  unfold setFiles
  by_cases hMem : p ∈ t
  · rw [if_pos hMem]
    split
    · next hEq => rw [hEq.1, AList.lookup_insert]
    · next hNot => exact AList.lookup_insert_ne fun hEq => hNot ⟨hEq, hMem⟩
  · rw [if_neg hMem, if_neg fun h => hMem h.2]

theorem lookup_setFiles_ne (t : DirTree ν) {p q : DirPath} (h : q ≠ p) (d : Store ν) :
    (t.setFiles p d).lookup q = t.lookup q := by
  rw [lookup_setFiles, if_neg fun hBoth => h hBoth.1]

/-- Writing back what is there. -/
theorem lookup_setFiles_filesAt (t : DirTree ν) (p q : DirPath) :
    (t.setFiles p (t.filesAt p)).lookup q = t.lookup q := by
  rw [lookup_setFiles]
  split
  · next hBoth =>
    obtain ⟨d, hd⟩ := Option.isSome_iff_exists.mp (AList.lookup_isSome.mpr hBoth.2)
    rw [hBoth.1, filesAt, hd, Option.getD_some]
  · rfl

theorem lookup_removeDirAll (t : DirTree ν) (p q : DirPath) (left : DirPath → Bool) :
    (t.removeDirAll p left).lookup q = if left q ∨ ¬ p <+: q then t.lookup q else none := by
  ext d
  rw [← Option.mem_def, AList.mem_lookup_iff, removeDirAll, List.mem_filter]
  split
  · next hKept => simp only [hKept, decide_true, and_true, AList.mem_lookup_iff, ← Option.mem_def]
  · next hGone => simp [hGone]

theorem lookup_mapFiles (t : DirTree ν) (f : DirPath → Store ν → Store ν) (q : DirPath) :
    (t.mapFiles f).lookup q = (t.lookup q).map (f q) := by
  ext d
  rw [← Option.mem_def, AList.mem_lookup_iff, mapFiles, List.mem_map, Option.map_eq_some_iff]
  constructor
  · rintro ⟨⟨p, d'⟩, hMem, hEq⟩
    cases hEq
    exact ⟨d', AList.mem_lookup_iff.mpr hMem, rfl⟩
  · rintro ⟨d', hd', rfl⟩
    exact ⟨⟨q, d'⟩, AList.mem_lookup_iff.mp hd', rfl⟩

theorem mem_children {t : DirTree ν} {p : DirPath} {c : String} :
    c ∈ t.children p ↔ p ++ [c] ∈ t := by
  rw [children, List.mem_filterMap, AList.mem_keys]
  constructor
  · rintro ⟨q, hq, hLast⟩
    split at hLast
    · next hInit =>
      rw [← hInit, List.dropLast_append_getLast? c hLast]
      exact hq
    · cases hLast
  · intro hMem
    exact ⟨p ++ [c], hMem, by simp⟩

theorem nodup_children (t : DirTree ν) (p : DirPath) : (t.children p).Nodup := by
  apply List.Nodup.filterMap _ t.keys_nodup
  intro q q' c hq hq'
  split at hq
  · next hInit =>
    split at hq'
    · next hInit' =>
      rw [← List.dropLast_append_getLast? c hq, ← List.dropLast_append_getLast? c hq', hInit,
        hInit']
    · cases hq'
  · cases hq

theorem mem_iff {t : DirTree ν} {p : DirPath} : p ∈ t ↔ ∃ d, t.lookup p = some d := by
  rw [← AList.lookup_isSome, Option.isSome_iff_exists]

end DirTree

end Disk
