import Kafko.Broker.Recovery

/-!
# Recognising the layout of a topic

Discovery reads numbers off the names of the subdirectories, the check compares the numbers, and
opening prints them again. A number has more than one spelling: `00` and `+0` are read as `0` as
well. If the numbers are those of a topic and one of them is not spelled as it is printed, then
the check passes, the directory is left alone, and an empty partition appears beside it. In every
other case the recognition is exact.
-/

namespace Kafko

open Disk

/-! ## What stands in a directory -/

/-- A file name; discovery goes on to the next one if it is not text. -/
inductive OsName
  | text (s : String)
  | raw (bytes : Bytes)
  deriving DecidableEq

structure DirEntry where
  name : OsName
  isDir : Bool
  deriving DecidableEq

/-- The number `discover_partition_indices` reads off an entry. -/
def DirEntry.index (e : DirEntry) : Option Nat :=
  if e.isDir then
    match e.name with
    | .text s => parseU32 s
    | .raw _ => none
  else none

/-- The entries of a directory in the order in which they are read. -/
structure Listing where
  entries : List DirEntry
  distinct : (entries.map DirEntry.name).Nodup

/-- The check of `Topic::open`: there are partitions, and no index is missing or repeated. -/
def Topic.PassesLayout (indices : List Nat) : Prop :=
  indices ≠ [] ∧ firstGap 0 (indices.insertionSort (· ≤ ·)) = none

instance (indices : List Nat) : Decidable (Topic.PassesLayout indices) :=
  inferInstanceAs (Decidable (_ ∧ _))

namespace Listing

variable (l : Listing)

def HasDir (s : String) : Prop := ⟨.text s, true⟩ ∈ l.entries

/-- A subdirectory whose name is read as a number. -/
def Recognises (s : String) (i : Nat) : Prop := l.HasDir s ∧ parseU32 s = some i

/-- `discover_partition_indices`. -/
def indices : List Nat := l.entries.filterMap DirEntry.index

/-- The names `Topic::open` goes to, in order. -/
def opened : List String := (l.indices.insertionSort (· ≤ ·)).map toString

/-- The subdirectories with a number for a name are the partitions of a topic. -/
def Canonical : Prop :=
  ∃ n, 0 < n ∧ ∀ s, (∃ i, l.Recognises s i) ↔ ∃ i < n, s = toString i

/-- Every number is spelled as it is printed. -/
def Spelled : Prop := ∀ s i, l.Recognises s i → s = toString i

/-- Each number below some limit is read once, and no other number is. -/
def Numbered : Prop :=
  ∃ n, 0 < n ∧ (∀ i < n, ∃! s, l.Recognises s i) ∧ ∀ s i, l.Recognises s i → i < n

/-- The listing of a directory of the tree. -/
def Lists (t : DirTree FileName) (topicDir : DirPath) : Prop :=
  ∀ s, l.HasDir s ↔ topicDir ++ [s] ∈ t

/-- `Topic::open` takes the directory for a topic exactly if it is one. It then goes to the
partitions that are there and to no others: their logs are opened if it succeeds, and however it
ends, no subdirectory is new. -/
structure ExactlyRecognised : Prop where
  passes : Topic.PassesLayout l.indices ↔ l.Canonical
  opens : Topic.PassesLayout l.indices →
    l.opened.Nodup ∧ ∀ s, s ∈ l.opened ↔ ∃ i, l.Recognises s i
  opensLogs : ∀ X config envs topicDir name t, l.Lists t topicDir → ∀ ps t',
    Topic.open_ X config envs topicDir name t = (.ok ps, t') →
      ∀ dir, dir ∈ ps.map PlacedLog.dir ↔ ∃ s i, l.Recognises s i ∧ dir = topicDir ++ [s]
  makesNone : ∀ X config envs topicDir name t, l.Lists t topicDir → ∀ s,
    topicDir ++ [s] ∈ (Topic.open_ X config envs topicDir name t).2 → topicDir ++ [s] ∈ t

end Listing

/-! ## The check -/

namespace Topic

theorem getElem?_of_firstGap {expected : Nat} {is : List Nat} (h : firstGap expected is = none)
    {k : Nat} (hk : k < is.length) : is[k]? = some ((expected + k) % 2 ^ 32) := by
  induction is generalizing expected k with
  | nil => exact absurd hk (Nat.not_lt_zero k)
  | cons i is ih =>
    rw [firstGap] at h
    split at h
    · cases h
    · next hEq =>
      cases k with
      | zero =>
        rw [List.getElem?_cons_zero, Nat.add_zero]
        exact congrArg some (Decidable.not_not.mp hEq).symm
      | succ k =>
        rw [List.getElem?_cons_succ, ih h (Nat.lt_of_succ_lt_succ hk)]
        congr 2
        omega

/-- A sorted list without a gap counts up from zero. The check compares modulo `2 ^ 32`, but the
number after `2 ^ 32 - 1` would be zero again. -/
theorem eq_range_of_firstGap {is : List Nat} (hSorted : is.Pairwise (· ≤ ·))
    (h : firstGap 0 is = none) : is = List.range is.length := by
  have hShort : is.length ≤ 2 ^ 32 := by
    by_contra hLong
    have hLast := getElem?_of_firstGap h (k := 2 ^ 32 - 1) (by omega)
    have hWrapped := getElem?_of_firstGap h (k := 2 ^ 32) (by omega)
    obtain ⟨hi, hLast⟩ := List.getElem?_eq_some_iff.mp hLast
    obtain ⟨hj, hWrapped⟩ := List.getElem?_eq_some_iff.mp hWrapped
    have hLe := List.pairwise_iff_getElem.mp hSorted _ _ hi hj (by omega)
    rw [hLast, hWrapped] at hLe
    omega
  apply List.ext_getElem?
  intro k
  by_cases hk : k < is.length
  · rw [getElem?_of_firstGap h hk, List.getElem?_range hk]
    congr 1
    omega
  · rw [List.getElem?_eq_none (by omega), List.getElem?_eq_none (by simpa using hk)]

theorem passesLayout_iff {is : List Nat} (hSmall : ∀ i ∈ is, i < 2 ^ 32) :
    PassesLayout is ↔ ∃ n, 0 < n ∧ is.Perm (List.range n) := by
  constructor
  · intro hPasses
    obtain ⟨hNe, hNone⟩ := hPasses
    have hRange := eq_range_of_firstGap (List.pairwise_insertionSort (· ≤ ·) _) hNone
    rw [List.length_insertionSort] at hRange
    exact ⟨is.length, List.length_pos_iff.mpr hNe, sorted_eq_range_iff.mp hRange⟩
  · rintro ⟨n, hPos, hPerm⟩
    have hLast : n - 1 < 2 ^ 32 :=
      hSmall _ (hPerm.mem_iff.mpr (List.mem_range.mpr (by omega)))
    refine ⟨?_, ?_⟩
    · rintro rfl
      have hLen := hPerm.length_eq
      rw [List.length_nil, List.length_range] at hLen
      omega
    · rw [sorted_eq_range_iff.mpr hPerm, List.range_eq_range']
      exact firstGap_range 0 n (by omega)

end Topic

/-! ## The numbers in a listing -/

namespace Listing

variable {l : Listing} {s : String} {i n : Nat}

theorem index_eq_some {e : DirEntry} :
    e.index = some i ↔ ∃ s, e = ⟨.text s, true⟩ ∧ parseU32 s = some i := by
  obtain ⟨name, isDir⟩ := e
  cases isDir <;> cases name <;> simp [DirEntry.index]

theorem mem_indices : i ∈ l.indices ↔ ∃ s, l.Recognises s i := by
  rw [indices, List.mem_filterMap]
  constructor
  · rintro ⟨e, he, hIndex⟩
    obtain ⟨s, rfl, hParse⟩ := index_eq_some.mp hIndex
    exact ⟨s, he, hParse⟩
  · rintro ⟨s, hDir, hParse⟩
    exact ⟨_, hDir, index_eq_some.mpr ⟨s, rfl, hParse⟩⟩

theorem nodup_indices :
    l.indices.Nodup ↔ ∀ s s' i, l.Recognises s i → l.Recognises s' i → s = s' := by
  have hEntries : l.entries.Nodup := l.distinct.of_map
  rw [indices, List.Nodup, List.pairwise_filterMap]
  constructor
  · intro hApart s s' i hs hs'
    by_contra hNe
    have hSymm : Std.Symm fun e e' : DirEntry =>
        ∀ b, e.index = some b → ∀ b', e'.index = some b' → b ≠ b' :=
      ⟨fun e e' h b hb b' hb' => (h b' hb' b hb).symm⟩
    exact hApart.forall hs.1 hs'.1 (by simpa using hNe) i (index_eq_some.mpr ⟨s, rfl, hs.2⟩) i
      (index_eq_some.mpr ⟨s', rfl, hs'.2⟩) rfl
  · intro hUnique
    apply hEntries.imp_of_mem
    rintro e e' he he' hNe b hb b' hb' rfl
    obtain ⟨s, rfl, hParse⟩ := index_eq_some.mp hb
    obtain ⟨s', rfl, hParse'⟩ := index_eq_some.mp hb'
    exact hNe (by rw [hUnique s s' b ⟨he, hParse⟩ ⟨he', hParse'⟩])

theorem perm_indices_iff : l.indices.Perm (List.range n) ↔
    (∀ i < n, ∃! s, l.Recognises s i) ∧ ∀ s i, l.Recognises s i → i < n := by
  constructor
  · intro hPerm
    have hUnique := nodup_indices.mp (hPerm.nodup_iff.mpr List.nodup_range)
    refine ⟨?_, ?_⟩
    · intro i hi
      obtain ⟨s, hs⟩ := mem_indices.mp (hPerm.mem_iff.mpr (List.mem_range.mpr hi))
      exact ⟨s, hs, fun s' hs' => hUnique s' s i hs' hs⟩
    · intro s i hs
      exact List.mem_range.mp (hPerm.mem_iff.mp (mem_indices.mpr ⟨s, hs⟩))
  · rintro ⟨hOnce, hBelow⟩
    have hNodup : l.indices.Nodup := by
      rw [nodup_indices]
      intro s s' i hs hs'
      exact (hOnce i (hBelow s i hs)).unique hs hs'
    rw [List.perm_ext_iff_of_nodup hNodup List.nodup_range]
    intro i
    rw [mem_indices, List.mem_range]
    constructor
    · rintro ⟨s, hs⟩
      exact hBelow s i hs
    · intro hi
      exact (hOnce i hi).exists

/-- The check passes exactly if the numbers are those of a topic, however they are spelled. -/
theorem passesLayout_iff : Topic.PassesLayout l.indices ↔ l.Numbered := by
  have hSmall : ∀ i ∈ l.indices, i < 2 ^ 32 := by
    intro i hi
    obtain ⟨s, hs⟩ := mem_indices.mp hi
    exact parseU32_lt hs.2
  rw [Topic.passesLayout_iff hSmall]
  simp only [perm_indices_iff]
  rfl

/-- In a proper layout every number is spelled as it is printed. -/
theorem canonical_iff : l.Canonical ↔ l.Spelled ∧ l.Numbered := by
  constructor
  · rintro ⟨n, hPos, hNames⟩
    have hSpelled : ∀ s i, l.Recognises s i → s = toString i ∧ i < n := by
      intro s i hs
      obtain ⟨j, hj, rfl⟩ := (hNames s).mp ⟨i, hs⟩
      have hParse := hs.2
      rw [parseU32_toString_eq] at hParse
      split at hParse
      · obtain rfl := Option.some.inj hParse
        exact ⟨rfl, hj⟩
      · cases hParse
    refine ⟨fun s i hs => (hSpelled s i hs).1, n, hPos, ?_, fun s i hs => (hSpelled s i hs).2⟩
    intro i hi
    obtain ⟨j, hs⟩ := (hNames (toString i)).mpr ⟨i, hi, rfl⟩
    obtain rfl : i = j := toString_injective (hSpelled _ _ hs).1
    exact ⟨toString i, hs, fun s' hs' => (hSpelled s' i hs').1⟩
  · rintro ⟨hSpelled, n, hPos, hOnce, hBelow⟩
    refine ⟨n, hPos, fun s => ⟨?_, ?_⟩⟩
    · rintro ⟨i, hs⟩
      exact ⟨i, hBelow s i hs, hSpelled s i hs⟩
    · rintro ⟨i, hi, rfl⟩
      obtain ⟨s, hs, -⟩ := hOnce i hi
      rw [← hSpelled s i hs]
      exact ⟨i, hs⟩

end Listing

/-! ## Opening -/

section

variable {X : Crates} {config : LogConfig} {envs : Nat → Env FileName} {way : List DirPath}
  {topicDir : DirPath} {is : List Nat} {t t' : DirTree FileName} {l : Listing} {name : String}

/-- However the loop ends, it has made no directories but those on the way and those of the given
indices. -/
theorem openPartitions_within {q : DirPath}
    (hq : q ∈ (openPartitions X config envs way topicDir is t).2) :
    q ∈ t ∨ q ∈ way ∨ ∃ i ∈ is, q = topicDir ++ [toString i] := by
  induction is generalizing t with
  | nil => exact Or.inl hq
  | cons i is ih =>
    rw [openPartitions, (PlainName.toString i).join] at hq
    have hOne : q ∈ (openPartition X config (envs i) (way ++ [topicDir ++ [toString i]])
        (topicDir ++ [toString i]) t).2 →
        q ∈ t ∨ q ∈ way ∨ ∃ j ∈ i :: is, q = topicDir ++ [toString j] := by
      intro hMade
      by_cases hHere : q = topicDir ++ [toString i]
      · exact Or.inr (Or.inr ⟨i, List.mem_cons_self, hHere⟩)
      · rw [DirTree.mem_iff] at hMade
        rcases openPartition_frame hHere with hSame | ⟨hWay, -⟩
        · rw [hSame] at hMade
          exact Or.inl (DirTree.mem_iff.mpr hMade)
        · rcases List.mem_append.mp hWay with hWay | hLast
          · exact Or.inr (Or.inl hWay)
          · exact absurd (List.mem_singleton.mp hLast) hHere
    rcases hFirst : openPartition X config (envs i) (way ++ [topicDir ++ [toString i]])
      (topicDir ++ [toString i]) t with ⟨r₁, t₁⟩
    rw [hFirst] at hq hOne
    cases r₁ with
    | err e => exact hOne hq
    | panic m => exact hOne hq
    | crash => exact hOne hq
    | ok p =>
      dsimp only at hq
      have hRest : q ∈ (openPartitions X config envs way topicDir is t₁).2 := by
        rcases hRun : openPartitions X config envs way topicDir is t₁ with ⟨r₂, t₂⟩
        rw [hRun] at hq
        cases r₂ <;> exact hq
      rcases ih hRest with hOld | hWay | ⟨j, hj, hEq⟩
      · exact hOne hOld
      · exact Or.inr (Or.inl hWay)
      · exact Or.inr (Or.inr ⟨j, List.mem_cons_of_mem _ hj, hEq⟩)

namespace Listing

/-- The names of the subdirectories that are text. -/
def dirNames (l : Listing) : List String :=
  l.entries.filterMap fun e =>
    match e with
    | ⟨.text s, true⟩ => some s
    | _ => none

theorem dirName_eq_some {e : DirEntry} {s : String} :
    (match e with
      | ⟨.text s, true⟩ => some s
      | _ => none) = some s ↔ e = ⟨.text s, true⟩ := by
  obtain ⟨name, isDir⟩ := e
  cases isDir <;> cases name <;> simp

theorem mem_dirNames {s : String} : s ∈ l.dirNames ↔ l.HasDir s := by
  simp only [dirNames, List.mem_filterMap, dirName_eq_some, exists_eq_right, HasDir]

theorem nodup_dirNames (l : Listing) : l.dirNames.Nodup := by
  refine List.Nodup.filterMap ?_ l.distinct.of_map
  intro e e' s he he'
  rw [dirName_eq_some.mp he, dirName_eq_some.mp he']

theorem indices_eq (l : Listing) : l.indices = l.dirNames.filterMap parseU32 := by
  rw [indices, dirNames, List.filterMap_filterMap]
  apply List.filterMap_congr
  rintro ⟨name, isDir⟩ -
  cases isDir <;> cases name <;> simp [DirEntry.index]

/-- The tree and the listing give the same numbers, in different orders. -/
theorem discover_perm (h : l.Lists t topicDir) :
    (Topic.discoverPartitionIndices t topicDir).Perm l.indices := by
  rw [indices_eq, Topic.discoverPartitionIndices]
  apply List.Perm.filterMap
  rw [List.perm_ext_iff_of_nodup (t.nodup_children topicDir) l.nodup_dirNames]
  intro s
  rw [DirTree.mem_children, mem_dirNames, h s]

theorem open_eq (X : Crates) (config : LogConfig) (envs : Nat → Env FileName) (name : String)
    (h : l.Lists t topicDir) :
    (Topic.PassesLayout l.indices ∧ Topic.open_ X config envs topicDir name t =
      openPartitions X config envs topicDir.inits topicDir (l.indices.insertionSort (· ≤ ·)) t) ∨
    ¬ Topic.PassesLayout l.indices ∧ ∃ detail, Topic.open_ X config envs topicDir name t =
      (.err (.invalidTopicLayout name detail), t) := by
  have hPerm := discover_perm h
  have hSorted : (Topic.discoverPartitionIndices t topicDir).insertionSort (· ≤ ·) =
      l.indices.insertionSort (· ≤ ·) :=
    List.Perm.eq_of_pairwise' (List.pairwise_insertionSort (· ≤ ·) _)
      (List.pairwise_insertionSort (· ≤ ·) _)
      ((List.perm_insertionSort _ _).trans (hPerm.trans (List.perm_insertionSort _ _).symm))
  have hEmpty : l.indices.insertionSort (· ≤ ·) = [] ↔ l.indices = [] := by
    rw [← List.length_eq_zero_iff, List.length_insertionSort, List.length_eq_zero_iff]
  unfold Topic.open_
  rw [hSorted]
  dsimp only
  by_cases hNone : l.indices = []
  · rw [if_pos (hEmpty.mpr hNone)]
    exact Or.inr ⟨fun hPasses => hPasses.1 hNone, _, rfl⟩
  · rw [if_neg fun hSortedNone => hNone (hEmpty.mp hSortedNone)]
    cases hGap : Topic.firstGap 0 (l.indices.insertionSort (· ≤ ·)) with
    | none => exact Or.inl ⟨⟨hNone, hGap⟩, rfl⟩
    | some gap =>
      refine Or.inr ⟨fun hPasses => ?_, _, rfl⟩
      rw [hPasses.2] at hGap
      cases hGap

theorem mem_opened {s : String} : s ∈ l.opened ↔ ∃ i ∈ l.indices, s = toString i := by
  rw [opened, List.mem_map]
  constructor
  · rintro ⟨i, hi, rfl⟩
    exact ⟨i, (List.mem_insertionSort _).mp hi, rfl⟩
  · rintro ⟨i, hi, rfl⟩
    exact ⟨i, (List.mem_insertionSort _).mpr hi, rfl⟩

/-- With every number spelled as it is printed, opening goes where discovery has been. -/
theorem mem_opened_iff (hSpelled : l.Spelled) {s : String} :
    s ∈ l.opened ↔ ∃ i, l.Recognises s i := by
  rw [mem_opened]
  constructor
  · rintro ⟨i, hi, rfl⟩
    obtain ⟨s, hs⟩ := mem_indices.mp hi
    rw [← hSpelled s i hs]
    exact ⟨i, hs⟩
  · rintro ⟨i, hs⟩
    exact ⟨i, mem_indices.mpr ⟨s, hs⟩, hSpelled s i hs⟩

/-- Recognition is exact if and only if every number is spelled as it is printed, or the numbers
are not those of a topic. -/
theorem exactlyRecognised_iff (l : Listing) : l.ExactlyRecognised ↔ l.Spelled ∨ ¬ l.Numbered := by
  constructor
  · intro hExact
    by_cases hNumbered : l.Numbered
    · exact Or.inl (canonical_iff.mp (hExact.passes.mp (passesLayout_iff.mpr hNumbered))).1
    · exact Or.inr hNumbered
  · intro hCases
    have hSpelled : Topic.PassesLayout l.indices → l.Spelled := by
      intro hPasses
      exact hCases.resolve_right fun hNot => hNot (passesLayout_iff.mp hPasses)
    refine ⟨?_, ?_, ?_, ?_⟩
    · rw [canonical_iff, passesLayout_iff]
      constructor
      · intro hNumbered
        exact ⟨hSpelled (passesLayout_iff.mpr hNumbered), hNumbered⟩
      · exact fun hBoth => hBoth.2
    · intro hPasses
      refine ⟨?_, fun s => mem_opened_iff (hSpelled hPasses)⟩
      obtain ⟨n, -, hNumbers⟩ := passesLayout_iff.mp hPasses
      rw [opened, Topic.sorted_eq_range_iff.mpr (perm_indices_iff.mpr hNumbers)]
      exact List.nodup_range.map toString_injective
    · intro X config envs topicDir name t hLists ps t' hRun dir
      rcases open_eq X config envs name hLists with ⟨hPasses, hOpen⟩ | ⟨-, detail, hOpen⟩
      · rw [hOpen] at hRun
        rw [openPartitions_dirs hRun, List.mem_map]
        constructor
        · rintro ⟨i, hi, rfl⟩
          obtain ⟨j, hs⟩ := (mem_opened_iff (hSpelled hPasses)).mp (List.mem_map_of_mem hi)
          exact ⟨_, j, hs, rfl⟩
        · rintro ⟨s, i, hs, rfl⟩
          obtain ⟨j, hj, rfl⟩ := List.mem_map.mp ((mem_opened_iff (hSpelled hPasses)).mpr ⟨i, hs⟩)
          exact ⟨j, hj, rfl⟩
      · rw [hOpen] at hRun
        cases hRun
    · intro X config envs topicDir name t hLists s hMade
      rcases open_eq X config envs name hLists with ⟨hPasses, hOpen⟩ | ⟨-, detail, hOpen⟩
      · rw [hOpen] at hMade
        rcases openPartitions_within hMade with hOld | hWay | ⟨i, hi, hEq⟩
        · exact hOld
        · have hLen := ((List.mem_inits _ _).mp hWay).length_le
          rw [List.length_append, List.length_singleton] at hLen
          omega
        · obtain rfl : s = toString i := by simpa using hEq
          obtain ⟨j, hs⟩ := (mem_opened_iff (hSpelled hPasses)).mp (List.mem_map_of_mem hi)
          exact (hLists _).mp hs.1
      · rw [hOpen] at hMade
        exact hMade

end Listing

end

/-! ## A number with another spelling -/

/-- A topic directory whose only partition is named `00`. -/
def paddedTopic : DirTree FileName := DirTree.createDirs ∅ [[], ["t"], ["t", "00"]]

def paddedListing : Listing := ⟨[⟨.text "00", true⟩], List.nodup_singleton _⟩

/-- The directory `00` is recognised as partition 0, and an empty partition 0 is opened beside
it. -/
theorem padded_name_opens_another :
    paddedListing.Lists paddedTopic ["t"] ∧ ¬ paddedListing.ExactlyRecognised ∧
      ∃ ps t', Topic.open_ Crates.uncompressed LogConfig.default (fun _ => Env.quiet) ["t"] "t"
          paddedTopic = (.ok ps, t') ∧
        ps.map PlacedLog.dir = [["t", "0"]] ∧ ["t", "0"] ∉ paddedTopic ∧ ["t", "0"] ∈ t' := by
  have hLists : paddedListing.Lists paddedTopic ["t"] := by
    intro s
    have hKeys : paddedTopic.keys = [["t", "00"], ["t"], []] := by decide +kernel
    rw [AList.mem_keys, hKeys, Listing.HasDir, paddedListing]
    simp
  have hResult : ((Topic.open_ Crates.uncompressed LogConfig.default (fun _ => Env.quiet) ["t"] "t"
      paddedTopic).1 >>= fun ps => .ok (ps.map PlacedLog.dir)) = .ok [["t", "0"]] := by
    decide +kernel
  have hNew : ["t", "0"] ∈ (Topic.open_ Crates.uncompressed LogConfig.default (fun _ => Env.quiet)
      ["t"] "t" paddedTopic).2 := by
    decide +kernel
  have hOld : ["t", "0"] ∉ paddedTopic := by decide +kernel
  refine ⟨hLists, ?_, ?_⟩
  · intro hExact
    exact hOld (hExact.makesNone _ _ _ _ _ _ hLists _ hNew)
  · rcases hRun : Topic.open_ Crates.uncompressed LogConfig.default (fun _ => Env.quiet) ["t"] "t"
      paddedTopic with ⟨r, t'⟩
    rw [hRun] at hResult hNew
    obtain ⟨ps, rfl, hDirs⟩ := Res.bind_eq_ok.mp hResult
    exact ⟨ps, t', rfl, Res.ok.inj hDirs, hOld, hNew⟩

end Kafko
