import Kafko.Broker.Topics

/-!
# Opening the partitions of a topic

What `Topic::create` and `Topic::open` do to a tree of directories. `Opens` is what has to be
known about the files of a partition before it is opened: they are absent, or they are
something recovery can handle. Opening all partitions of a topic then yields logs that refine
a history, in exactly the directories asked for, or the machine stops on the way and leaves
every partition as something that can be opened again.
-/

namespace Kafko

open Disk

/-! ## Partition indices -/

/-- A printed number is read back if it is small enough. -/
theorem parseU32_toString_eq (i : Nat) :
    parseU32 (toString i) = if i < 2 ^ 32 then some i else none := by
  have hDigits : (toString i).toList = Nat.toDigits 10 i := by
    rw [Nat.toString_eq_ofList_toDigits, String.toList_ofList]
  have hPlus : '+' ∉ Nat.toDigits 10 i := by
    intro hMem
    have hDigit := Nat.isDigit_of_mem_toDigits (by decide) (by decide) hMem
    revert hDigit
    decide
  have hBody : dropSign (Nat.toDigits 10 i) = Nat.toDigits 10 i := by
    unfold dropSign
    split
    · next rest hEq =>
      rw [hEq] at hPlus
      exact absurd List.mem_cons_self hPlus
    · rfl
  have hAll : (Nat.toDigits 10 i).all Char.isDigit = true := by
    rw [List.all_eq_true]
    intro c hc
    exact Nat.isDigit_of_mem_toDigits (by decide) (by decide) hc
  unfold parseU32
  rw [hDigits, hBody]
  dsimp only
  rw [Nat.ofDigitChars_ten_toDigits]
  simp only [hAll, ne_eq, Nat.toDigits_ne_nil, not_false_eq_true, true_and]

theorem parseU32_toString {i : Nat} (h : i < 2 ^ 32) : parseU32 (toString i) = some i := by
  rw [parseU32_toString_eq, if_pos h]

theorem parseU32_lt {s : String} {i : Nat} (h : parseU32 s = some i) : i < 2 ^ 32 := by
  unfold parseU32 at h
  dsimp only at h
  split at h
  · next hFits =>
    obtain rfl := Option.some.inj h
    exact hFits.2.2
  · cases h

theorem toString_injective : Function.Injective (toString : Nat → String) := by
  intro i j h
  have hDigits := congrArg (fun s : String => Nat.ofDigitChars 10 s.toList 0) h
  simpa [Nat.toString_eq_ofList_toDigits] using hDigits

theorem Topic.firstGap_range (start count : Nat) (h : start + count ≤ 2 ^ 32) :
    Topic.firstGap start (List.range' start count) = none := by
  induction count generalizing start with
  | zero => rfl
  | succ count ih =>
    have hMod : start % 2 ^ 32 = start := Nat.mod_eq_of_lt (by omega)
    rw [List.range'_succ, firstGap, hMod, if_neg (fun hNe => hNe rfl)]
    exact ih (start + 1) (by omega)

theorem Topic.sorted_eq_range_iff {is : List Nat} {n : Nat} :
    is.insertionSort (· ≤ ·) = List.range n ↔ is.Perm (List.range n) := by
  constructor
  · intro hEq
    rw [← hEq]
    exact (List.perm_insertionSort _ _).symm
  · intro hPerm
    exact List.Perm.eq_of_pairwise' (List.pairwise_insertionSort (· ≤ ·) _)
      (List.pairwise_lt_range.imp fun hlt => Nat.le_of_lt hlt)
      ((List.perm_insertionSort _ _).trans hPerm)

/-- Partition directories `0`, ..., `count - 1` are found as such. -/
theorem Topic.discover_sorted {t : DirTree FileName} {topicDir : DirPath} {count : Nat}
    (hCount : count ≤ 2 ^ 32)
    (hDirs : ∀ c, topicDir ++ [c] ∈ t ↔ ∃ i < count, c = toString i) :
    (discoverPartitionIndices t topicDir).insertionSort (· ≤ ·) = List.range count := by
  have hNodup : (t.children topicDir).Nodup := t.nodup_children topicDir
  have hPerm : (t.children topicDir).Perm ((List.range count).map toString) := by
    rw [List.perm_ext_iff_of_nodup hNodup (List.nodup_range.map toString_injective)]
    intro c
    rw [DirTree.mem_children, hDirs, List.mem_map]
    constructor
    · rintro ⟨i, hi, rfl⟩
      exact ⟨i, List.mem_range.mpr hi, rfl⟩
    · rintro ⟨i, hi, rfl⟩
      exact ⟨i, List.mem_range.mp hi, rfl⟩
  have hParsed : ((List.range count).map toString).filterMap parseU32 = List.range count := by
    rw [List.filterMap_map]
    have hSome : ∀ i ∈ List.range count, (parseU32 ∘ toString) i = some i := by
      intro i hi
      exact parseU32_toString ((List.mem_range.mp hi).trans_le hCount)
    rw [List.filterMap_congr hSome, List.filterMap_some]
  rw [sorted_eq_range_iff, ← hParsed]
  exact hPerm.filterMap parseU32

/-! ## One partition -/

/-- Files that recovery can handle, up to bytes that were cut off. -/
def Intact (X : Crates) (d : Store FileName) : Prop :=
  Fresh d ∨ ∃ h n, Recoverable X d h n

/-- The files of a partition a live writer owns. -/
def Held (X : Crates) (log : Log) (d : Store FileName) : Prop := ∃ h n, Refines X log d h n

/-- Opening these files under the environment cannot go wrong in the end. -/
def Opens (X : Crates) (env : Env FileName) (d : Store FileName) : Prop :=
  Fresh d ∨ Faultless env ∧ Intact X d ∧ Rested d

variable {X : Crates} {env : Env FileName} {d : Store FileName}

theorem Held.intact {log : Log} (h : Held X log d) : Intact X d := by
  obtain ⟨history, n, hRef⟩ := h
  exact Or.inr ⟨history, n, hRef.disk⟩

theorem Held.rested {log : Log} (h : Held X log d) : Rested d := by
  obtain ⟨_, _, L, hLive, -⟩ := h
  exact hLive.rested

theorem Intact.crash {d' : Store FileName} (h : Intact X d) (hSurvives : d.Survives d') :
    Intact X d' := by
  rcases h with hFresh | ⟨history, n, hRec⟩
  · exact Or.inl (hFresh.crash hSurvives)
  · exact Or.inr ⟨history, n, hRec.crash hSurvives⟩

theorem open_fresh (hFresh : Fresh d) (config : LogConfig) :
    wp env (Log.open_ X config)
      { ok := fun log _ w' => Held X log w'.store
        err := fun _ _ _ => ¬ env.Steady
        panic := fun _ _ _ => False
        crash := fun _ w' => ¬ env.Alive ∧ Intact X w'.store } () ⟨d, 0⟩ := by
  refine wp_mono (Log.open_fresh_spec hFresh config) ?_ (fun _ _ _ h => h) (fun _ _ _ h => h) ?_
  · rintro log - w' ⟨-, -, hLive⟩
    exact ⟨History.empty, 0, Layout.initial, hLive, Sound.initial X, ⟨rfl, rfl, rfl⟩,
      Nat.zero_le _⟩
  · rintro - w' ⟨hStop, hLeft | hDisk⟩
    · exact ⟨hStop, Or.inl hLeft⟩
    · exact ⟨hStop, Or.inr ⟨_, _, recoverable_initial hDisk⟩⟩

theorem open_opens (hOpens : Opens X env d) (config : LogConfig) :
    wp env (Log.open_ X config)
      { ok := fun log _ w' => Held X log w'.store
        err := fun _ _ _ => ¬ env.Steady
        panic := fun _ _ _ => False
        crash := fun _ w' => ¬ env.Alive ∧ Intact X w'.store } () ⟨d, 0⟩ := by
  rcases hOpens with hFresh | ⟨hEnv, hIntact, hRested⟩
  · exact open_fresh hFresh config
  · rcases hIntact with hFresh | ⟨history, n, hRec⟩
    · exact open_fresh hFresh config
    · refine wp_mono (open_recoverable (w := ⟨d, 0⟩) hEnv.clean hRec hRested config) ?_
        (fun _ _ _ h => h) (fun _ _ _ h => h) ?_
      · rintro log - w' ⟨-, -, -, hRef⟩
        exact ⟨_, _, hRef⟩
      · rintro - w' ⟨hStop, hRec'⟩
        exact ⟨hStop, Or.inr ⟨_, _, hRec'⟩⟩

section Partition

variable {config : LogConfig} {way : List DirPath} {dir : DirPath} {t t' : DirTree FileName}

/-- Opening a partition: directories are made, and then the log is opened in one of them. -/
theorem openPartition_eq :
    openPartition X config env way dir t =
      ((Log.open_ X config env () ⟨t.filesAt dir, 0⟩).1 >>= fun log => .ok ⟨dir, log⟩,
        (t.createDirs (dirsMade env way)).setFiles dir
          (Log.open_ X config env () ⟨t.filesAt dir, 0⟩).2.2.store) := by
  unfold openPartition
  dsimp only
  rw [DirTree.filesAt_createDirs]

theorem dirsMade_subset : dirsMade env way ⊆ way := by
  unfold dirsMade
  split
  · exact List.take_subset _ _
  · exact List.take_subset _ _
  · exact fun _ h => h

/-- Every other directory keeps its files, and some of those on the way may be new. -/
theorem openPartition_frame {q : DirPath} (hq : q ≠ dir) :
    (openPartition X config env way dir t).2.lookup q = t.lookup q ∨
      q ∈ way ∧ (openPartition X config env way dir t).2.lookup q = some (t.filesAt q) := by
  rw [openPartition_eq]
  dsimp only
  rw [DirTree.lookup_setFiles_ne _ hq, DirTree.lookup_createDirs]
  split
  · next hMade => exact Or.inr ⟨dirsMade_subset hMade, rfl⟩
  · exact Or.inl rfl

theorem mem_openPartition {q : DirPath} (hq : q ∈ t ∨ q ∈ dirsMade env way) :
    q ∈ (openPartition X config env way dir t).2 := by
  have hMade : q ∈ t.createDirs (dirsMade env way) := by
    rw [DirTree.mem_iff, DirTree.lookup_createDirs]
    split
    · exact ⟨_, rfl⟩
    · next hNot => exact DirTree.mem_iff.mp (hq.resolve_right hNot)
  rw [openPartition_eq, DirTree.mem_iff]
  dsimp only
  rw [DirTree.lookup_setFiles]
  split
  · exact ⟨_, rfl⟩
  · exact DirTree.mem_iff.mp hMade

/-- The files of the partition, if its directory is there in the end. -/
theorem openPartition_self {d : Store FileName}
    (h : (openPartition X config env way dir t).2.lookup dir = some d) :
    d = (Log.open_ X config env () ⟨t.filesAt dir, 0⟩).2.2.store := by
  rw [openPartition_eq] at h
  dsimp only at h
  rw [DirTree.lookup_setFiles] at h
  split at h
  · exact (Option.some.inj h).symm
  · next hNot =>
    have hMem : dir ∈ t.createDirs (dirsMade env way) := DirTree.mem_iff.mpr ⟨d, h⟩
    exact absurd ⟨rfl, hMem⟩ hNot

/-- A log that was opened has had its directory made. -/
theorem dirsMade_of_ok {d : Store FileName} {log : Log} {u : Unit} {w : World FileName}
    (h : Log.open_ X config env () ⟨d, 0⟩ = (.ok log, u, w)) : dirsMade env way = way := by
  obtain ⟨_, s₁, w₁, hMkdir, -⟩ := Fx.bind_eq_ok h
  unfold Fx.mkdir Fx.perform at hMkdir
  unfold dirsMade
  dsimp only at hMkdir
  split at hMkdir
  · cases hMkdir
  · cases hMkdir
  · next hOk => rw [hOk]
  · next hShort => rw [hShort]

/-- How the opening of a partition can end. -/
def PartitionEnds (X : Crates) (env : Env FileName) (way : List DirPath) (dir : DirPath)
    (t' : DirTree FileName) : Res KafkoError PlacedLog → Prop
  | .ok p => p.dir = dir ∧ (∃ d, t'.lookup dir = some d ∧ Held X p.log d) ∧ ∀ q ∈ way, q ∈ t'
  | .err _ => ¬ env.Steady
  | .panic _ => False
  | .crash => ¬ env.Alive ∧ ∀ d, t'.lookup dir = some d → Intact X d

theorem openPartition_spec (hOpens : Opens X env (t.filesAt dir)) (hDir : dir ∈ way)
    {r : Res KafkoError PlacedLog} (hRun : openPartition X config env way dir t = (r, t')) :
    PartitionEnds X env way dir t' r := by
  have hSpec := open_opens hOpens config
  have hTree : (openPartition X config env way dir t).2 = t' := congrArg Prod.snd hRun
  have hResult := congrArg Prod.fst hRun
  have hSelf : ∀ d, t'.lookup dir = some d →
      d = (Log.open_ X config env () ⟨t.filesAt dir, 0⟩).2.2.store := by
    intro d hd
    rw [← hTree] at hd
    exact openPartition_self hd
  unfold wp at hSpec
  rw [openPartition_eq] at hResult
  rcases hLog : Log.open_ X config env () ⟨t.filesAt dir, 0⟩ with ⟨r₀, u, w⟩
  rw [hLog] at hSpec hResult hSelf
  subst hResult
  cases r₀ with
  | err e => exact hSpec
  | panic m => exact hSpec
  | crash =>
    refine ⟨hSpec.1, ?_⟩
    intro d hd
    rw [hSelf d hd]
    exact hSpec.2
  | ok log =>
    have hMade : dirsMade env way = way := dirsMade_of_ok hLog
    have hAll : ∀ q ∈ way, q ∈ t' := by
      intro q hq
      rw [← hTree]
      exact mem_openPartition (Or.inr (hMade.symm ▸ hq))
    refine ⟨rfl, ?_, hAll⟩
    obtain ⟨d, hd⟩ := DirTree.mem_iff.mp (hAll dir hDir)
    refine ⟨d, hd, ?_⟩
    rw [hSelf d hd]
    exact hSpec

end Partition

/-! ## All partitions of a topic -/

/-- The partitions of a topic are in the directories of the given indices, each with a live
log. -/
def Manned (X : Crates) (topicDir : DirPath) (t : DirTree FileName) (is : List Nat)
    (ps : List PlacedLog) : Prop :=
  List.Forall₂ (fun i p => p.dir = topicDir ++ [toString i] ∧
    ∃ d, t.lookup p.dir = some d ∧ Held X p.log d) is ps

/-- How the opening of the partitions can end. -/
def PartitionsEnd (X : Crates) (envs : Nat → Env FileName) (way : List DirPath) (topicDir : DirPath)
    (is : List Nat) (t' : DirTree FileName) : Res KafkoError (List PlacedLog) → Prop
  | .ok ps => Manned X topicDir t' is ps ∧ (is ≠ [] → ∀ q ∈ way, q ∈ t')
  | .err _ => ∃ i ∈ is, ¬ (envs i).Steady
  | .panic _ => False
  | .crash => (∃ i ∈ is, ¬ (envs i).Alive) ∧
      ∀ i ∈ is, ∀ d, t'.lookup (topicDir ++ [toString i]) = some d → Intact X d

/-- `t'` is `t` with some new directories of the way and other files in the partitions. -/
structure Extends (way : List DirPath) (topicDir : DirPath) (is : List Nat)
    (t t' : DirTree FileName) : Prop where
  others : ∀ q, (∀ i ∈ is, q ≠ topicDir ++ [toString i]) →
    t'.lookup q = t.lookup q ∨ q ∈ way ∧ t'.lookup q = some (t.filesAt q)
  kept : ∀ q ∈ t, q ∈ t'

namespace Extends

variable {way : List DirPath} {topicDir : DirPath} {is : List Nat}
  {t t' t'' : DirTree FileName} {q : DirPath}

theorem filesAt (h : Extends way topicDir is t t')
    (hq : ∀ i ∈ is, q ≠ topicDir ++ [toString i]) : t'.filesAt q = t.filesAt q := by
  rcases h.others q hq with hSame | ⟨-, hNew⟩
  · rw [DirTree.filesAt, hSame, DirTree.filesAt]
  · rw [DirTree.filesAt, hNew, Option.getD_some]

theorem lookup_some (h : Extends way topicDir is t t')
    (hq : ∀ i ∈ is, q ≠ topicDir ++ [toString i]) {d : Store FileName}
    (hd : t.lookup q = some d) : t'.lookup q = some d := by
  rcases h.others q hq with hSame | ⟨-, hNew⟩
  · rw [hSame, hd]
  · rw [hNew, DirTree.filesAt, hd, Option.getD_some]

/-- Opening one partition. -/
theorem one {X : Crates} {config : LogConfig} {env : Env FileName} {i : Nat} :
    Extends way topicDir [i] t
      (openPartition X config env (way ++ [topicDir ++ [toString i]])
        (topicDir ++ [toString i]) t).2
      := by
  constructor
  · intro q hq
    have hNe := hq i List.mem_cons_self
    rcases openPartition_frame hNe with hSame | ⟨hWay, hNew⟩
    · exact Or.inl hSame
    · rcases List.mem_append.mp hWay with hMem | hLast
      · exact Or.inr ⟨hMem, hNew⟩
      · exact absurd (List.mem_singleton.mp hLast) hNe
  · intro q hq
    exact mem_openPartition (Or.inl hq)

theorem trans {i : Nat} (h : Extends way topicDir [i] t t') (h' : Extends way topicDir is t' t'') :
    Extends way topicDir (i :: is) t t'' := by
  constructor
  · intro q hq
    have hOne : ∀ j ∈ [i], q ≠ topicDir ++ [toString j] := by
      intro j hj
      rw [List.mem_singleton.mp hj]
      exact hq i List.mem_cons_self
    have hRest : ∀ j ∈ is, q ≠ topicDir ++ [toString j] := fun j hj =>
      hq j (List.mem_cons_of_mem _ hj)
    rcases h'.others q hRest with hSame | ⟨hWay, hNew⟩
    · rw [hSame]
      exact h.others q hOne
    · rw [hNew, h.filesAt hOne]
      exact Or.inr ⟨hWay, rfl⟩
  · intro q hq
    exact h'.kept q (h.kept q hq)

end Extends

theorem Opens.intact {X : Crates} {env : Env FileName} {d : Store FileName} (h : Opens X env d) :
    Intact X d := by
  rcases h with hFresh | ⟨-, hIntact, -⟩
  · exact Or.inl hFresh
  · exact hIntact

section Partitions

variable {X : Crates} {config : LogConfig} {envs : Nat → Env FileName} {way : List DirPath}
  {topicDir : DirPath} {is : List Nat} {t t' : DirTree FileName}
  {r : Res KafkoError (List PlacedLog)}

/-- The spec of the loop, by induction on the indices: what is opened stays as it is while the
others are opened, and what is not yet opened can still be. -/
theorem openPartitions_spec (hNodup : is.Nodup)
    (hOpens : ∀ i ∈ is, Opens X (envs i) (t.filesAt (topicDir ++ [toString i])))
    (hRun : openPartitions X config envs way topicDir is t = (r, t')) :
    Extends way topicDir is t t' ∧ PartitionsEnd X envs way topicDir is t' r := by
  induction is generalizing t t' r with
  | nil =>
    cases hRun
    refine ⟨⟨fun q _ => Or.inl rfl, fun q hq => hq⟩, List.Forall₂.nil, ?_⟩
    exact fun hNe => absurd rfl hNe
  | cons i is ih =>
    obtain ⟨hNew, hNodup⟩ := List.nodup_cons.mp hNodup
    have hApart : ∀ j ∈ is, topicDir ++ [toString j] ≠ topicDir ++ [toString i] := by
      intro j hj hEq
      have hStr : toString j = toString i := by simpa using hEq
      exact hNew (toString_injective hStr ▸ hj)
    have hApart' : ∀ j ∈ is, ∀ k ∈ [i], topicDir ++ [toString j] ≠ topicDir ++ [toString k] := by
      intro j hj k hk
      rw [List.mem_singleton.mp hk]
      exact hApart j hj
    rw [openPartitions, (PlainName.toString i).join] at hRun
    have hOne : Extends way topicDir [i] t (openPartition X config (envs i)
        (way ++ [topicDir ++ [toString i]]) (topicDir ++ [toString i]) t).2 := Extends.one
    rcases hFirst : openPartition X config (envs i) (way ++ [topicDir ++ [toString i]])
      (topicDir ++ [toString i]) t with ⟨r₁, t₁⟩
    have hSpec := openPartition_spec (hOpens i List.mem_cons_self)
      (List.mem_append_right _ List.mem_cons_self) hFirst
    rw [hFirst] at hRun hOne
    have hStop : Extends way topicDir (i :: is) t t₁ :=
      hOne.trans ⟨fun q _ => Or.inl rfl, fun q hq => hq⟩
    cases r₁ with
    | err e =>
      cases hRun
      exact ⟨hStop, i, List.mem_cons_self, hSpec⟩
    | panic m => exact hSpec.elim
    | crash =>
      cases hRun
      obtain ⟨hAlive, hIntact⟩ := hSpec
      refine ⟨hStop, ⟨i, List.mem_cons_self, hAlive⟩, ?_⟩
      intro j hj d hd
      rcases List.mem_cons.mp hj with rfl | hj
      · exact hIntact d hd
      · have hFiles := hOne.filesAt (hApart' j hj)
        rw [DirTree.filesAt, hd, Option.getD_some] at hFiles
        rw [hFiles]
        exact (hOpens j (List.mem_cons_of_mem _ hj)).intact
    | ok p =>
      obtain ⟨hDir, ⟨d, hd, hHeld⟩, hWay⟩ := hSpec
      have hOpens' : ∀ j ∈ is, Opens X (envs j) (t₁.filesAt (topicDir ++ [toString j])) := by
        intro j hj
        rw [hOne.filesAt (hApart' j hj)]
        exact hOpens j (List.mem_cons_of_mem _ hj)
      dsimp only at hRun
      rcases hRest : openPartitions X config envs way topicDir is t₁ with ⟨r₂, t₂⟩
      obtain ⟨hExtends, hEnd⟩ := ih hNodup hOpens' hRest
      have hHead : t₂.lookup (topicDir ++ [toString i]) = some d :=
        hExtends.lookup_some (fun j hj => (hApart j hj).symm) hd
      rw [hRest] at hRun
      cases r₂ with
      | err e =>
        cases hRun
        obtain ⟨j, hj, hSteady⟩ := hEnd
        exact ⟨hOne.trans hExtends, j, List.mem_cons_of_mem _ hj, hSteady⟩
      | panic m => exact hEnd.elim
      | crash =>
        cases hRun
        obtain ⟨⟨j, hj, hAlive⟩, hIntact⟩ := hEnd
        refine ⟨hOne.trans hExtends, ⟨j, List.mem_cons_of_mem _ hj, hAlive⟩, ?_⟩
        intro k hk d' hd'
        rcases List.mem_cons.mp hk with rfl | hk
        · rw [hHead] at hd'
          cases hd'
          exact hHeld.intact
        · exact hIntact k hk d' hd'
      | ok ps =>
        cases hRun
        obtain ⟨hManned, -⟩ := hEnd
        refine ⟨hOne.trans hExtends, List.Forall₂.cons ⟨hDir, d, ?_, hHeld⟩ hManned, ?_⟩
        · rw [hDir]
          exact hHead
        · intro _ q hq
          exact hExtends.kept q (hWay q (List.mem_append_left _ hq))

/-- If the machine stops in the last partition, after its directory was made, then all
directories are there. -/
theorem openPartitions_crash (hMade : ∀ i ∈ is, (envs i).outcome 0 .mkdir = .ok)
    (hAlive : ∀ i ∈ is.dropLast, (envs i).Alive) (hNodup : is.Nodup)
    (hOpens : ∀ i ∈ is, Opens X (envs i) (t.filesAt (topicDir ++ [toString i])))
    (hRun : openPartitions X config envs way topicDir is t = (.crash, t')) :
    ∀ q, (q ∈ way ∨ ∃ i ∈ is, q = topicDir ++ [toString i]) → q ∈ t' := by
  induction is generalizing t t' with
  | nil => cases hRun
  | cons i is ih =>
    have hNodup' := (List.nodup_cons.mp hNodup).2
    have hAll : dirsMade (envs i) (way ++ [topicDir ++ [toString i]]) =
        way ++ [topicDir ++ [toString i]] := by
      rw [dirsMade, hMade i List.mem_cons_self]
    have hHere : ∀ q ∈ way ++ [topicDir ++ [toString i]],
        q ∈ (openPartition X config (envs i) (way ++ [topicDir ++ [toString i]])
          (topicDir ++ [toString i]) t).2 := by
      intro q hq
      apply mem_openPartition
      rw [hAll]
      exact Or.inr hq
    have hOne : Extends way topicDir [i] t (openPartition X config (envs i)
        (way ++ [topicDir ++ [toString i]]) (topicDir ++ [toString i]) t).2 := Extends.one
    rw [openPartitions, (PlainName.toString i).join] at hRun
    rcases hFirst : openPartition X config (envs i) (way ++ [topicDir ++ [toString i]])
      (topicDir ++ [toString i]) t with ⟨r₁, t₁⟩
    have hSpec := openPartition_spec (hOpens i List.mem_cons_self)
      (List.mem_append_right way List.mem_cons_self) hFirst
    rw [hFirst] at hRun hHere hOne
    cases r₁ with
    | err e => cases hRun
    | panic m => cases hRun
    | crash =>
      cases hRun
      cases is with
      | nil =>
        intro q hq
        apply hHere
        rcases hq with hWay | ⟨j, hj, rfl⟩
        · exact List.mem_append_left _ hWay
        · rw [List.mem_singleton.mp hj]
          exact List.mem_append_right _ List.mem_cons_self
      | cons j is => exact absurd (hAlive i List.mem_cons_self) hSpec.1
    | ok p =>
      have hApart : ∀ j ∈ is, ∀ k ∈ [i], topicDir ++ [toString j] ≠ topicDir ++ [toString k] := by
        intro j hj k hk hEq
        have hStr : toString j = toString k := by simpa using hEq
        rw [List.mem_singleton.mp hk] at hStr
        exact (List.nodup_cons.mp hNodup).1 (toString_injective hStr ▸ hj)
      have hOpens' : ∀ j ∈ is, Opens X (envs j) (t₁.filesAt (topicDir ++ [toString j])) := by
        intro j hj
        rw [hOne.filesAt (hApart j hj)]
        exact hOpens j (List.mem_cons_of_mem _ hj)
      dsimp only at hRun
      rcases hRest : openPartitions X config envs way topicDir is t₁ with ⟨r₂, t₂⟩
      rw [hRest] at hRun
      cases r₂ with
      | err e => cases hRun
      | panic m => cases hRun
      | ok ps => cases hRun
      | crash =>
        cases hRun
        have hKept := (openPartitions_spec hNodup' hOpens' hRest).1.kept
        have hTail : ∀ j ∈ is.dropLast, (envs j).Alive := by
          intro j hj
          cases is with
          | nil => cases hj
          | cons k is => exact hAlive j (List.mem_cons_of_mem _ hj)
        have hAllRest := ih (fun j hj => hMade j (List.mem_cons_of_mem _ hj)) hTail hNodup' hOpens'
          hRest
        intro q hq
        rcases hq with hWay | ⟨j, hj, rfl⟩
        · exact hAllRest q (Or.inl hWay)
        · rcases List.mem_cons.mp hj with rfl | hj
          · exact hKept _ (hHere _ (List.mem_append_right _ List.mem_cons_self))
          · exact hAllRest _ (Or.inr ⟨j, hj, rfl⟩)

end Partitions

/-- `Topic::open` on a directory with partitions `0`, ..., `count - 1`. -/
theorem Topic.open_eq {X : Crates} {config : LogConfig} {envs : Nat → Env FileName}
    {topicDir : DirPath} {name : String} {t : DirTree FileName} {count : Nat}
    (hPositive : 0 < count)
    (hCount : count ≤ 2 ^ 32)
    (hDirs : ∀ c, topicDir ++ [c] ∈ t ↔ ∃ i < count, c = toString i) :
    Topic.open_ X config envs topicDir name t =
      openPartitions X config envs topicDir.inits topicDir (List.range count) t := by
  have hNonempty : List.range count ≠ [] := by
    rw [Ne, List.range_eq_nil]
    omega
  unfold open_
  rw [discover_sorted hCount hDirs]
  dsimp only
  rw [if_neg hNonempty, List.range_eq_range', firstGap_range 0 count (by omega)]


end Kafko
