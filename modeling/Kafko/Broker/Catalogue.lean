import Kafko.Broker.Recovery
import Mathlib.Logic.Function.Basic

/-!
# The catalogue of a data directory

The number of partitions of a topic is stored nowhere but in the directories. `Catalogue` says
that a data directory holds a topic for each name with a positive count, and in it exactly the
partitions up to that count. As long as names are plain and the partitions of a topic are made
all or not at all, every call of the broker keeps the directory a catalogue, and the registry
of a running broker agrees with it.
-/

namespace Kafko

open Disk

/-- Below the data directory there are the topics with a positive count and their partitions. -/
structure Catalogue (root : DirPath) (t : DirTree FileName) (counts : String → Nat) : Prop where
  plain : ∀ n, 0 < counts n → PlainName n
  small : ∀ n, counts n ≤ 2 ^ 32
  topics : ∀ n, root ++ [n] ∈ t ↔ 0 < counts n
  partitions : ∀ n c, root ++ [n] ++ [c] ∈ t ↔ ∃ i < counts n, c = toString i

/-- The files of every partition can be recovered. -/
def FilesIntact (X : Crates) (root : DirPath) (t : DirTree FileName) (counts : String → Nat) :
    Prop :=
  ∀ n, ∀ i < counts n, ∀ d, t.lookup (root ++ [n] ++ [toString i]) = some d → Intact X d

/-- No file of a partition has bytes cut off that a crash could bring back. -/
def FilesRested (root : DirPath) (t : DirTree FileName) (counts : String → Nat) : Prop :=
  ∀ n, ∀ i < counts n, ∀ d, t.lookup (root ++ [n] ++ [toString i]) = some d → Rested d

/-- The registry has the topics of the catalogue, each with a writer for every partition. -/
def Serves (X : Crates) (root : DirPath) (t : DirTree FileName) (topics : Registry)
    (counts : String → Nat) : Prop :=
  (∀ n, topics.lookup n = none → counts n = 0) ∧
    ∀ n ps, topics.lookup n = some ps →
      0 < counts n ∧ Manned X (root ++ [n]) t (List.range (counts n)) ps

/-- The two trees agree on a topic. -/
def SameTopic (root : DirPath) (n : String) (t t' : DirTree FileName) : Prop :=
  (root ++ [n] ∈ t' ↔ root ++ [n] ∈ t) ∧
    ∀ c, t'.lookup (root ++ [n] ++ [c]) = t.lookup (root ++ [n] ++ [c])

variable {X : Crates} {root : DirPath} {t t' : DirTree FileName} {counts : String → Nat}
  {topics : Registry} {n : String}

/-! ## Frames -/

theorem Manned.congr {topicDir : DirPath} {is : List Nat} {ps : List PlacedLog}
    (h : Manned X topicDir t is ps)
    (hSame : ∀ i ∈ is, t'.lookup (topicDir ++ [toString i]) = t.lookup (topicDir ++ [toString i])) :
    Manned X topicDir t' is ps := by
  unfold Manned at *
  induction h with
  | nil => exact List.Forall₂.nil
  | @cons i p is ps hHead hTail ih =>
    obtain ⟨hDir, d, hd, hHeld⟩ := hHead
    refine List.Forall₂.cons ⟨hDir, d, ?_, hHeld⟩
      (ih fun j hj => hSame j (List.mem_cons_of_mem _ hj))
    rw [hDir] at hd ⊢
    rw [hSame i List.mem_cons_self, hd]

theorem Manned.held {topicDir : DirPath} {is : List Nat} {ps : List PlacedLog}
    (h : Manned X topicDir t is ps) {i : Nat} (hi : i ∈ is) :
    ∃ log d, t.lookup (topicDir ++ [toString i]) = some d ∧ Held X log d := by
  unfold Manned at h
  induction h with
  | nil => cases hi
  | @cons j p is ps hHead hTail ih =>
    rcases List.mem_cons.mp hi with rfl | hi
    · obtain ⟨hDir, d, hd, hHeld⟩ := hHead
      rw [hDir] at hd
      exact ⟨p.log, d, hd, hHeld⟩
    · exact ih hi

theorem Manned.dir_of_mem {topicDir : DirPath} {is : List Nat} {ps : List PlacedLog}
    (h : Manned X topicDir t is ps) {p : PlacedLog} (hp : p ∈ ps) :
    ∃ i ∈ is, p.dir = topicDir ++ [toString i] := by
  unfold Manned at h
  induction h with
  | nil => cases hp
  | @cons i q is ps hHead hTail ih =>
    rcases List.mem_cons.mp hp with rfl | hp
    · exact ⟨i, List.mem_cons_self, hHead.1⟩
    · obtain ⟨j, hj, hDir⟩ := ih hp
      exact ⟨j, List.mem_cons_of_mem _ hj, hDir⟩

theorem SameTopic.lookup_mem (h : SameTopic root n t t') (c : String) :
    root ++ [n] ++ [c] ∈ t' ↔ root ++ [n] ++ [c] ∈ t := by
  rw [DirTree.mem_iff, DirTree.mem_iff, h.2]

namespace Serves

/-- A served catalogue is intact and at rest. -/
theorem files (h : Serves X root t topics counts) :
    FilesIntact X root t counts ∧ FilesRested root t counts := by
  have hHeld : ∀ n, ∀ i < counts n, ∀ d, t.lookup (root ++ [n] ++ [toString i]) = some d →
      ∃ log, Held X log d := by
    intro n i hi d hd
    cases hTopic : topics.lookup n with
    | none =>
      rw [h.1 n hTopic] at hi
      omega
    | some ps =>
      obtain ⟨log, d', hd', hHeld⟩ := (h.2 n ps hTopic).2.held (List.mem_range.mpr hi)
      rw [hd] at hd'
      cases hd'
      exact ⟨log, hHeld⟩
  constructor
  · intro n i hi d hd
    obtain ⟨log, hHeld⟩ := hHeld n i hi d hd
    exact hHeld.intact
  · intro n i hi d hd
    obtain ⟨log, hHeld⟩ := hHeld n i hi d hd
    exact hHeld.rested

theorem count_eq (h : Serves X root t topics counts) {ps : List PlacedLog}
    (hTopic : topics.lookup n = some ps) : ps.length = counts n := by
  have hLength := (h.2 n ps hTopic).2.length_eq
  rw [List.length_range] at hLength
  exact hLength.symm

theorem mem_iff (h : Serves X root t topics counts) : n ∈ topics ↔ 0 < counts n := by
  cases hTopic : topics.lookup n with
  | none =>
    rw [h.1 n hTopic]
    exact iff_of_false (AList.lookup_eq_none.mp hTopic) (Nat.lt_irrefl 0)
  | some ps =>
    have hMem : n ∈ topics := AList.lookup_isSome.mp (by rw [hTopic]; rfl)
    exact iff_of_true hMem (h.2 n ps hTopic).1

end Serves

/-- Only the topic `n` differs, and its files can be recovered. -/
theorem FilesIntact.update {counts' : String → Nat} (h : FilesIntact X root t counts)
    (hCounts : ∀ m, m ≠ n → counts' m = counts m) (hOthers : ∀ m, m ≠ n → SameTopic root m t t')
    (hTopic : ∀ i < counts' n, ∀ d, t'.lookup (root ++ [n] ++ [toString i]) = some d → Intact X d) :
    FilesIntact X root t' counts' := by
  intro m i hi d hd
  by_cases hEq : m = n
  · subst hEq
    exact hTopic i hi d hd
  · rw [hCounts m hEq] at hi
    rw [(hOthers m hEq).2] at hd
    exact h m i hi d hd

/-- Only the topic `n` differs, and it now has `count` partitions. -/
theorem Catalogue.update (h : Catalogue root t counts) {count : Nat} (hCount : count ≤ 2 ^ 32)
    (hPlain : 0 < count → PlainName n) (hOthers : ∀ m, m ≠ n → SameTopic root m t t')
    (hTopic : root ++ [n] ∈ t' ↔ 0 < count)
    (hDirs : ∀ c, root ++ [n] ++ [c] ∈ t' ↔ ∃ i < count, c = toString i) :
    Catalogue root t' (Function.update counts n count) := by
  constructor
  · intro m hm
    by_cases hEq : m = n
    · rw [hEq, Function.update_self] at hm
      rw [hEq]
      exact hPlain hm
    · rw [Function.update_of_ne hEq] at hm
      exact h.plain m hm
  · intro m
    by_cases hEq : m = n
    · rw [hEq, Function.update_self]
      exact hCount
    · rw [Function.update_of_ne hEq]
      exact h.small m
  · intro m
    by_cases hEq : m = n
    · rw [hEq, Function.update_self]
      exact hTopic
    · rw [Function.update_of_ne hEq, (hOthers m hEq).1]
      exact h.topics m
  · intro m c
    by_cases hEq : m = n
    · rw [hEq, Function.update_self]
      exact hDirs c
    · rw [Function.update_of_ne hEq, (hOthers m hEq).lookup_mem]
      exact h.partitions m c

theorem Catalogue.congr (h : Catalogue root t counts)
    (hTopics : ∀ n, root ++ [n] ∈ t' ↔ root ++ [n] ∈ t)
    (hParts : ∀ n c, root ++ [n] ++ [c] ∈ t' ↔ root ++ [n] ++ [c] ∈ t) :
    Catalogue root t' counts where
  plain := h.plain
  small := h.small
  topics n := (hTopics n).trans (h.topics n)
  partitions n c := (hParts n c).trans (h.partitions n c)

/-! ## Creating a topic -/

/-- Below the data directory the way leads to the topic only. -/
def LeadsTo (root : DirPath) (n : String) (way : List DirPath) : Prop :=
  ∀ p, root ++ p ∈ way → p = [] ∨ p = [n]

theorem leadsTo_inits (root : DirPath) (n : String) : LeadsTo root n (root ++ [n]).inits := by
  intro p hp
  have hPrefix : p <+: [n] := by
    rw [List.mem_inits] at hp
    exact (List.prefix_append_right_inj root).mp hp
  rcases List.prefix_cons_iff.mp hPrefix with rfl | ⟨q, rfl, hq⟩
  · exact Or.inl rfl
  · rw [List.prefix_nil.mp hq]
    exact Or.inr rfl

theorem leadsTo_wayTo (root : DirPath) (hPlain : PlainName n) : LeadsTo root n (root.wayTo n) := by
  intro p hp
  apply leadsTo_inits root n p
  rw [hPlain.wayTo] at hp
  rw [List.mem_inits]
  rcases List.mem_append.mp hp with hInit | hLast
  · exact ((List.mem_inits _ _).mp hInit).trans (List.prefix_append _ _)
  · rw [List.mem_singleton.mp hLast]

section Frame

variable {way : List DirPath} {is : List Nat}

/-- Opening partitions of one topic leaves what is no partition of it alone. -/
theorem Extends.lookup_below (h : Extends way (root ++ [n]) is t t') (hWay : LeadsTo root n way)
    {p : DirPath} (hNil : p ≠ []) (hTopic : p ≠ [n]) (hOwn : ∀ i ∈ is, p ≠ [n, toString i]) :
    t'.lookup (root ++ p) = t.lookup (root ++ p) := by
  have hNot : ∀ i ∈ is, root ++ p ≠ root ++ [n] ++ [toString i] := by
    intro i hi hEq
    apply hOwn i hi
    simpa using hEq
  rcases h.others _ hNot with hSame | ⟨hMem, -⟩
  · exact hSame
  · exact absurd (hWay p hMem) (by simp [hNil, hTopic])

theorem Extends.sameTopic (h : Extends way (root ++ [n]) is t t') (hWay : LeadsTo root n way)
    {m : String} (hNe : m ≠ n) : SameTopic root m t t' := by
  constructor
  · rw [DirTree.mem_iff, DirTree.mem_iff, h.lookup_below hWay (by simp) (by simp [hNe]) (by simp)]
  · intro c
    rw [List.append_assoc]
    exact h.lookup_below hWay (by simp) (by simp) (by simp [hNe])

end Frame

/-- A topic whose partitions were all made, on a catalogue without it. -/
theorem Catalogue.created (h : Catalogue root t counts) (hPlain : PlainName n)
    (hNew : counts n = 0) {way : List DirPath} (hWay : LeadsTo root n way) {count : Nat}
    (hPositive : 0 < count) (hCount : count ≤ 2 ^ 32)
    (hExtends : Extends way (root ++ [n]) (List.range count) t t') (hTopic : root ++ [n] ∈ t')
    (hMade : ∀ i < count, root ++ [n] ++ [toString i] ∈ t') :
    Catalogue root t' (Function.update counts n count) := by
  apply h.update hCount (fun _ => hPlain) (fun m hm => hExtends.sameTopic hWay hm)
  · exact iff_of_true hTopic hPositive
  · intro c
    constructor
    · intro hMem
      by_contra hNot
      have hOwn : ∀ i ∈ List.range count, [n] ++ [c] ≠ [n, toString i] := by
        intro i hi hEq
        exact hNot ⟨i, List.mem_range.mp hi, by simpa using hEq⟩
      have hOld : root ++ [n] ++ [c] ∈ t := by
        rw [DirTree.mem_iff, List.append_assoc] at hMem ⊢
        rwa [hExtends.lookup_below hWay (by simp) (by simp) hOwn] at hMem
      obtain ⟨i, hi, -⟩ := (h.partitions n c).mp hOld
      omega
    · rintro ⟨i, hi, rfl⟩
      exact hMade i hi

/-- A topic that is not in the catalogue finds no files where its partitions will be. -/
theorem Catalogue.fresh (h : Catalogue root t counts) (hNew : counts n = 0) (c : String) :
    Fresh (t.filesAt (root ++ [n] ++ [c])) := by
  have hNone : t.lookup (root ++ [n] ++ [c]) = none := by
    rw [AList.lookup_eq_none, h.partitions]
    rintro ⟨i, hi, -⟩
    omega
  intro name
  rw [DirTree.filesAt, hNone, Option.getD_none, Store.get_empty]

theorem uint32_le (count : UInt32) : count.toNat ≤ 2 ^ 32 := Nat.le_of_lt count.toNat_lt

/-- A served catalogue to which a topic is added. -/
theorem Serves.insert (h : Serves X root t topics counts) {count : Nat} (hPositive : 0 < count)
    (hOthers : ∀ m, m ≠ n → SameTopic root m t t') {ps : List PlacedLog}
    (hManned : Manned X (root ++ [n]) t' (List.range count) ps) :
    Serves X root t' (topics.insert n ps) (Function.update counts n count) := by
  constructor
  · intro m hm
    by_cases hEq : m = n
    · rw [hEq, AList.lookup_insert] at hm
      cases hm
    · rw [AList.lookup_insert_ne hEq] at hm
      rw [Function.update_of_ne hEq]
      exact h.1 m hm
  · intro m qs hm
    by_cases hEq : m = n
    · rw [hEq, AList.lookup_insert] at hm
      cases hm
      rw [hEq, Function.update_self]
      exact ⟨hPositive, hManned⟩
    · rw [AList.lookup_insert_ne hEq] at hm
      rw [Function.update_of_ne hEq]
      obtain ⟨hCount, hOld⟩ := h.2 m qs hm
      exact ⟨hCount, hOld.congr fun i _ => (hOthers m hEq).2 _⟩

/-- The topic a successful call has created. -/
theorem Topic.create_spec {config : LogConfig} {envs : Nat → Env FileName} {count : UInt32}
    {r : Res KafkoError (List PlacedLog)} (h : Catalogue root t counts) (hPlain : PlainName n)
    (hNew : counts n = 0) (hPositive : 0 < count.toNat)
    (hRun : Topic.create X config envs root n count t = (r, t')) :
    Extends (root.wayTo n) (root ++ [n]) (List.range count.toNat) t t' ∧
      PartitionsEnd X envs (root.wayTo n) (root ++ [n]) (List.range count.toNat) t' r := by
  have hNe : count ≠ 0 := by
    rintro rfl
    exact Nat.lt_irrefl 0 hPositive
  rw [Topic.create, if_neg hNe, hPlain.join] at hRun
  exact openPartitions_spec List.nodup_range (fun i _ => Or.inl (h.fresh hNew _)) hRun

/-! ## A data directory in order -/

/-- The data directory holds the topics of the catalogue, and a running broker serves them. -/
structure Stands (X : Crates) (root : DirPath) (s : Site) (counts : String → Nat) : Prop where
  catalogue : Catalogue root s.tree counts
  intact : FilesIntact X root s.tree counts
  rested : FilesRested root s.tree counts
  serving : ∀ topics, s.topics = some topics → Serves X root s.tree topics counts

/-- What a call may leave: a directory in order, or, if the machine has stopped in the call,
one in which every partition can be recovered. -/
structure Lands (X : Crates) (root : DirPath) (r : Res KafkoError Unit) (s : Site)
    (counts : String → Nat) : Prop where
  catalogue : Catalogue root s.tree counts
  intact : FilesIntact X root s.tree counts
  stands : r ≠ .crash → Stands X root s counts
  down : r = .crash → s.topics = none

variable {s s' : Site} {r : Res KafkoError Unit}

theorem Stands.lands (h : Stands X root s counts) (hRuns : r ≠ .crash) : Lands X root r s counts :=
  ⟨h.catalogue, h.intact, fun _ => h, fun hCrash => absurd hCrash hRuns⟩

theorem Serves.stands (h : Serves X root t topics counts) (hCat : Catalogue root t counts) :
    Stands X root ⟨t, some topics⟩ counts := by
  refine ⟨hCat, h.files.1, h.files.2, ?_⟩
  intro topics' hEq
  cases hEq
  exact h

theorem lands_of_crash (hCat : Catalogue root t counts) (hIntact : FilesIntact X root t counts) :
    Lands X root .crash ⟨t, none⟩ counts :=
  ⟨hCat, hIntact, fun hNot => absurd rfl hNot, fun _ => rfl⟩

/-- A call that ends in an error and leaves the registry and everything below the data
directory alone. -/
theorem Stands.unchanged (h : Stands X root s counts) (hUp : s.topics = some topics)
    (hSame : ∀ p, p ≠ [] → t'.lookup (root ++ p) = s.tree.lookup (root ++ p)) :
    Stands X root ⟨t', some topics⟩ counts := by
  have hMem : ∀ p, p ≠ [] → (root ++ p ∈ t' ↔ root ++ p ∈ s.tree) := by
    intro p hp
    rw [DirTree.mem_iff, DirTree.mem_iff, hSame p hp]
  have hParts : ∀ m c, t'.lookup (root ++ [m] ++ [c]) = s.tree.lookup (root ++ [m] ++ [c]) := by
    intro m c
    rw [List.append_assoc]
    exact hSame _ (by simp)
  refine Serves.stands ⟨(h.serving topics hUp).1, ?_⟩ (h.catalogue.congr ?_ ?_)
  · intro m ps hm
    obtain ⟨hPositive, hManned⟩ := (h.serving topics hUp).2 m ps hm
    exact ⟨hPositive, hManned.congr fun i _ => hParts m _⟩
  · exact fun m => hMem [m] (by simp)
  · intro m c
    rw [List.append_assoc]
    exact hMem _ (by simp)

/-- A successful call adds its topic to the catalogue. -/
theorem Stands.created {config : LogConfig} {partitions : UInt32} {envs : Nat → Env FileName}
    {topics' : Registry} (h : Stands X root s counts) (hUp : s.topics = some topics)
    (hPlain : PlainName n)
    (hRun : createTopicInner X root n config partitions envs topics s.tree =
      (.ok (), topics', t')) :
    Stands X root ⟨t', some topics'⟩ (Function.update counts n partitions.toNat) := by
  rcases createTopicInner_registry hRun with ⟨hNot, -⟩ | ⟨-, hPositive, hMem, ps, hInsert, hCreate⟩
  · exact absurd rfl hNot
  dsimp only at hInsert hCreate
  have hServing := h.serving topics hUp
  have hNew : counts n = 0 := hServing.1 n (AList.lookup_eq_none.mpr hMem)
  obtain ⟨hExtends, hManned, hWay⟩ :=
    Topic.create_spec h.catalogue hPlain hNew hPositive hCreate
  have hLeads := leadsTo_wayTo root hPlain
  have hTopic : root ++ [n] ∈ t' := by
    apply hWay (by rw [Ne, List.range_eq_nil]; omega)
    rw [hPlain.wayTo]
    exact List.mem_append_right _ List.mem_cons_self
  have hMade : ∀ i < partitions.toNat, root ++ [n] ++ [toString i] ∈ t' := by
    intro i hi
    obtain ⟨-, d, hd, -⟩ := hManned.held (List.mem_range.mpr hi)
    exact DirTree.mem_iff.mpr ⟨d, hd⟩
  rw [hInsert]
  exact (hServing.insert hPositive (fun m hm => hExtends.sameTopic hLeads hm) hManned).stands
    (h.catalogue.created hPlain hNew hLeads hPositive (uint32_le partitions) hExtends hTopic hMade)

/-! ## Calls that do not succeed -/

/-- `create_dir_all` stops before it has made anything below the data directory. -/
def MakesNothing (root : DirPath) (env : Env FileName) : Prop :=
  ∃ k ≤ root.length + 1,
    (∃ kind, env.outcome 0 .mkdir = .fail kind k) ∨ env.outcome 0 .mkdir = .crash k

/-- All partitions but the last are opened, and nothing but a crash can happen to the last one
after its directory was made. -/
structure MakesAll (envs : Nat → Env FileName) (count : Nat) : Prop where
  others : ∀ i, i + 1 < count → (envs i).Quiet
  last : Faultless (envs (count - 1))
  made : (envs (count - 1)).outcome 0 .mkdir = .ok

theorem quiet_faultless {env : Env FileName} (h : env.Quiet) : Faultless env :=
  fun tick call => Or.inl (h tick call)

namespace MakesAll

variable {envs : Nat → Env FileName} {count : Nat}

theorem mkdir (h : MakesAll envs count) {i : Nat} (hi : i < count) :
    (envs i).outcome 0 .mkdir = .ok := by
  by_cases hLast : i + 1 < count
  · exact h.others i hLast 0 .mkdir
  · rw [show i = count - 1 by omega]
    exact h.made

theorem steady (h : MakesAll envs count) {i : Nat} (hi : i < count) : (envs i).Steady := by
  by_cases hLast : i + 1 < count
  · exact (h.others i hLast).steady
  · rw [show i = count - 1 by omega]
    exact h.last.steady

theorem alive (h : MakesAll envs count) {i : Nat} (hi : i ∈ (List.range count).dropLast) :
    (envs i).Alive := by
  cases count with
  | zero => cases hi
  | succ count =>
    rw [List.range_succ, List.dropLast_concat] at hi
    exact (h.others i (by have := List.mem_range.mp hi; omega)).alive

end MakesAll

/-- A partition whose directory could not be made. -/
theorem openPartition_refused {config : LogConfig} {env : Env FileName} {way : List DirPath}
    {dir : DirPath} {k : Nat} {r : Res KafkoError PlacedLog}
    (h : (∃ kind, env.outcome 0 .mkdir = .fail kind k) ∨ env.outcome 0 .mkdir = .crash k)
    (hRun : openPartition X config env way dir t = (r, t')) :
    ((∃ e, r = .err e) ∨ r = .crash) ∧ ∀ q, q ∉ way.take k → t'.lookup q = t.lookup q := by
  have hKept : ∀ q, q ∉ way.take k →
      ((t.createDirs (way.take k)).setFiles dir (t.filesAt dir)).lookup q = t.lookup q := by
    intro q hq
    rw [← DirTree.filesAt_createDirs t (way.take k), DirTree.lookup_setFiles_filesAt,
      DirTree.lookup_createDirs, if_neg hq]
  rw [openPartition_eq] at hRun
  rcases h with ⟨kind, hFail⟩ | hCrash
  · have hMade : dirsMade env way = way.take k := by rw [dirsMade, hFail]
    have hLog : Log.open_ X config env () ⟨t.filesAt dir, 0⟩ =
        (.err (.io kind), (), ⟨t.filesAt dir, 1⟩) := by
      change Fx.bind Fx.mkdir _ env () _ = _
      unfold Fx.bind Fx.mkdir Fx.perform
      dsimp only
      rw [hFail]
      rfl
    rw [hMade, hLog] at hRun
    cases hRun
    exact ⟨Or.inl ⟨_, rfl⟩, hKept⟩
  · have hMade : dirsMade env way = way.take k := by rw [dirsMade, hCrash]
    have hLog : Log.open_ X config env () ⟨t.filesAt dir, 0⟩ =
        (.crash, (), ⟨t.filesAt dir, 1⟩) := by
      change Fx.bind Fx.mkdir _ env () _ = _
      unfold Fx.bind Fx.mkdir Fx.perform
      dsimp only
      rw [hCrash]
    rw [hMade, hLog] at hRun
    cases hRun
    exact ⟨Or.inr rfl, hKept⟩

/-- A topic that stops before anything was made leaves nothing below the data directory. -/
theorem Topic.create_refused {config : LogConfig} {envs : Nat → Env FileName} {count : UInt32}
    {r : Res KafkoError (List PlacedLog)} (hPlain : PlainName n) (hPositive : 0 < count.toNat)
    (hNothing : MakesNothing root (envs 0))
    (hRun : Topic.create X config envs root n count t = (r, t')) :
    ((∃ e, r = .err e) ∨ r = .crash) ∧
      ∀ p, p ≠ [] → t'.lookup (root ++ p) = t.lookup (root ++ p) := by
  obtain ⟨k, hk, hOutcome⟩ := hNothing
  obtain ⟨rest, hRange⟩ : ∃ rest, List.range count.toNat = 0 :: rest := by
    obtain ⟨m, hm⟩ := Nat.exists_eq_succ_of_ne_zero (Nat.pos_iff_ne_zero.mp hPositive)
    rw [hm, List.range_succ_eq_map]
    exact ⟨_, rfl⟩
  have hNe : count ≠ 0 := by
    rintro rfl
    exact Nat.lt_irrefl 0 hPositive
  have hTake : ∀ p, p ≠ [] →
      root ++ p ∉ (root.wayTo n ++ [root ++ [n] ++ [toString 0]]).take k := by
    intro p hp hMem
    rw [hPlain.wayTo, List.append_assoc, List.take_append_of_le_length (by simpa using hk)] at hMem
    have hPrefix := (List.mem_inits _ _).mp (List.take_subset _ _ hMem)
    have hLength := hPrefix.length_le
    rw [List.length_append] at hLength
    have hPos := List.length_pos_of_ne_nil hp
    omega
  rw [Topic.create, if_neg hNe, hPlain.join, hRange, openPartitions, (PlainName.toString 0).join]
    at hRun
  rcases hFirst : openPartition X config (envs 0) (root.wayTo n ++ [root ++ [n] ++ [toString 0]])
    (root ++ [n] ++ [toString 0]) t with ⟨r₁, t₁⟩
  obtain ⟨hEnds, hTree⟩ := openPartition_refused hOutcome hFirst
  rw [hFirst] at hRun
  rcases hEnds with ⟨e, rfl⟩ | rfl
  · cases hRun
    exact ⟨Or.inl ⟨e, rfl⟩, fun p hp => hTree _ (hTake p hp)⟩
  · cases hRun
    exact ⟨Or.inr rfl, fun p hp => hTree _ (hTake p hp)⟩

/-- A topic that the machine stops in after all directories were made. -/
theorem Topic.create_crashed {config : LogConfig} {envs : Nat → Env FileName} {count : UInt32}
    (h : Catalogue root t counts) (hIntact : FilesIntact X root t counts) (hPlain : PlainName n)
    (hNew : counts n = 0) (hPositive : 0 < count.toNat) (hAll : MakesAll envs count.toNat)
    (hRun : Topic.create X config envs root n count t = (.crash, t')) :
    Catalogue root t' (Function.update counts n count.toNat) ∧
      FilesIntact X root t' (Function.update counts n count.toNat) := by
  obtain ⟨hExtends, -, hFiles⟩ := Topic.create_spec h hPlain hNew hPositive hRun
  have hNe : count ≠ 0 := by
    rintro rfl
    exact Nat.lt_irrefl 0 hPositive
  rw [Topic.create, if_neg hNe, hPlain.join] at hRun
  have hMade := openPartitions_crash (fun i hi => hAll.mkdir (List.mem_range.mp hi))
    (fun i hi => hAll.alive hi) List.nodup_range (fun i _ => Or.inl (h.fresh hNew _)) hRun
  have hLeads := leadsTo_wayTo root hPlain
  have hTopic : root ++ [n] ∈ t' := by
    apply hMade
    rw [hPlain.wayTo]
    exact Or.inl (List.mem_append_right _ List.mem_cons_self)
  have hParts : ∀ i < count.toNat, root ++ [n] ++ [toString i] ∈ t' := fun i hi =>
    hMade _ (Or.inr ⟨i, List.mem_range.mpr hi, rfl⟩)
  refine ⟨h.created hPlain hNew hLeads hPositive (uint32_le count) hExtends hTopic hParts, ?_⟩
  apply hIntact.update
  · exact fun m hm => Function.update_of_ne hm _ _
  · exact fun m hm => hExtends.sameTopic hLeads hm
  · intro i hi d hd
    rw [Function.update_self] at hi
    exact hFiles i (List.mem_range.mpr hi) d hd

/-- What creating a topic may leave, if its partitions are made all or not at all. -/
theorem Stands.create_lands {config : LogConfig} {partitions : UInt32}
    {envs : Nat → Env FileName} (h : Stands X root s counts) (hUp : s.topics = some topics)
    (hCare : partitions = 0 ∨ n ∈ topics ∨
      PlainName n ∧ (MakesNothing root (envs 0) ∨ MakesAll envs partitions.toNat))
    (hRun : Site.after (createTopicInner X root n config partitions envs topics s.tree) = (r, s')) :
    ∃ counts', Lands X root r s' counts' ∧ (∀ m, m ≠ n → counts' m = counts m) ∧
      (counts' n = counts n ∨ counts' n = partitions.toNat) := by
  have hSite : s = ⟨s.tree, some topics⟩ := by
    cases s
    cases hUp
    rfl
  have hSame : ∀ e, Lands X root (.err e) ⟨s.tree, some topics⟩ counts := by
    intro e
    rw [← hSite]
    exact h.lands (by simp)
  rcases hCall : createTopicInner X root n config partitions envs topics s.tree with
    ⟨r₀, topics', t'⟩
  rw [hCall] at hRun
  have hUnfold := hCall
  unfold createTopicInner at hUnfold
  by_cases hZero : partitions = 0
  · rw [if_pos hZero] at hUnfold
    cases hUnfold
    cases hRun
    exact ⟨counts, hSame _, fun _ _ => rfl, Or.inl rfl⟩
  rw [if_neg hZero] at hUnfold
  by_cases hMem : n ∈ topics
  · rw [if_pos hMem] at hUnfold
    cases hUnfold
    cases hRun
    exact ⟨counts, hSame _, fun _ _ => rfl, Or.inl rfl⟩
  rw [if_neg hMem] at hUnfold
  obtain ⟨hPlain, hMakes⟩ := (hCare.resolve_left hZero).resolve_left hMem
  have hPositive : 0 < partitions.toNat := by
    apply Nat.pos_of_ne_zero
    intro hNat
    exact hZero (UInt32.toNat_inj.mp hNat)
  have hNew : counts n = 0 := (h.serving topics hUp).1 n (AList.lookup_eq_none.mpr hMem)
  rcases hCreate : Topic.create X config envs root n partitions s.tree with ⟨r₁, t₁⟩
  rw [hCreate] at hUnfold
  obtain ⟨hExtends, hEnd⟩ := Topic.create_spec h.catalogue hPlain hNew hPositive hCreate
  have hRefused : MakesNothing root (envs 0) →
      ((∃ e, r₁ = .err e) ∨ r₁ = .crash) ∧
        ∀ p, p ≠ [] → t₁.lookup (root ++ p) = s.tree.lookup (root ++ p) := fun hNothing =>
    Topic.create_refused hPlain hPositive hNothing hCreate
  cases r₁ with
  | ok ps =>
    dsimp only at hUnfold
    rw [if_neg hMem] at hUnfold
    cases hUnfold
    cases hRun
    refine ⟨_, (h.created hUp hPlain hCall).lands (by simp), ?_, Or.inr (Function.update_self ..)⟩
    exact fun m hm => Function.update_of_ne hm _ _
  | panic m => exact hEnd.elim
  | err e =>
    cases hUnfold
    cases hRun
    rcases hMakes with hNothing | hAll
    · exact ⟨counts, (h.unchanged hUp (hRefused hNothing).2).lands (by simp), fun _ _ => rfl,
        Or.inl rfl⟩
    · obtain ⟨i, hi, hNot⟩ := hEnd
      exact absurd (hAll.steady (List.mem_range.mp hi)) hNot
  | crash =>
    cases hUnfold
    cases hRun
    rcases hMakes with hNothing | hAll
    · have hStands := h.unchanged hUp (hRefused hNothing).2
      exact ⟨counts, lands_of_crash hStands.catalogue hStands.intact, fun _ _ => rfl, Or.inl rfl⟩
    · obtain ⟨hCat, hIntact⟩ :=
        Topic.create_crashed h.catalogue h.intact hPlain hNew hPositive hAll hCreate
      refine ⟨_, lands_of_crash hCat hIntact, ?_, Or.inr (Function.update_self ..)⟩
      exact fun m hm => Function.update_of_ne hm _ _

/-! ## Writers at work -/

/-- What an operation of a writer leaves, given what it does to the log and the files. -/
theorem PlacedLog.operate_of_wp {op : LogOp} {env : Env FileName} {p p' : PlacedLog}
    {d : Store FileName} {stopped : Bool} {P : Log → Prop} (hd : t.lookup p.dir = some d)
    (hSpec : wp env (op.exec X)
      { ok := fun _ log w => P log ∧ Held X log w.store
        err := fun _ log w => P log ∧ Held X log w.store
        panic := fun _ _ _ => False
        crash := fun _ w => ¬ env.Alive ∧ Intact X w.store } p.log ⟨d, 0⟩)
    (hRun : p.operate X op env t = (stopped, p', t')) :
    (stopped = true → ¬ env.Alive) ∧ ∃ d', t'.lookup p.dir = some d' ∧
      (stopped = false → P p'.log ∧ Held X p'.log d') ∧ Intact X d' := by
  unfold operate at hRun
  rw [hd] at hRun
  dsimp only at hRun
  unfold wp at hSpec
  rcases hExec : op.exec X env p.log ⟨d, 0⟩ with ⟨r, log, w⟩
  rw [hExec] at hRun hSpec
  cases hRun
  have hFiles : (t.setFiles p.dir w.store).lookup p.dir = some w.store := by
    rw [DirTree.lookup_setFiles, if_pos ⟨rfl, DirTree.mem_iff.mpr ⟨d, hd⟩⟩]
  cases r with
  | ok reply =>
    exact ⟨fun hStop => by simp at hStop, w.store, hFiles, fun _ => hSpec, hSpec.2.intact⟩
  | err e =>
    exact ⟨fun hStop => by simp at hStop, w.store, hFiles, fun _ => hSpec, hSpec.2.intact⟩
  | panic m => exact hSpec.elim
  | crash =>
    exact ⟨fun _ => hSpec.1, w.store, hFiles, fun hRuns => by simp at hRuns, hSpec.2⟩

/-- An operation of a writer whose log is live. -/
theorem PlacedLog.operate_spec {op : LogOp} {env : Env FileName} {p p' : PlacedLog}
    {d : Store FileName} {stopped : Bool} (hX : X.Lawful) (hClean : Clean env)
    (hOp : op.Admissible X p.log) (hd : t.lookup p.dir = some d) (hHeld : Held X p.log d)
    (hRun : p.operate X op env t = (stopped, p', t')) :
    ∃ d', t'.lookup p.dir = some d' ∧ (stopped = false → Held X p'.log d') ∧ Intact X d' := by
  obtain ⟨h, m, hRef⟩ := hHeld
  have hSpec := exec_spec (w := ⟨d, 0⟩) hX hClean hRef hOp
  obtain ⟨-, d', hd', hLive, hIntact⟩ := operate_of_wp (P := fun _ => True) hd
    (wp_mono hSpec (fun _ _ _ ⟨_, _, _, hRef'⟩ => ⟨trivial, _, _, hRef'⟩)
      (fun _ _ _ ⟨_, ⟨_, _, hRef'⟩, _⟩ => ⟨trivial, _, _, hRef'⟩) (fun _ _ _ hFalse => hFalse)
      (fun _ _ ⟨hStop, _, _, hRec⟩ => ⟨hStop, Or.inr ⟨_, _, hRec⟩⟩)) hRun
  exact ⟨d', hd', fun hRuns => (hLive hRuns).2, hIntact⟩

/-- The sync of a writer that ends, whatever the environment does with it. -/
theorem PlacedLog.sync_spec {env : Env FileName} {p p' : PlacedLog} {d : Store FileName}
    {stopped : Bool} (hd : t.lookup p.dir = some d) (hHeld : Held X p.log d)
    (hRun : p.operate X .sync env t = (stopped, p', t')) :
    (stopped = true → ¬ env.Alive) ∧ ∃ d', t'.lookup p.dir = some d' ∧
      (stopped = false → Held X p.log d') ∧ Intact X d' := by
  obtain ⟨h, m, hRef⟩ := hHeld
  have hSpec : wp env (LogOp.exec X .sync)
      { ok := fun _ log w => log = p.log ∧ Held X log w.store
        err := fun _ log w => log = p.log ∧ Held X log w.store
        panic := fun _ _ _ => False
        crash := fun _ w => ¬ env.Alive ∧ Intact X w.store } p.log ⟨d, 0⟩ := by
    refine wp_bind_of (exec_sync (w := ⟨d, 0⟩) hRef) ?_ ?_ (fun _ _ _ hFalse => hFalse) ?_
    · rintro - log w ⟨rfl, hRef'⟩
      exact ⟨rfl, _, _, hRef'⟩
    · rintro e log w ⟨-, rfl, hRef'⟩
      exact ⟨rfl, _, _, hRef'⟩
    · rintro log w ⟨hStop, -, hRec⟩
      exact ⟨hStop, Or.inr ⟨_, _, hRec⟩⟩
  obtain ⟨hStop, d', hd', hLive, hIntact⟩ := operate_of_wp hd hSpec hRun
  refine ⟨hStop, d', hd', ?_, hIntact⟩
  intro hRuns
  obtain ⟨hLog, hHeld'⟩ := hLive hRuns
  rwa [hLog] at hHeld'

/-! ## Shutting down -/

/-- What shutting a topic down leaves of it. -/
theorem Topic.shutdown_spec {envs : Nat → Env FileName} {j : Nat} {topicDir : DirPath}
    {is : List Nat} {ps : List PlacedLog} {stopped : Bool} (hNodup : is.Nodup)
    (hManned : Manned X topicDir t is ps)
    (hRun : Topic.shutdown X envs j ps t = (stopped, t')) :
    (stopped = true → ∃ k, ¬ (envs k).Alive) ∧ (stopped = false → Manned X topicDir t' is ps) ∧
      ∀ i ∈ is, ∀ d, t'.lookup (topicDir ++ [toString i]) = some d → Intact X d := by
  induction is generalizing j t t' ps with
  | nil =>
    cases hManned
    cases hRun
    exact ⟨fun hStop => Bool.noConfusion hStop, fun _ => List.Forall₂.nil,
      fun i hi => by cases hi⟩
  | cons i is ih =>
    obtain ⟨hNew, hNodup⟩ := List.nodup_cons.mp hNodup
    cases hManned with
    | @cons _ p _ ps hHead hTail =>
      obtain ⟨hDir, d, hd, hHeld⟩ := hHead
      have hApart : ∀ k ∈ is, topicDir ++ [toString k] ≠ p.dir := by
        intro k hk hEq
        rw [hDir] at hEq
        have hStr : toString k = toString i := by simpa using hEq
        exact hNew (toString_injective hStr ▸ hk)
      have hFrame := fun (q : DirPath) => p.operate_lookup (X := X) .sync (envs j) t (q := q)
      rw [shutdown] at hRun
      rcases hSync : p.operate X .sync (envs j) t with ⟨stopped₁, p₁, t₁⟩
      rw [hSync] at hRun hFrame
      obtain ⟨hStop, d₁, hd₁, hLive, hIntact⟩ := PlacedLog.sync_spec hd hHeld hSync
      have hTail₁ : Manned X topicDir t₁ is ps :=
        Manned.congr hTail fun k hk => hFrame _ (hApart k hk)
      cases stopped₁ with
      | true =>
        cases hRun
        refine ⟨fun _ => ⟨j, hStop rfl⟩, fun hNot => Bool.noConfusion hNot, ?_⟩
        intro k hk d' hd'
        rcases List.mem_cons.mp hk with rfl | hk
        · rw [← hDir, hd₁] at hd'
          cases hd'
          exact hIntact
        · obtain ⟨log, d'', hd'', hHeld'⟩ := hTail₁.held hk
          rw [hd'] at hd''
          cases hd''
          exact hHeld'.intact
      | false =>
        obtain ⟨hStop', hManned', hIntact'⟩ := ih hNodup hTail₁ hRun
        have hOthers : ∀ p' ∈ ps, p.dir ≠ p'.dir := by
          intro p' hp' hEq
          obtain ⟨k, hk, hPlace⟩ := hTail₁.dir_of_mem hp'
          exact hApart k hk (by rw [hEq, hPlace])
        have hd' : t'.lookup p.dir = some d₁ := by
          have hKept := Topic.shutdown_lookup (X := X) envs (j + 1) ps t₁ hOthers
          dsimp only at hRun
          rw [hRun] at hKept
          exact hKept.trans hd₁
        refine ⟨hStop', ?_, ?_⟩
        · intro hRuns
          exact List.Forall₂.cons ⟨hDir, d₁, hd', hLive rfl⟩ (hManned' hRuns)
        · intro k hk d'' hd''
          rcases List.mem_cons.mp hk with rfl | hk
          · rw [← hDir, hd'] at hd''
            cases hd''
            exact hIntact
          · exact hIntact' k hk d'' hd''

/-- Shutting one topic down leaves the others alone. -/
theorem Topic.shutdown_sameTopic {envs : Nat → Env FileName} {j : Nat} {is : List Nat}
    {ps : List PlacedLog} {stopped : Bool} (hManned : Manned X (root ++ [n]) t is ps)
    (hRun : Topic.shutdown X envs j ps t = (stopped, t')) {m : String} (hNe : m ≠ n) :
    SameTopic root m t t' := by
  have hKept : ∀ q, (∀ i ∈ is, q ≠ root ++ [n] ++ [toString i]) → t'.lookup q = t.lookup q := by
    intro q hq
    have hLookup := Topic.shutdown_lookup (X := X) envs j ps t (q := q)
    rw [hRun] at hLookup
    apply hLookup
    intro p hp hEq
    obtain ⟨i, hi, hDir⟩ := hManned.dir_of_mem hp
    exact hq i hi (hEq.trans hDir)
  constructor
  · rw [DirTree.mem_iff, DirTree.mem_iff, hKept _ (by simp)]
  · intro c
    apply hKept
    intro i _ hEq
    apply hNe
    have hBoth : m = n ∧ c = toString i := by simpa using hEq
    exact hBoth.1

/-- The broker goes on serving what it served while the writers of one topic end. -/
theorem Serves.shutdown_topic (h : Serves X root t topics counts) {ps : List PlacedLog}
    (hTopic : topics.lookup n = some ps) {envs : Nat → Env FileName} {stopped : Bool}
    (hRun : Topic.shutdown X envs 0 ps t = (stopped, t')) :
    (stopped = true → ∃ k, ¬ (envs k).Alive) ∧ (∀ q, q ∈ t' ↔ q ∈ t) ∧
      (stopped = false → Serves X root t' topics counts) ∧ FilesIntact X root t' counts := by
  obtain ⟨hPositive, hManned⟩ := h.2 n ps hTopic
  obtain ⟨hStop, hManned', hIntact⟩ := Topic.shutdown_spec List.nodup_range hManned hRun
  have hMem : ∀ q, q ∈ t' ↔ q ∈ t := by
    have hEq : (Topic.shutdown X envs 0 ps t).2 = t' := congrArg Prod.snd hRun
    rw [← hEq]
    exact Topic.mem_shutdown envs 0 ps t
  have hOthers : ∀ m, m ≠ n → SameTopic root m t t' := fun m hm =>
    Topic.shutdown_sameTopic hManned hRun hm
  refine ⟨hStop, hMem, ?_, ?_⟩
  · intro hRuns
    refine ⟨h.1, ?_⟩
    intro m qs hm
    by_cases hEq : m = n
    · subst hEq
      rw [hTopic] at hm
      cases hm
      exact ⟨hPositive, hManned' hRuns⟩
    · obtain ⟨hCount, hOld⟩ := h.2 m qs hm
      exact ⟨hCount, hOld.congr fun i _ => (hOthers m hEq).2 _⟩
  · apply h.files.1.update (fun _ _ => rfl) hOthers
    exact fun i hi d hd => hIntact i (List.mem_range.mpr hi) d hd

/-- The spec of the loop over the topics. -/
theorem Serves.shutdown_topics (h : Serves X root t topics counts)
    {envs : String → Nat → Env FileName} {names : List String} {stopped : Bool}
    (hRun : shutdownTopics X envs topics names t = (stopped, t')) :
    (stopped = true → ∃ n k, ¬ (envs n k).Alive) ∧ (∀ q, q ∈ t' ↔ q ∈ t) ∧
      (stopped = false → Serves X root t' topics counts) ∧ FilesIntact X root t' counts := by
  induction names generalizing t t' with
  | nil =>
    cases hRun
    exact ⟨fun hStop => Bool.noConfusion hStop, fun q => Iff.rfl, fun _ => h, h.files.1⟩
  | cons n names ih =>
    rw [shutdownTopics] at hRun
    cases hTopic : topics.lookup n with
    | none =>
      rw [hTopic] at hRun
      exact ih h hRun
    | some ps =>
      rw [hTopic, Option.getD_some] at hRun
      rcases hOne : Topic.shutdown X (envs n) 0 ps t with ⟨stopped₁, t₁⟩
      rw [hOne] at hRun
      obtain ⟨hStop, hMem, hServing, hIntact⟩ := h.shutdown_topic hTopic hOne
      cases stopped₁ with
      | true =>
        cases hRun
        exact ⟨fun _ => ⟨n, hStop rfl⟩, hMem, fun hNot => Bool.noConfusion hNot, hIntact⟩
      | false =>
        obtain ⟨hStop', hMem', hServing', hIntact'⟩ := ih (hServing rfl) hRun
        exact ⟨hStop', fun q => (hMem' q).trans (hMem q), hServing', hIntact'⟩

/-- Shutting the broker down leaves the directory in order. -/
theorem Stands.shutdown_lands (h : Stands X root s counts) (hUp : s.topics = some topics)
    {envs : String → Nat → Env FileName}
    (hRun : Site.ended (shutdownTopics X envs topics topics.keys s.tree) = (r, s')) :
    Lands X root r s' counts ∧ s'.topics = none ∧
      (r = .ok () ∨ r = .crash ∧ ∃ n k, ¬ (envs n k).Alive) := by
  rcases hShut : shutdownTopics X envs topics topics.keys s.tree with ⟨stopped, t'⟩
  rw [hShut] at hRun
  obtain ⟨hStop, hMem, hServing, hIntact⟩ := (h.serving topics hUp).shutdown_topics hShut
  have hCat : Catalogue root t' counts := h.catalogue.congr (fun _ => hMem _) (fun _ _ => hMem _)
  cases stopped with
  | true =>
    cases hRun
    exact ⟨lands_of_crash hCat hIntact, rfl, Or.inr ⟨rfl, hStop rfl⟩⟩
  | false =>
    cases hRun
    have hDown : Stands X root ⟨t', none⟩ counts :=
      ⟨hCat, hIntact, (hServing rfl).files.2, fun _ hEq => by cases hEq⟩
    exact ⟨hDown.lands (by simp), rfl, Or.inl rfl⟩

/-! ## Deleting a topic -/

/-- A removal that is completed, or that a crash stops before anything is removed. -/
def Removal.Whole : Removal → Prop
  | .done => True
  | .fails _ _ => False
  | .stops left => ∀ p, left p = true

theorem sameTopic_removeDirAll {left : DirPath → Bool} {m : String} (hNe : m ≠ n) :
    SameTopic root m t (t.removeDirAll (root ++ [n]) left) := by
  have hNot : ∀ p, ¬ root ++ [n] <+: root ++ m :: p := by
    intro p hPrefix
    have hHead := (List.prefix_append_right_inj root).mp hPrefix
    rw [List.cons_prefix_cons] at hHead
    exact hNe hHead.1.symm
  constructor
  · rw [DirTree.mem_iff, DirTree.mem_iff, DirTree.lookup_removeDirAll, if_pos (Or.inr (hNot []))]
  · intro c
    rw [DirTree.lookup_removeDirAll, List.append_assoc]
    exact if_pos (Or.inr (hNot [c]))

theorem SameTopic.trans {t'' : DirTree FileName} (h : SameTopic root n t t')
    (h' : SameTopic root n t' t'') : SameTopic root n t t'' :=
  ⟨h'.1.trans h.1, fun c => (h'.2 c).trans (h.2 c)⟩

/-- A catalogue from which a topic is removed. -/
theorem Serves.erase (h : Serves X root t topics counts)
    (hOthers : ∀ m, m ≠ n → SameTopic root m t t') :
    Serves X root t' (topics.erase n) (Function.update counts n 0) := by
  constructor
  · intro m hm
    by_cases hEq : m = n
    · rw [hEq, Function.update_self]
    · rw [AList.lookup_erase_ne hEq] at hm
      rw [Function.update_of_ne hEq]
      exact h.1 m hm
  · intro m qs hm
    by_cases hEq : m = n
    · rw [hEq, AList.lookup_erase] at hm
      cases hm
    · rw [AList.lookup_erase_ne hEq] at hm
      rw [Function.update_of_ne hEq]
      obtain ⟨hCount, hOld⟩ := h.2 m qs hm
      exact ⟨hCount, hOld.congr fun i _ => (hOthers m hEq).2 _⟩

/-- The registry is restored entry by entry. -/
theorem Serves.congr_registry (h : Serves X root t topics counts) {topics' : Registry}
    (hSame : ∀ m, topics'.lookup m = topics.lookup m) : Serves X root t topics' counts := by
  refine ⟨fun m hm => h.1 m ?_, fun m ps hm => h.2 m ps ?_⟩
  · rwa [hSame] at hm
  · rwa [hSame] at hm

/-- A completed deletion takes the topic out of the catalogue. -/
theorem Stands.deleted (h : Stands X root s counts) (hUp : s.topics = some topics)
    {inUse : Bool} {envs : Nat → Env FileName} {removal : Removal} {topics' : Registry}
    (hRun : deleteTopic X root n inUse envs removal topics s.tree = (.ok (), topics', t')) :
    Stands X root ⟨t', some topics'⟩ (Function.update counts n 0) := by
  have hServing := h.serving topics hUp
  generalize hResult : ((.ok (), topics', t') : Called) = c at hRun
  cases deleteTopic_cases hRun with
  | unknown _ => cases hResult
  | held _ _ => cases hResult
  | stopped _ _ _ => cases hResult
  | missing _ _ _ _ => cases hResult
  | @removed ps t₁ hTopic hUse hShut hDir =>
    obtain ⟨-, hMem, hServing₁, -⟩ := hServing.shutdown_topic hTopic hShut
    obtain ⟨hPositive, hManned⟩ := hServing.2 n ps hTopic
    have hPlain : PlainName n := h.catalogue.plain n hPositive
    cases removal with
    | fails kind left => cases hResult
    | stops left => cases hResult
    | done =>
      cases hResult
      rw [hPlain.join]
      have hGone : ∀ p, root ++ [n] <+: p →
          p ∉ t₁.removeDirAll (root ++ [n]) Removal.done.left := by
        intro p hp
        rw [← AList.lookup_eq_none, DirTree.lookup_removeDirAll, if_neg]
        rintro (hLeft | hNot)
        · cases hLeft
        · exact hNot hp
      have hOthers : ∀ m, m ≠ n → SameTopic root m t₁
          (t₁.removeDirAll (root ++ [n]) Removal.done.left) := fun m hm => sameTopic_removeDirAll hm
      have hCat₁ : Catalogue root t₁ counts :=
        h.catalogue.congr (fun _ => hMem _) (fun _ _ => hMem _)
      refine ((hServing₁ rfl).erase hOthers).stands (hCat₁.update (Nat.zero_le _) ?_ hOthers ?_ ?_)
      · exact fun hZero => absurd hZero (Nat.lt_irrefl 0)
      · exact iff_of_false (hGone _ List.prefix_rfl) (Nat.lt_irrefl 0)
      · intro c
        apply iff_of_false (hGone _ (List.prefix_append _ _))
        rintro ⟨i, hi, -⟩
        omega

/-- What deleting a topic may leave, if the removal is whole. -/
theorem Stands.delete_lands (h : Stands X root s counts) (hUp : s.topics = some topics)
    {inUse : Bool} {envs : Nat → Env FileName} {removal : Removal} (hWhole : removal.Whole)
    (hRun : Site.after (deleteTopic X root n inUse envs removal topics s.tree) = (r, s')) :
    ∃ counts', Lands X root r s' counts' := by
  have hServing := h.serving topics hUp
  rcases hCall : deleteTopic X root n inUse envs removal topics s.tree with ⟨r₀, topics', t'⟩
  rw [hCall] at hRun
  by_cases hOk : r₀ = .ok ()
  · subst hOk
    cases hRun
    exact ⟨_, (h.deleted hUp hCall).lands (by simp)⟩
  refine ⟨counts, ?_⟩
  generalize hResult : ((r₀, topics', t') : Called) = c at hCall
  cases deleteTopic_cases hCall with
  | unknown _ =>
    cases hResult
    cases hRun
    exact (hServing.stands h.catalogue).lands (by simp)
  | @held ps hTopic _ =>
    cases hResult
    cases hRun
    refine ((hServing.congr_registry ?_).stands h.catalogue).lands (by simp)
    intro m
    by_cases hEq : m = n
    · rw [hEq, AList.lookup_insert, hTopic]
    · rw [AList.lookup_insert_ne hEq, AList.lookup_erase_ne hEq]
  | @stopped ps t₁ hTopic _ hShut =>
    cases hResult
    cases hRun
    obtain ⟨-, hMem, -, hIntact⟩ := hServing.shutdown_topic hTopic hShut
    exact lands_of_crash (h.catalogue.congr (fun _ => hMem _) (fun _ _ => hMem _)) hIntact
  | @missing ps t₁ hTopic _ hShut hDir =>
    obtain ⟨-, hMem, -, -⟩ := hServing.shutdown_topic hTopic hShut
    have hPositive := (hServing.2 n ps hTopic).1
    rw [(h.catalogue.plain n hPositive).join, hMem, h.catalogue.topics] at hDir
    exact absurd hPositive hDir
  | @removed ps t₁ hTopic _ hShut _ =>
    cases removal with
    | done =>
      cases hResult
      exact absurd rfl hOk
    | fails kind left => exact hWhole.elim
    | stops left =>
      cases hResult
      cases hRun
      obtain ⟨-, hMem, -, hIntact⟩ := hServing.shutdown_topic hTopic hShut
      -- nothing was removed
      have hSame : ∀ q, (t₁.removeDirAll (root.join n) left).lookup q = t₁.lookup q := by
        intro q
        rw [DirTree.lookup_removeDirAll, if_pos (Or.inl (hWhole q))]
      have hMem' : ∀ q, q ∈ t₁.removeDirAll (root.join n) left ↔ q ∈ s.tree := by
        intro q
        rw [DirTree.mem_iff, hSame, ← DirTree.mem_iff]
        exact hMem q
      apply lands_of_crash (h.catalogue.congr (fun _ => hMem' _) (fun _ _ => hMem' _))
      intro m i hi d hd
      exact hIntact m i hi d ((hSame _).symm.trans hd)

end Kafko
