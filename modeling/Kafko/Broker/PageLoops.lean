import Kafko.Broker.Pages
import Kafko.Broker.Reopening

/-!
# The pages of whole topics

The loops of `Topic::create`, `Topic::open`, `Topic::shutdown` and `Kafko::open`, followed page
by page: what the writers hold after a loop that comes to its end, and what is left in every
partition if the machine stops somewhere in it.
-/

namespace Kafko

open Disk

/-- The writer of a partition holds a page. -/
def PlacedLog.Keeps (X : Crates) (t : DirTree FileName) (q : PlacedLog) (p : Page) : Prop :=
  ∃ d, t.lookup q.dir = some d ∧ p.Stored X (some q.log) d

variable {X : Crates} {root : DirPath} {t t' : DirTree FileName} {topics : Registry} {n : String}
  {A : Ledger}

/-! ## Opening partitions -/

section Opening

variable {config : LogConfig}

theorem openPartition_page {env : Env FileName} {way : List DirPath} {dir : DirPath} {p : Page}
    {r : Res KafkoError PlacedLog} (hPage : p.Opens X config env (t.filesAt dir))
    (hDir : dir ∈ way) (hRun : openPartition X config env way dir t = (r, t')) :
    (∀ q, r = .ok q → q.dir = dir ∧ ∃ p', p.Reopens p' ∧ q.Keeps X t' p') ∧
      ((∀ e, r ≠ .err e) → ∀ d, t'.lookup dir = some d → p.Left X d) := by
  have hSpec := hPage.2
  have hTree : (openPartition X config env way dir t).2 = t' := congrArg Prod.snd hRun
  have hResult := congrArg Prod.fst hRun
  have hSelf : ∀ d, t'.lookup dir = some d →
      d = (Log.open_ X config env () ⟨t.filesAt dir, 0⟩).2.2.store := by
    intro d hd
    rw [← hTree] at hd
    exact openPartition_self hd
  unfold wp at hSpec
  rw [openPartition_eq] at hResult
  rcases hLog : Log.open_ X config env () ⟨t.filesAt dir, 0⟩ with ⟨r₀, u, w⟩
  rw [hLog] at hSpec hResult hSelf
  subst hResult
  cases r₀ with
  | err e =>
    constructor
    · intro q hq
      cases hq
    · exact fun hNot => absurd rfl (hNot e)
  | panic m => exact hSpec.elim
  | crash =>
    constructor
    · intro q hq
      cases hq
    · intro _ d hd
      rw [hSelf d hd]
      exact hSpec
  | ok log =>
    obtain ⟨p', hReopens, hStored⟩ := hSpec
    have hMem : dir ∈ t' := by
      rw [← hTree]
      apply mem_openPartition
      rw [dirsMade_of_ok hLog]
      exact Or.inr hDir
    obtain ⟨d, hd⟩ := DirTree.mem_iff.mp hMem
    constructor
    · intro q hq
      cases hq
      refine ⟨rfl, p', hReopens, d, hd, ?_⟩
      rw [hSelf d hd]
      exact hStored
    · intro _ d' hd'
      rw [hSelf d' hd']
      exact hReopens.left hStored

/-- The loop over the partitions, by induction on the indices; `page i` is the page of the
partition with index `i`. -/
theorem openPartitions_pages {envs : Nat → Env FileName} {way : List DirPath} {topicDir : DirPath}
    {is : List Nat} {r : Res KafkoError (List PlacedLog)} (page : Nat → Page) (hNodup : is.Nodup)
    (hOpens : ∀ i ∈ is, Opens X (envs i) (t.filesAt (topicDir ++ [toString i])))
    (hPages : ∀ i ∈ is, (page i).Opens X config (envs i) (t.filesAt (topicDir ++ [toString i])))
    (hRun : openPartitions X config envs way topicDir is t = (r, t')) :
    (∀ ps, r = .ok ps → ∃ pages, List.Forall₂ (fun i => (page i).Reopens) is pages ∧
        List.Forall₂ (PlacedLog.Keeps X t') ps pages) ∧
      ((∀ e, r ≠ .err e) →
        ∀ i ∈ is, ∀ d, t'.lookup (topicDir ++ [toString i]) = some d → (page i).Left X d) := by
  induction is generalizing t t' r with
  | nil =>
    cases hRun
    constructor
    · intro ps hps
      cases hps
      exact ⟨[], .nil, .nil⟩
    · intro _ i hi
      cases hi
  | cons i is ih =>
    obtain ⟨hNew, hNodup⟩ := List.nodup_cons.mp hNodup
    have hApart : ∀ j ∈ is, ∀ k ∈ [i], topicDir ++ [toString j] ≠ topicDir ++ [toString k] := by
      intro j hj k hk hEq
      rw [List.mem_singleton.mp hk] at hEq
      have hStr : toString j = toString i := by simpa using hEq
      exact hNew (toString_injective hStr ▸ hj)
    rw [openPartitions, (PlainName.toString i).join] at hRun
    have hOne : Extends way topicDir [i] t (openPartition X config (envs i)
        (way ++ [topicDir ++ [toString i]]) (topicDir ++ [toString i]) t).2 := Extends.one
    rcases hFirst : openPartition X config (envs i) (way ++ [topicDir ++ [toString i]])
      (topicDir ++ [toString i]) t with ⟨r₁, t₁⟩
    have hLast : topicDir ++ [toString i] ∈ way ++ [topicDir ++ [toString i]] :=
      List.mem_append_right _ List.mem_cons_self
    have hSpec := openPartition_spec (hOpens i List.mem_cons_self) hLast hFirst
    obtain ⟨hWriter, hLeft⟩ := openPartition_page (hPages i List.mem_cons_self) hLast hFirst
    rw [hFirst] at hRun hOne
    cases r₁ with
    | err e =>
      cases hRun
      constructor
      · intro ps hps
        cases hps
      · exact fun hNot => absurd rfl (hNot e)
    | panic m => exact hSpec.elim
    | crash =>
      cases hRun
      constructor
      · intro ps hps
        cases hps
      · intro _ j hj d hd
        rcases List.mem_cons.mp hj with rfl | hj
        · exact hLeft (by simp) d hd
        · have hFiles := hOne.filesAt (hApart j hj)
          rw [DirTree.filesAt, hd, Option.getD_some] at hFiles
          rw [hFiles]
          exact (hPages j (List.mem_cons_of_mem _ hj)).1
    | ok q =>
      obtain ⟨hPlace, p', hReopens, hKeeps⟩ := hWriter q rfl
      have hOpens' : ∀ j ∈ is, Opens X (envs j) (t₁.filesAt (topicDir ++ [toString j])) := by
        intro j hj
        rw [hOne.filesAt (hApart j hj)]
        exact hOpens j (List.mem_cons_of_mem _ hj)
      have hPages' : ∀ j ∈ is,
          (page j).Opens X config (envs j) (t₁.filesAt (topicDir ++ [toString j])) := by
        intro j hj
        rw [hOne.filesAt (hApart j hj)]
        exact hPages j (List.mem_cons_of_mem _ hj)
      dsimp only at hRun
      rcases hRest : openPartitions X config envs way topicDir is t₁ with ⟨r₂, t₂⟩
      have hExtends := (openPartitions_spec hNodup hOpens' hRest).1
      obtain ⟨hWriters, hLeft'⟩ := ih hNodup hOpens' hPages' hRest
      -- the first partition is left alone from here on
      have hKept : q.Keeps X t₂ p' := by
        obtain ⟨d, hd, hStored⟩ := hKeeps
        refine ⟨d, hExtends.lookup_some ?_ hd, hStored⟩
        intro j hj
        rw [hPlace]
        exact (hApart j hj i List.mem_cons_self).symm
      have hAll : (∀ e, r₂ ≠ .err e) → ∀ j ∈ i :: is, ∀ d,
          t₂.lookup (topicDir ++ [toString j]) = some d → (page j).Left X d := by
        intro hNot j hj d hd
        rcases List.mem_cons.mp hj with rfl | hj
        · obtain ⟨d', hd', hStored⟩ := hKept
          rw [hPlace, hd] at hd'
          cases hd'
          exact hReopens.left hStored
        · exact hLeft' hNot j hj d hd
      rw [hRest] at hRun
      cases r₂ with
      | err e =>
        cases hRun
        constructor
        · intro ps hps
          cases hps
        · exact fun hNot => absurd rfl (hNot e)
      | panic m =>
        cases hRun
        constructor
        · intro ps hps
          cases hps
        · exact fun _ => hAll (by simp)
      | crash =>
        cases hRun
        constructor
        · intro ps hps
          cases hps
        · exact fun _ => hAll (by simp)
      | ok ps =>
        cases hRun
        constructor
        · intro qs hqs
          cases hqs
          obtain ⟨pages, hReopened, hWritten⟩ := hWriters ps rfl
          exact ⟨p' :: pages, .cons hReopens hReopened, .cons hKept hWritten⟩
        · exact fun _ => hAll (by simp)

/-! ## Opening topics -/

/-- A list is related to another one if it is, read by position. -/
theorem forall₂_of_range {α β : Type} {R : α → β → Prop} {as : List α} {bs : List β} {default : α}
    (h : List.Forall₂ (fun i b => R (as[i]?.getD default) b) (List.range as.length) bs) :
    List.Forall₂ R as bs := by
  obtain ⟨hLength, hAt⟩ := List.forall₂_iff_get.mp h
  rw [List.length_range] at hLength
  refine List.forall₂_iff_get.mpr ⟨hLength, ?_⟩
  intro i hi hi'
  have hR := hAt i (by rwa [List.length_range]) hi'
  simp only [List.get_eq_getElem, List.getElem_range] at hR
  rwa [List.getElem?_eq_getElem hi, Option.getD_some] at hR

/-- The pages of a topic as they lie in its directory, nobody having them open. -/
def Resting (X : Crates) (root : DirPath) (t : DirTree FileName) (A : Ledger) (n : String) : Prop :=
  ∀ (i : Nat) (p : Page), (A.topics n)[i]? = some p →
    ∀ d, t.lookup (root ++ [n] ++ [toString i]) = some d → p.Stored X none d

/-- What a stop leaves of the pages of a topic. -/
def Leaves (X : Crates) (root : DirPath) (t : DirTree FileName) (A : Ledger) (n : String) : Prop :=
  ∀ (i : Nat) (p : Page), (A.topics n)[i]? = some p →
    ∀ d, t.lookup (root ++ [n] ++ [toString i]) = some d → p.Left X d

theorem Resting.congr (h : Resting X root t A n) (hSame : SameTopic root n t t') :
    Resting X root t' A n := by
  intro i p hp d hd
  rw [hSame.2] at hd
  exact h i p hp d hd

theorem Leaves.congr (h : Leaves X root t A n) (hSame : SameTopic root n t t') :
    Leaves X root t' A n := by
  intro i p hp d hd
  rw [hSame.2] at hd
  exact h i p hp d hd

theorem Resting.leaves (h : Resting X root t A n) : Leaves X root t A n :=
  fun i p hp d hd => (h i p hp d hd).left

/-- A topic that was opened again. -/
def Reopened (X : Crates) (t : DirTree FileName) (topics : Registry) (A : Ledger) (n : String) :
    Prop :=
  ∃ ps pages, topics.lookup n = some ps ∧ List.Forall₂ Page.Reopens (A.topics n) pages ∧
    List.Forall₂ (PlacedLog.Keeps X t) ps pages

/-- Opening one topic of a catalogue. -/
theorem openTopic_pages {envs : Nat → Env FileName} {r : Res KafkoError (List PlacedLog)}
    (hEnvs : ∀ i, Faultless (envs i)) (hCat : Catalogue root t A.counts)
    (hIntact : FilesIntact X root t A.counts) (hRested : FilesRested root t A.counts)
    (hResting : Resting X root t A n)
    (hRun : openPartitions X config envs (root ++ [n]).inits (root ++ [n])
      (List.range (A.counts n)) t = (r, t')) :
    (∀ ps, r = .ok ps → ∃ pages, List.Forall₂ Page.Reopens (A.topics n) pages ∧
        List.Forall₂ (PlacedLog.Keeps X t') ps pages) ∧
      ((∀ e, r ≠ .err e) → Leaves X root t' A n) := by
  have hFiles : ∀ i ∈ List.range (A.counts n), ∃ p d, (A.topics n)[i]? = some p ∧
      (A.topics n)[i]?.getD Page.blank = p ∧
      t.lookup (root ++ [n] ++ [toString i]) = some d ∧
      t.filesAt (root ++ [n] ++ [toString i]) = d := by
    intro i hi
    have hLt := List.mem_range.mp hi
    obtain ⟨d, hd⟩ := DirTree.mem_iff.mp (hCat.mem_partition hLt)
    have hPage : (A.topics n)[i]? = some (A.topics n)[i] := List.getElem?_eq_getElem hLt
    refine ⟨_, d, hPage, ?_, hd, ?_⟩
    · rw [hPage, Option.getD_some]
    · rw [DirTree.filesAt, hd, Option.getD_some]
  have hOpens : ∀ i ∈ List.range (A.counts n),
      Opens X (envs i) (t.filesAt (root ++ [n] ++ [toString i])) := by
    intro i hi
    obtain ⟨p, d, -, -, hd, hAt⟩ := hFiles i hi
    have hLt := List.mem_range.mp hi
    rw [hAt]
    exact Or.inr ⟨hEnvs i, hIntact n i hLt d hd, hRested n i hLt d hd⟩
  have hPages : ∀ i ∈ List.range (A.counts n), ((A.topics n)[i]?.getD Page.blank).Opens X config
      (envs i) (t.filesAt (root ++ [n] ++ [toString i])) := by
    intro i hi
    obtain ⟨p, d, hp, hPage, hd, hAt⟩ := hFiles i hi
    rw [hPage, hAt]
    exact (hResting i p hp d hd).opens (hRested n i (List.mem_range.mp hi) d hd) (hEnvs i) config
  obtain ⟨hWriters, hLeft⟩ := openPartitions_pages _ List.nodup_range hOpens hPages hRun
  constructor
  · intro ps hps
    obtain ⟨pages, hReopens, hKeeps⟩ := hWriters ps hps
    exact ⟨pages, forall₂_of_range hReopens, hKeeps⟩
  · intro hNot i p hp d hd
    obtain ⟨hi, -⟩ := List.getElem?_eq_some_iff.mp hp
    have hPage := hLeft hNot i (List.mem_range.mpr hi) d hd
    rwa [hp, Option.getD_some] at hPage

theorem keeps_congr {ps : List PlacedLog} {pages : List Page}
    (h : List.Forall₂ (PlacedLog.Keeps X t) ps pages)
    (hSame : ∀ q ∈ ps, t'.lookup q.dir = t.lookup q.dir) :
    List.Forall₂ (PlacedLog.Keeps X t') ps pages := by
  induction h with
  | nil => exact .nil
  | @cons q p ps pages hHead _ ih =>
    obtain ⟨d, hd, hStored⟩ := hHead
    refine .cons ⟨d, ?_, hStored⟩ (ih fun q' hq' => hSame q' (List.mem_cons_of_mem _ hq'))
    rw [hSame q List.mem_cons_self, hd]

/-- The writers of a topic notice only what happens in its directory. -/
theorem Manned.keeps_congr {is : List Nat} {ps : List PlacedLog} {pages : List Page}
    (hManned : Manned X (root ++ [n]) t is ps) (hSame : SameTopic root n t t')
    (h : List.Forall₂ (PlacedLog.Keeps X t) ps pages) :
    List.Forall₂ (PlacedLog.Keeps X t') ps pages := by
  apply Kafko.keeps_congr h
  intro q hq
  obtain ⟨i, -, hDir⟩ := hManned.dir_of_mem hq
  rw [hDir, hSame.2]

/-- The files of a topic whose writers are all there. -/
theorem Manned.files {counts : String → Nat} {ps : List PlacedLog}
    (hManned : Manned X (root ++ [n]) t' (List.range (counts n)) ps)
    (hIntact : FilesIntact X root t counts) (hRested : FilesRested root t counts)
    (hOthers : ∀ m, m ≠ n → SameTopic root m t t') :
    FilesIntact X root t' counts ∧ FilesRested root t' counts := by
  have hHeld : ∀ j < counts n, ∀ d, t'.lookup (root ++ [n] ++ [toString j]) = some d →
      ∃ log, Held X log d := by
    intro j hj d hd
    obtain ⟨log, d', hd', hHeld⟩ := hManned.held (List.mem_range.mpr hj)
    rw [hd] at hd'
    cases hd'
    exact ⟨log, hHeld⟩
  constructor
  · apply hIntact.update (fun _ _ => rfl) hOthers
    intro j hj d hd
    obtain ⟨log, hLog⟩ := hHeld j hj d hd
    exact hLog.intact
  · intro m j hj d hd
    by_cases hEq : m = n
    · subst hEq
      obtain ⟨log, hLog⟩ := hHeld j hj d hd
      exact hLog.rested
    · rw [(hOthers m hEq).2] at hd
      exact hRested m j hj d hd

/-- The loop over the topics, by induction on their names. -/
theorem openTopics_pages {envs : String → Nat → Env FileName} {names : List String}
    {topics' : Registry} {r : Res KafkoError Unit} (hEnvs : ∀ n i, Faultless (envs n i))
    (hNodup : names.Nodup) (hNames : ∀ n ∈ names, 0 < A.counts n)
    (hCat : Catalogue root t A.counts) (hIntact : FilesIntact X root t A.counts)
    (hRested : FilesRested root t A.counts) (hResting : ∀ n ∈ names, Resting X root t A n)
    (hRun : openTopics X config envs root names topics t = (r, topics', t')) :
    (∀ m, m ∉ names → SameTopic root m t t' ∧ topics'.lookup m = topics.lookup m) ∧
      (r = .ok () → ∀ n ∈ names, Reopened X t' topics' A n) ∧
      ((∀ e, r ≠ .err e) → ∀ n ∈ names, Leaves X root t' A n) := by
  induction names generalizing t topics with
  | nil =>
    cases hRun
    refine ⟨fun m _ => ⟨⟨Iff.rfl, fun _ => rfl⟩, rfl⟩, ?_, ?_⟩
    · intro _ m hm
      cases hm
    · intro _ m hm
      cases hm
  | cons n names ih =>
    obtain ⟨hNew, hNodup⟩ := List.nodup_cons.mp hNodup
    have hPositive := hNames n List.mem_cons_self
    have hOpens : ∀ i ∈ List.range (A.counts n),
        Opens X (envs n i) (t.filesAt (root ++ [n] ++ [toString i])) := by
      intro i hi
      have hLt := List.mem_range.mp hi
      obtain ⟨d, hd⟩ := DirTree.mem_iff.mp (hCat.mem_partition hLt)
      rw [DirTree.filesAt, hd, Option.getD_some]
      exact Or.inr ⟨hEnvs n i, hIntact n i hLt d hd, hRested n i hLt d hd⟩
    rw [openTopics, Topic.open_eq hPositive (hCat.small n) (hCat.partitions n)] at hRun
    rcases hOpen : openPartitions X config (envs n) (root ++ [n]).inits (root ++ [n])
      (List.range (A.counts n)) t with ⟨r₁, t₁⟩
    obtain ⟨hExtends, hEnd⟩ := openPartitions_spec List.nodup_range hOpens hOpen
    obtain ⟨hWriters, hLeft⟩ := openTopic_pages (hEnvs n) hCat hIntact hRested
      (hResting n List.mem_cons_self) hOpen
    have hOthers : ∀ m, m ≠ n → SameTopic root m t t₁ := fun m hm =>
      hExtends.sameTopic (leadsTo_inits root n) hm
    have hResting₁ : ∀ m ∈ names, Resting X root t₁ A m := by
      intro m hm
      apply (hResting m (List.mem_cons_of_mem _ hm)).congr (hOthers m _)
      rintro rfl
      exact hNew hm
    rw [hOpen] at hRun
    cases r₁ with
    | panic m => exact hEnd.elim
    | err e =>
      cases hRun
      refine ⟨?_, ?_, fun hNot => absurd rfl (hNot e)⟩
      · intro m hm
        exact ⟨hOthers m fun hEq => hm (hEq ▸ List.mem_cons_self), rfl⟩
      · intro hOk
        cases hOk
    | crash =>
      cases hRun
      refine ⟨?_, ?_, ?_⟩
      · intro m hm
        exact ⟨hOthers m fun hEq => hm (hEq ▸ List.mem_cons_self), rfl⟩
      · intro hOk
        cases hOk
      · intro _ m hm
        rcases List.mem_cons.mp hm with rfl | hm
        · exact hLeft (by simp)
        · exact (hResting₁ m hm).leaves
    | ok ps =>
      obtain ⟨hManned, -⟩ := hEnd
      obtain ⟨pages, hReopens, hKeeps⟩ := hWriters ps rfl
      obtain ⟨hIntact₁, hRested₁⟩ := hManned.files hIntact hRested hOthers
      obtain ⟨hFrame, hOk, hLeaves⟩ := ih hNodup
        (fun m hm => hNames m (List.mem_cons_of_mem _ hm)) (hCat.reopened hPositive hExtends)
        hIntact₁ hRested₁ hResting₁ hRun
      obtain ⟨hSame, hLookup⟩ := hFrame n hNew
      refine ⟨?_, ?_, ?_⟩
      · intro m hm
        have hNe : m ≠ n := fun hEq => hm (hEq ▸ List.mem_cons_self)
        obtain ⟨hSame', hLookup'⟩ := hFrame m fun hMem => hm (List.mem_cons_of_mem _ hMem)
        rw [AList.lookup_insert_ne hNe] at hLookup'
        exact ⟨(hOthers m hNe).trans hSame', hLookup'⟩
      · intro hResult m hm
        rcases List.mem_cons.mp hm with rfl | hm
        · refine ⟨ps, pages, ?_, hReopens, hManned.keeps_congr hSame hKeeps⟩
          rw [hLookup, AList.lookup_insert]
        · exact hOk hResult m hm
      · intro hNot m hm
        rcases List.mem_cons.mp hm with rfl | hm
        · exact (hLeft (by simp)).congr hSame
        · exact hLeaves hNot m hm

end Opening

/-! ## Writers -/

theorem Manned.getElem {topicDir : DirPath} {count i : Nat} {ps : List PlacedLog} {q : PlacedLog}
    (hManned : Manned X topicDir t (List.range count) ps) (hq : ps[i]? = some q) :
    q.dir = topicDir ++ [toString i] := by
  obtain ⟨hi, hGet⟩ := List.getElem?_eq_some_iff.mp hq
  have hi' : i < (List.range count).length := by
    rw [hManned.length_eq]
    exact hi
  have hAt := (List.forall₂_iff_get.mp hManned).2 i hi' hi
  rw [List.get_eq_getElem, List.get_eq_getElem, List.getElem_range, hGet] at hAt
  exact hAt.1

theorem Manned.nodup {topicDir : DirPath} {is : List Nat} {ps : List PlacedLog}
    (hNodup : is.Nodup) (hManned : Manned X topicDir t is ps) :
    (ps.map PlacedLog.dir).Nodup := by
  have hDirs : ps.map PlacedLog.dir = is.map fun i => topicDir ++ [toString i] := by
    clear hNodup
    induction hManned with
    | nil => rfl
    | cons hHead _ ih => rw [List.map_cons, List.map_cons, hHead.1, ih]
  rw [hDirs]
  apply hNodup.map
  intro i j hEq
  have hStr : toString i = toString j := by simpa using hEq
  exact toString_injective hStr

/-- What the writers of a topic leave when they are gone. -/
theorem Manned.resting {ps : List PlacedLog} {count : Nat}
    (hManned : Manned X (root ++ [n]) t' (List.range count) ps)
    (h : List.Forall₂ (PlacedLog.Keeps X t) ps (A.topics n)) : Resting X root t A n := by
  intro i p hp d hd
  obtain ⟨hi, hGet⟩ := List.getElem?_eq_some_iff.mp hp
  have hi' : i < ps.length := by
    rw [h.length_eq]
    exact hi
  have hKeeps := (List.forall₂_iff_get.mp h).2 i hi' hi
  rw [List.get_eq_getElem, List.get_eq_getElem, hGet] at hKeeps
  obtain ⟨d', hd', hStored⟩ := hKeeps
  rw [hManned.getElem (List.getElem?_eq_getElem hi'), hd] at hd'
  cases hd'
  exact hStored.released

theorem Manned.leaves {ps : List PlacedLog} {count : Nat}
    (hManned : Manned X (root ++ [n]) t' (List.range count) ps)
    (h : List.Forall₂ (fun q (p : Page) => ∀ d, t.lookup q.dir = some d → p.Left X d) ps
      (A.topics n)) : Leaves X root t A n := by
  intro i p hp d hd
  obtain ⟨hi, hGet⟩ := List.getElem?_eq_some_iff.mp hp
  have hi' : i < ps.length := by
    rw [h.length_eq]
    exact hi
  have hLeft := (List.forall₂_iff_get.mp h).2 i hi' hi
  rw [List.get_eq_getElem, List.get_eq_getElem, hGet,
    hManned.getElem (List.getElem?_eq_getElem hi')] at hLeft
  exact hLeft d hd

/-- What a writer does with an operation, as a run of its log. -/
theorem PlacedLog.operate_run {op : LogOp} {env : Env FileName} {q q' : PlacedLog}
    {d : Store FileName} {stopped : Bool} (hd : t.lookup q.dir = some d)
    (hRun : q.operate X op env t = (stopped, q', t')) :
    ∃ r w, op.exec X env q.log ⟨d, 0⟩ = (r, q'.log, w) ∧ q'.dir = q.dir ∧
      stopped = decide (r = .crash) ∧ t'.lookup q.dir = some w.store := by
  unfold operate at hRun
  rw [hd] at hRun
  dsimp only at hRun
  rcases hExec : op.exec X env q.log ⟨d, 0⟩ with ⟨r, log, w⟩
  rw [hExec] at hRun
  cases hRun
  refine ⟨r, w, rfl, rfl, rfl, ?_⟩
  rw [DirTree.lookup_setFiles, if_pos ⟨rfl, DirTree.mem_iff.mpr ⟨d, hd⟩⟩]

/-- A writer that ends. -/
theorem PlacedLog.close_page {env : Env FileName} {q q' : PlacedLog} {p : Page} {stopped : Bool}
    {synced : Prop} (hSynced : synced → env.Steady) (hKeeps : q.Keeps X t p)
    (hRun : q.operate X .sync env t = (stopped, q', t')) :
    (stopped = false → ∃ p', p.Closes synced p' ∧ q.Keeps X t' p') ∧
      ∀ d, t'.lookup q.dir = some d → p.Left X d := by
  obtain ⟨d, hd, hStored⟩ := hKeeps
  obtain ⟨r, w, hExec, -, hStopped, hFiles⟩ := operate_run hd hRun
  have hSpec := Page.Stored.close (w := ⟨d, 0⟩) hStored hSynced
  rw [wp, hExec] at hSpec
  rw [hFiles]
  cases r with
  | panic m => exact hSpec.elim
  | crash =>
    constructor
    · intro hRuns
      simp [hStopped] at hRuns
    · intro d' hd'
      cases hd'
      exact hSpec
  | ok reply =>
    obtain ⟨-, hLeft, p', hCloses, hStored'⟩ := hSpec
    refine ⟨fun _ => ⟨p', hCloses, w.store, hFiles, hStored'⟩, ?_⟩
    intro d' hd'
    cases hd'
    exact hLeft
  | err e =>
    obtain ⟨-, hLeft, p', hCloses, hStored'⟩ := hSpec
    refine ⟨fun _ => ⟨p', hCloses, w.store, hFiles, hStored'⟩, ?_⟩
    intro d' hd'
    cases hd'
    exact hLeft

/-- The writers of a topic end one after the other. -/
theorem Topic.shutdown_pages {envs : Nat → Env FileName} {j : Nat} {ps : List PlacedLog}
    {pages : List Page} {stopped : Bool} {synced : Prop}
    (hSynced : synced → ∀ k, (envs k).Steady) (hNodup : (ps.map PlacedLog.dir).Nodup)
    (hKeeps : List.Forall₂ (PlacedLog.Keeps X t) ps pages)
    (hRun : Topic.shutdown X envs j ps t = (stopped, t')) :
    (stopped = false → ∃ pages', List.Forall₂ (Page.Closes synced) pages pages' ∧
        List.Forall₂ (PlacedLog.Keeps X t') ps pages') ∧
      List.Forall₂ (fun q (p : Page) => ∀ d, t'.lookup q.dir = some d → p.Left X d) ps pages := by
  induction ps generalizing j t pages with
  | nil =>
    cases hKeeps
    cases hRun
    exact ⟨fun _ => ⟨[], .nil, .nil⟩, .nil⟩
  | cons q ps ih =>
    obtain ⟨p, pages, hHead, hTail, rfl⟩ := List.forall₂_cons_left_iff.mp hKeeps
    obtain ⟨hNew, hNodup⟩ := List.nodup_cons.mp hNodup
    have hApart : ∀ q' ∈ ps, q'.dir ≠ q.dir := by
      intro q' hq' hEq
      exact hNew (hEq ▸ List.mem_map_of_mem hq')
    have hFrame := fun (dir : DirPath) => q.operate_lookup (X := X) .sync (envs j) t (q := dir)
    rw [shutdown] at hRun
    rcases hSync : q.operate X .sync (envs j) t with ⟨stopped₁, q₁, t₁⟩
    rw [hSync] at hRun hFrame
    obtain ⟨hCloses, hLeft⟩ := PlacedLog.close_page (fun h => hSynced h j) hHead hSync
    have hTail₁ : List.Forall₂ (PlacedLog.Keeps X t₁) ps pages :=
      keeps_congr hTail fun q' hq' => hFrame _ (hApart q' hq')
    cases stopped₁ with
    | true =>
      cases hRun
      refine ⟨fun hNot => Bool.noConfusion hNot, .cons hLeft (hTail₁.imp ?_)⟩
      intro q' p' hKeeps' d hd
      obtain ⟨d', hd', hStored⟩ := hKeeps'
      rw [hd] at hd'
      cases hd'
      exact hStored.left
    | false =>
      obtain ⟨hClosed, hLefts⟩ := ih hNodup hTail₁ hRun
      have hKept : t'.lookup q.dir = t₁.lookup q.dir := by
        have hLookup := Topic.shutdown_lookup (X := X) envs (j + 1) ps t₁ (q := q.dir)
        dsimp only at hRun
        rw [hRun] at hLookup
        exact hLookup fun q' hq' => (hApart q' hq').symm
      constructor
      · intro hRuns
        obtain ⟨p', hCloses, d, hd, hStored⟩ := hCloses rfl
        obtain ⟨pages', hCloseds, hKeeps'⟩ := hClosed hRuns
        exact ⟨p' :: pages', .cons hCloses hCloseds, .cons ⟨d, hKept.trans hd, hStored⟩ hKeeps'⟩
      · refine .cons ?_ hLefts
        intro d hd
        exact hLeft d (hKept.symm.trans hd)

/-- The topics are closed one after the other. -/
theorem Serves.shutdown_pages {envs : String → Nat → Env FileName} {names : List String}
    {stopped : Bool} {synced : Prop} (h : Serves X root t topics A.counts)
    (hSynced : synced → ∀ n k, (envs n k).Steady) (hNodup : names.Nodup)
    (hKeeps : ∀ n ∈ names, ∀ ps, topics.lookup n = some ps →
      List.Forall₂ (PlacedLog.Keeps X t) ps (A.topics n))
    (hRun : shutdownTopics X envs topics names t = (stopped, t')) :
    (∀ m, m ∉ names → SameTopic root m t t') ∧
      (stopped = false → ∀ n ∈ names, ∀ ps, topics.lookup n = some ps →
        ∃ pages, List.Forall₂ (Page.Closes synced) (A.topics n) pages ∧
          List.Forall₂ (PlacedLog.Keeps X t') ps pages) ∧
      ∀ n ∈ names, n ∈ topics → Leaves X root t' A n := by
  induction names generalizing t with
  | nil =>
    cases hRun
    refine ⟨fun m _ => ⟨Iff.rfl, fun _ => rfl⟩, ?_, ?_⟩
    · intro _ m hm
      cases hm
    · intro m hm
      cases hm
  | cons n names ih =>
    obtain ⟨hNew, hNodup⟩ := List.nodup_cons.mp hNodup
    rw [shutdownTopics] at hRun
    cases hTopic : topics.lookup n with
    | none =>
      rw [hTopic] at hRun
      obtain ⟨hFrame, hClosed, hLeaves⟩ := ih h hNodup
        (fun m hm => hKeeps m (List.mem_cons_of_mem _ hm)) hRun
      refine ⟨fun m hm => hFrame m fun hMem => hm (List.mem_cons_of_mem _ hMem), ?_, ?_⟩
      · intro hRuns m hm qs hqs
        rcases List.mem_cons.mp hm with rfl | hm
        · rw [hTopic] at hqs
          cases hqs
        · exact hClosed hRuns m hm qs hqs
      · intro m hm hMem
        rcases List.mem_cons.mp hm with rfl | hm
        · exact absurd hMem (AList.lookup_eq_none.mp hTopic)
        · exact hLeaves m hm hMem
    | some ps =>
      rw [hTopic, Option.getD_some] at hRun
      rcases hOne : Topic.shutdown X (envs n) 0 ps t with ⟨stopped₁, t₁⟩
      rw [hOne] at hRun
      have hManned := (h.2 n ps hTopic).2
      have hOthers : ∀ m, m ≠ n → SameTopic root m t t₁ := fun m hm =>
        Topic.shutdown_sameTopic hManned hOne hm
      obtain ⟨hCloses, hLefts⟩ := Topic.shutdown_pages (fun hAll k => hSynced hAll n k)
        (hManned.nodup List.nodup_range) (hKeeps n List.mem_cons_self ps hTopic) hOne
      have hLeft : Leaves X root t₁ A n := hManned.leaves hLefts
      have hKeeps₁ : ∀ m ∈ names, ∀ qs, topics.lookup m = some qs →
          List.Forall₂ (PlacedLog.Keeps X t₁) qs (A.topics m) := by
        intro m hm qs hqs
        have hNe : m ≠ n := by
          rintro rfl
          exact hNew hm
        exact (h.2 m qs hqs).2.keeps_congr (hOthers m hNe)
          (hKeeps m (List.mem_cons_of_mem _ hm) qs hqs)
      obtain ⟨-, -, hServing, -⟩ := h.shutdown_topic hTopic hOne
      cases stopped₁ with
      | true =>
        cases hRun
        refine ⟨?_, fun hNot => Bool.noConfusion hNot, ?_⟩
        · exact fun m hm => hOthers m fun hEq => hm (hEq ▸ List.mem_cons_self)
        · intro m hm hMem
          rcases List.mem_cons.mp hm with rfl | hm
          · exact hLeft
          · obtain ⟨qs, hqs⟩ := Option.isSome_iff_exists.mp (AList.lookup_isSome.mpr hMem)
            exact ((h.2 m qs hqs).2.resting (hKeeps₁ m hm qs hqs)).leaves
      | false =>
        have h₁ := hServing rfl
        obtain ⟨hFrame, hClosed, hLeaves⟩ := ih h₁ hNodup hKeeps₁ hRun
        have hSame := hFrame n hNew
        refine ⟨?_, ?_, ?_⟩
        · intro m hm
          have hNe : m ≠ n := fun hEq => hm (hEq ▸ List.mem_cons_self)
          exact (hOthers m hNe).trans (hFrame m fun hMem => hm (List.mem_cons_of_mem _ hMem))
        · intro hRuns m hm qs hqs
          rcases List.mem_cons.mp hm with rfl | hm
          · obtain rfl : qs = ps := Option.some.inj (hqs.symm.trans hTopic)
            obtain ⟨pages, hPages, hKept⟩ := hCloses rfl
            exact ⟨pages, hPages, (h₁.2 m qs hqs).2.keeps_congr hSame hKept⟩
          · exact hClosed hRuns m hm qs hqs
        · intro m hm hMem
          rcases List.mem_cons.mp hm with rfl | hm
          · exact hLeft.congr hSame
          · exact hLeaves m hm hMem

end Kafko
