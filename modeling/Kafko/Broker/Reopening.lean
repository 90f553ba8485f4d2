import Kafko.Broker.Catalogue

/-!
# Opening a data directory again

`Kafko::open` finds the topics by listing directories. On a directory in order it finds each
topic of the catalogue with all its partitions, whatever calls and crashes came before, as
long as every name was plain and no topic was made in part. Then the registry after a restart
is the one before it, and so is the partition of every key.
-/

namespace Kafko

open Disk

variable {X : Crates} {root : DirPath} {t t' : DirTree FileName} {counts : String → Nat}
  {topics : Registry} {n : String} {s s' : Site} {r : Res KafkoError Unit}

/-! ## Opening the topics -/

theorem Catalogue.mem_partition (h : Catalogue root t counts) {i : Nat} (hi : i < counts n) :
    root ++ [n] ++ [toString i] ∈ t :=
  (h.partitions n _).mpr ⟨i, hi, rfl⟩

/-- Opening the partitions of a topic that is there makes no directory. -/
theorem Catalogue.reopened (h : Catalogue root t counts) (hPositive : 0 < counts n)
    (hExtends : Extends (root ++ [n]).inits (root ++ [n]) (List.range (counts n)) t t') :
    Catalogue root t' counts := by
  have hLeads := leadsTo_inits root n
  apply h.congr
  · intro m
    by_cases hEq : m = n
    · have hMem : root ++ [m] ∈ t := by
        rw [hEq]
        exact (h.topics n).mpr hPositive
      exact iff_of_true (hExtends.kept _ hMem) hMem
    · exact (hExtends.sameTopic hLeads hEq).1
  · intro m c
    by_cases hEq : m = n
    · subst hEq
      by_cases hMem : root ++ [m] ++ [c] ∈ t
      · exact iff_of_true (hExtends.kept _ hMem) hMem
      · have hOwn : ∀ i ∈ List.range (counts m), [m] ++ [c] ≠ [m, toString i] := by
          intro i hi hBoth
          apply hMem
          have hc : c = toString i := by simpa using hBoth
          rw [hc]
          exact h.mem_partition (List.mem_range.mp hi)
        rw [DirTree.mem_iff, DirTree.mem_iff, List.append_assoc,
          hExtends.lookup_below hLeads (by simp) (by simp) hOwn]
    · exact (hExtends.sameTopic hLeads hEq).lookup_mem c

/-- What is true of the topics that were opened so far. -/
def ServesSome (X : Crates) (root : DirPath) (t : DirTree FileName) (topics : Registry)
    (counts : String → Nat) : Prop :=
  ∀ n ps, topics.lookup n = some ps →
    0 < counts n ∧ Manned X (root ++ [n]) t (List.range (counts n)) ps

theorem openTopics_spec {config : LogConfig} {envs : String → Nat → Env FileName}
    (hEnvs : ∀ n i, Faultless (envs n i)) {names : List String} (hNodup : names.Nodup)
    (hNames : ∀ n ∈ names, 0 < counts n) {topics' : Registry}
    (hCat : Catalogue root t counts) (hIntact : FilesIntact X root t counts)
    (hRested : ∀ n ∈ names, ∀ i < counts n, ∀ d,
      t.lookup (root ++ [n] ++ [toString i]) = some d → Rested d)
    (hServes : ServesSome X root t topics counts)
    (hRun : openTopics X config envs root names topics t = (r, topics', t')) :
    Catalogue root t' counts ∧ FilesIntact X root t' counts ∧
      ((r = .ok () ∧ ServesSome X root t' topics' counts ∧
          ∀ n, n ∈ names ∨ n ∈ topics → n ∈ topics') ∨
        (r = .crash ∧ ∃ n ∈ names, ∃ i, ¬ (envs n i).Alive)) := by
  induction names generalizing t topics with
  | nil =>
    cases hRun
    refine ⟨hCat, hIntact, Or.inl ⟨rfl, hServes, ?_⟩⟩
    intro n hn
    exact hn.resolve_left List.not_mem_nil
  | cons n names ih =>
    obtain ⟨hNew, hNodup⟩ := List.nodup_cons.mp hNodup
    have hPositive := hNames n List.mem_cons_self
    have hLeads := leadsTo_inits root n
    have hOpens : ∀ i ∈ List.range (counts n),
        Opens X (envs n i) (t.filesAt (root ++ [n] ++ [toString i])) := by
      intro i hi
      have hLt := List.mem_range.mp hi
      obtain ⟨d, hd⟩ := DirTree.mem_iff.mp (hCat.mem_partition hLt)
      rw [DirTree.filesAt, hd, Option.getD_some]
      exact Or.inr ⟨hEnvs n i, hIntact n i hLt d hd, hRested n List.mem_cons_self i hLt d hd⟩
    rw [openTopics, Topic.open_eq hPositive (hCat.small n) (hCat.partitions n)] at hRun
    rcases hOpen : openPartitions X config (envs n) (root ++ [n]).inits (root ++ [n])
      (List.range (counts n)) t with ⟨r₁, t₁⟩
    rw [hOpen] at hRun
    obtain ⟨hExtends, hEnd⟩ := openPartitions_spec List.nodup_range hOpens hOpen
    have hCat₁ := hCat.reopened hPositive hExtends
    have hOthers : ∀ m, m ≠ n → SameTopic root m t t₁ := fun m hm => hExtends.sameTopic hLeads hm
    cases r₁ with
    | err e =>
      obtain ⟨i, -, hSteady⟩ := hEnd
      exact absurd (hEnvs n i).steady hSteady
    | panic m => exact hEnd.elim
    | crash =>
      cases hRun
      obtain ⟨⟨i, -, hAlive⟩, hFiles⟩ := hEnd
      refine ⟨hCat₁, ?_, Or.inr ⟨rfl, n, List.mem_cons_self, i, hAlive⟩⟩
      apply hIntact.update (fun _ _ => rfl) hOthers
      exact fun j hj d hd => hFiles j (List.mem_range.mpr hj) d hd
    | ok ps =>
      obtain ⟨hManned, -⟩ := hEnd
      have hIntact₁ : FilesIntact X root t₁ counts := by
        apply hIntact.update (fun _ _ => rfl) hOthers
        intro j hj d hd
        obtain ⟨log, d', hd', hHeld⟩ := hManned.held (List.mem_range.mpr hj)
        rw [hd] at hd'
        cases hd'
        exact hHeld.intact
      have hRested₁ : ∀ m ∈ names, ∀ i < counts m, ∀ d,
          t₁.lookup (root ++ [m] ++ [toString i]) = some d → Rested d := by
        intro m hm i hi d hd
        have hEq : m ≠ n := by
          rintro rfl
          exact hNew hm
        rw [(hOthers m hEq).2] at hd
        exact hRested m (List.mem_cons_of_mem _ hm) i hi d hd
      have hServes₁ : ServesSome X root t₁ (topics.insert n ps) counts := by
        intro m qs hm
        by_cases hEq : m = n
        · subst hEq
          rw [AList.lookup_insert] at hm
          cases hm
          exact ⟨hPositive, hManned⟩
        · rw [AList.lookup_insert_ne hEq] at hm
          obtain ⟨hCount, hOld⟩ := hServes m qs hm
          exact ⟨hCount, hOld.congr fun i _ => (hOthers m hEq).2 _⟩
      obtain ⟨hCat', hIntact', hEnds⟩ := ih hNodup
        (fun m hm => hNames m (List.mem_cons_of_mem _ hm)) hCat₁ hIntact₁ hRested₁ hServes₁ hRun
      refine ⟨hCat', hIntact', ?_⟩
      rcases hEnds with ⟨hOk, hServes', hAll⟩ | ⟨hCrash, m, hm, hAlive⟩
      · refine Or.inl ⟨hOk, hServes', ?_⟩
        intro m hm
        apply hAll
        rcases hm with hm | hm
        · rcases List.mem_cons.mp hm with rfl | hm
          · exact Or.inr (by rw [AList.mem_insert]; exact Or.inl rfl)
          · exact Or.inl hm
        · exact Or.inr (by rw [AList.mem_insert]; exact Or.inr hm)
      · exact Or.inr ⟨hCrash, m, List.mem_cons_of_mem _ hm, hAlive⟩

theorem lookup_createDirs_inits {p : DirPath} (hp : p ≠ []) :
    (t.createDirs root.inits).lookup (root ++ p) = t.lookup (root ++ p) := by
  rw [DirTree.lookup_createDirs, if_neg]
  intro hMem
  have hLength := ((List.mem_inits _ _).mp hMem).length_le
  rw [List.length_append] at hLength
  have hPos := List.length_pos_of_ne_nil hp
  omega

/-- Opening a broker on a directory in order. -/
theorem Stands.open_lands (h : Stands X root s counts) {config : LogConfig}
    {envs : String → Nat → Env FileName} (hEnvs : ∀ n i, Faultless (envs n i))
    (hRun : Site.opened (openWithConfig X root config envs s.tree) = (r, s')) :
    Lands X root r s' counts ∧
      (r = .ok () ∧ (∃ topics, s'.topics = some topics) ∨
        r = .crash ∧ ∃ n i, ¬ (envs n i).Alive) := by
  have hTopic : ∀ m, (s.tree.createDirs root.inits).lookup (root ++ [m]) =
      s.tree.lookup (root ++ [m]) := fun m => lookup_createDirs_inits (by simp)
  have hPart : ∀ m c, (s.tree.createDirs root.inits).lookup (root ++ [m] ++ [c]) =
      s.tree.lookup (root ++ [m] ++ [c]) := by
    intro m c
    rw [List.append_assoc]
    exact lookup_createDirs_inits (by simp)
  have hCat : Catalogue root (s.tree.createDirs root.inits) counts := by
    apply h.catalogue.congr
    · intro m
      rw [DirTree.mem_iff, DirTree.mem_iff, hTopic]
    · intro m c
      rw [DirTree.mem_iff, DirTree.mem_iff, hPart]
  have hIntact : FilesIntact X root (s.tree.createDirs root.inits) counts := by
    intro m i hi d hd
    rw [hPart] at hd
    exact h.intact m i hi d hd
  have hNames : ∀ m ∈ (s.tree.createDirs root.inits).children root, 0 < counts m := by
    intro m hm
    exact (hCat.topics m).mp (DirTree.mem_children.mp hm)
  have hRested : ∀ m ∈ (s.tree.createDirs root.inits).children root, ∀ i < counts m, ∀ d,
      (s.tree.createDirs root.inits).lookup (root ++ [m] ++ [toString i]) = some d →
        Rested d := by
    intro m _ i hi d hd
    rw [hPart] at hd
    exact h.rested m i hi d hd
  have hNone : ServesSome X root (s.tree.createDirs root.inits) ∅ counts := by
    intro m ps hm
    cases hm
  unfold openWithConfig at hRun
  dsimp only at hRun
  rcases hTopics : openTopics X config envs root ((s.tree.createDirs root.inits).children root) ∅
    (s.tree.createDirs root.inits) with ⟨r₀, topics, t'⟩
  rw [hTopics] at hRun
  obtain ⟨hCat', hIntact', hEnds⟩ := openTopics_spec hEnvs (DirTree.nodup_children _ _) hNames hCat
    hIntact hRested hNone hTopics
  rcases hEnds with ⟨rfl, hServes, hAll⟩ | ⟨rfl, m, -, i, hAlive⟩
  · cases hRun
    have hServing : Serves X root t' topics counts := by
      refine ⟨?_, hServes⟩
      intro m hm
      by_contra hNot
      have hMem : m ∈ topics := by
        apply hAll m (Or.inl _)
        rw [DirTree.mem_children, hCat.topics]
        omega
      exact AList.lookup_eq_none.mp hm hMem
    exact ⟨(hServing.stands hCat').lands (by simp), Or.inl ⟨rfl, topics, rfl⟩⟩
  · cases hRun
    exact ⟨lands_of_crash hCat' hIntact', Or.inr ⟨rfl, m, i, hAlive⟩⟩

/-! ## Operations on a partition -/

/-- The writers of a topic after one of them has performed an operation. -/
theorem Manned.set {topicDir : DirPath} {is : List Nat} {ps : List PlacedLog} (hNodup : is.Nodup)
    (h : Manned X topicDir t is ps) {i : Nat} {p p' : PlacedLog} (hp : ps[i]? = some p)
    (hDir : p'.dir = p.dir) {d : Store FileName} (hd : t'.lookup p.dir = some d)
    (hHeld : Held X p'.log d) (hOthers : ∀ q, q ≠ p.dir → t'.lookup q = t.lookup q) :
    Manned X topicDir t' is (ps.set i p') := by
  induction is generalizing i ps with
  | nil =>
    cases h
    cases hp
  | cons j is ih =>
    obtain ⟨hNew, hNodup⟩ := List.nodup_cons.mp hNodup
    have hApart : ∀ k ∈ is, topicDir ++ [toString k] ≠ topicDir ++ [toString j] := by
      intro k hk hEq
      have hStr : toString k = toString j := by simpa using hEq
      exact hNew (toString_injective hStr ▸ hk)
    cases h with
    | @cons _ q _ ps hHead hTail =>
      cases i with
      | zero =>
        obtain rfl : q = p := by simpa using hp
        refine List.Forall₂.cons ⟨by rw [hDir, hHead.1], d, by rw [hDir, hd], hHeld⟩ ?_
        apply Manned.congr hTail
        intro k hk
        apply hOthers
        rw [hHead.1]
        exact hApart k hk
      | succ i =>
        have hp : ps[i]? = some p := by simpa using hp
        obtain ⟨hPlace, dq, hdq, hHeldq⟩ := hHead
        obtain ⟨k, hk, hPlace'⟩ := Manned.dir_of_mem hTail (List.mem_of_getElem? hp)
        have hNe : q.dir ≠ p.dir := by
          rw [hPlace, hPlace']
          exact (hApart k hk).symm
        refine List.Forall₂.cons ⟨hPlace, dq, ?_, hHeldq⟩ (ih hNodup hTail hp)
        rw [hOthers _ hNe, hdq]

/-- What an operation on a partition may leave. -/
theorem Stands.operate_lands (hX : X.Lawful) (h : Stands X root s counts)
    (hUp : s.topics = some topics) {ps : List PlacedLog} (hTopic : topics.lookup n = some ps)
    {i : Nat} {p p' : PlacedLog} (hp : ps[i]? = some p) {op : LogOp} {env : Env FileName}
    (hClean : Clean env) (hOp : op.Admissible X p.log) {stopped : Bool}
    (hRun : p.operate X op env s.tree = (stopped, p', t')) :
    (stopped = true → Lands X root .crash ⟨t', none⟩ counts) ∧
      (stopped = false →
        Lands X root (.ok ()) ⟨t', some (topics.insert n (ps.set i p'))⟩ counts) := by
  have hServing := h.serving topics hUp
  obtain ⟨hPositive, hManned⟩ := hServing.2 n ps hTopic
  obtain ⟨k, hk, hPlace⟩ := hManned.dir_of_mem (List.mem_of_getElem? hp)
  have hMem := p.mem_operate (X := X) op env s.tree
  have hOthers := fun (q : DirPath) => p.operate_lookup (X := X) op env s.tree (q := q)
  have hDir := p.operate_dir (X := X) op env s.tree
  rw [hRun] at hMem hOthers hDir
  obtain ⟨d, hd, hHeld⟩ : ∃ d, s.tree.lookup p.dir = some d ∧ Held X p.log d := by
    obtain ⟨hLt, hGet⟩ := List.getElem?_eq_some_iff.mp hp
    have hEach := (List.forall₂_iff_get.mp hManned).2 i (by rw [hManned.length_eq]; exact hLt) hLt
    rw [List.get_eq_getElem, hGet] at hEach
    exact hEach.2
  obtain ⟨d', hd', hLive, hIntact⟩ := PlacedLog.operate_spec hX hClean hOp hd hHeld hRun
  have hCat : Catalogue root t' counts := h.catalogue.congr (fun _ => hMem _) (fun _ _ => hMem _)
  constructor
  · rintro rfl
    apply lands_of_crash hCat
    intro m j hj d'' hd''
    by_cases hSelf : root ++ [m] ++ [toString j] = p.dir
    · rw [hSelf, hd'] at hd''
      cases hd''
      exact hIntact
    · rw [hOthers _ hSelf] at hd''
      exact h.intact m j hj d'' hd''
  · rintro rfl
    have hSame : ∀ m, m ≠ n → SameTopic root m s.tree t' := by
      intro m hm
      refine ⟨hMem _, ?_⟩
      intro c
      apply hOthers
      rw [hPlace]
      intro hEq
      have hBoth : m = n ∧ c = toString k := by simpa using hEq
      exact hm hBoth.1
    have hManned' := hManned.set List.nodup_range hp hDir hd' (hLive rfl) hOthers
    have hInsert := hServing.insert hPositive hSame hManned'
    rw [Function.update_eq_self] at hInsert
    exact (hInsert.stands hCat).lands (by simp)

/-! ## Runs -/

/-- A call that cannot leave a topic made or removed in part, and that names topics plainly. -/
def BrokerAct.Whole (X : Crates) (root : DirPath) (s : Site) : BrokerAct → Prop
  | .create name _ partitions envs => partitions = 0 ∨
      (∃ topics, s.topics = some topics ∧ name ∈ topics) ∨
      PlainName name ∧ (MakesNothing root (envs 0) ∨ MakesAll envs partitions.toNat)
  | .delete _ _ _ removal => removal.Whole
  | .operate name i op env => Clean env ∧ ∀ topics ps p, s.topics = some topics →
      topics.lookup name = some ps → ps[i]? = some p → op.Admissible X p.log
  | .shutdown _ => True
  | .openBroker _ envs => ∀ n i, Faultless (envs n i)
  | .stop => True

/-- The states reached from a fresh data directory by such calls. -/
inductive Reaches (X : Crates) (root : DirPath) : Site → Prop
  | fresh {t : DirTree FileName} (hFresh : ∀ p, p ≠ [] → root ++ p ∉ t) : Reaches X root ⟨t, none⟩
  | step {s s' : Site} {a : BrokerAct} {wreck : Wreck} {r : Res KafkoError Unit}
      (hReach : Reaches X root s) (hWhole : a.Whole X root s)
      (hStep : s.step X root a wreck = some (r, s')) : Reaches X root s'

theorem Stands.fresh (hFresh : ∀ p, p ≠ [] → root ++ p ∉ t) :
    Stands X root ⟨t, none⟩ fun _ => 0 := by
  have hNone : ∀ m c, ¬ root ++ [m] ++ [c] ∈ t := by
    intro m c
    rw [List.append_assoc]
    exact hFresh _ (by simp)
  constructor
  · constructor
    · exact fun _ hZero => absurd hZero (Nat.lt_irrefl 0)
    · exact fun _ => Nat.zero_le _
    · exact fun m => iff_of_false (hFresh [m] (by simp)) (Nat.lt_irrefl 0)
    · intro m c
      apply iff_of_false (hNone m c)
      rintro ⟨i, hi, -⟩
      exact Nat.not_lt_zero i hi
  · exact fun m i hi => absurd hi (Nat.not_lt_zero i)
  · exact fun m i hi => absurd hi (Nat.not_lt_zero i)
  · exact fun topics hUp => by cases hUp

theorem BrokerAct.Whole.create {name : String} {config : LogConfig} {partitions : UInt32}
    {envs : Nat → Env FileName} (h : (BrokerAct.create name config partitions envs).Whole X root s)
    (hUp : s.topics = some topics) : partitions = 0 ∨ name ∈ topics ∨
      PlainName name ∧ (MakesNothing root (envs 0) ∨ MakesAll envs partitions.toNat) := by
  rcases h with hZero | ⟨topics', hUp', hMem⟩ | hPlain
  · exact Or.inl hZero
  · rw [hUp] at hUp'
    cases hUp'
    exact Or.inr (Or.inl hMem)
  · exact Or.inr (Or.inr hPlain)

/-- The step lemma for calls. -/
theorem Stands.act_lands (hX : X.Lawful) (h : Stands X root s counts) {a : BrokerAct}
    (hWhole : a.Whole X root s) (hAct : s.act X root a = some (r, s')) :
    ∃ counts', Lands X root r s' counts' := by
  cases a with
  | create name config partitions envs =>
    obtain ⟨topics, hUp, hAfter⟩ := Option.bind_eq_some_iff.mp hAct
    obtain ⟨counts', hLands, -⟩ := h.create_lands hUp (hWhole.create hUp) (Option.some.inj hAfter)
    exact ⟨counts', hLands⟩
  | delete name inUse envs removal =>
    obtain ⟨topics, hUp, hAfter⟩ := Option.bind_eq_some_iff.mp hAct
    exact h.delete_lands hUp hWhole (Option.some.inj hAfter)
  | operate name i op env =>
    obtain ⟨topics, hUp, hRest⟩ := Option.bind_eq_some_iff.mp hAct
    obtain ⟨ps, hTopic, hRest⟩ := Option.bind_eq_some_iff.mp hRest
    obtain ⟨p, hp, hRest⟩ := Option.bind_eq_some_iff.mp hRest
    obtain ⟨hClean, hOp⟩ := hWhole
    rcases hRun : p.operate X op env s.tree with ⟨stopped, p', t'⟩
    rw [hRun] at hRest
    have hLands := h.operate_lands hX hUp hTopic hp hClean (hOp topics ps p hUp hTopic hp) hRun
    cases stopped with
    | true =>
      cases hRest
      exact ⟨counts, hLands.1 rfl⟩
    | false =>
      cases hRest
      exact ⟨counts, hLands.2 rfl⟩
  | shutdown envs =>
    obtain ⟨topics, hUp, hEnded⟩ := Option.bind_eq_some_iff.mp hAct
    exact ⟨counts, (h.shutdown_lands hUp (Option.some.inj hEnded)).1⟩
  | openBroker config envs =>
    obtain ⟨-, -, hOpened⟩ := Option.bind_eq_some_iff.mp hAct
    exact ⟨counts, (h.open_lands hWhole (Option.some.inj hOpened)).1⟩
  | stop =>
    cases hAct
    exact ⟨counts, lands_of_crash h.catalogue h.intact⟩

/-- After the loss of unsynced bytes every partition can be opened. -/
theorem Lands.wrecked (h : Lands X root .crash s counts) (wreck : Wreck) :
    Stands X root { s with tree := s.tree.mapFiles wreck.left } counts := by
  have hMem : ∀ q, q ∈ s.tree.mapFiles wreck.left ↔ q ∈ s.tree := by
    intro q
    rw [DirTree.mem_iff, DirTree.mem_iff, DirTree.lookup_mapFiles]
    cases s.tree.lookup q with
    | none => simp
    | some d => simp
  have hFiles : ∀ m, ∀ i < counts m, ∀ d,
      (s.tree.mapFiles wreck.left).lookup (root ++ [m] ++ [toString i]) = some d →
        Intact X d ∧ Rested d := by
    intro m i hi d hd
    rw [DirTree.lookup_mapFiles] at hd
    obtain ⟨d', hd', rfl⟩ := Option.map_eq_some_iff.mp hd
    have hSurvives := wreck.survives (root ++ [m] ++ [toString i]) d'
    exact ⟨(h.intact m i hi d' hd').crash hSurvives, rested_of_crash hSurvives⟩
  refine ⟨h.catalogue.congr (fun _ => hMem _) (fun _ _ => hMem _), ?_, ?_, ?_⟩
  · exact fun m i hi d hd => (hFiles m i hi d hd).1
  · exact fun m i hi d hd => (hFiles m i hi d hd).2
  · intro topics hUp
    rw [h.down rfl] at hUp
    cases hUp

/-- The state after a step, given what the call has left. -/
theorem Lands.step {a : BrokerAct} {wreck : Wreck} {r' : Res KafkoError Unit} {s₁ : Site}
    (hAct : s.act X root a = some (r, s₁)) (h : Lands X root r s₁ counts)
    (hStep : s.step X root a wreck = some (r', s')) : r' = r ∧ Stands X root s' counts := by
  unfold Site.step at hStep
  rw [hAct] at hStep
  cases r with
  | ok u =>
    cases hStep
    exact ⟨rfl, h.stands (by simp)⟩
  | err e =>
    cases hStep
    exact ⟨rfl, h.stands (by simp)⟩
  | panic m =>
    cases hStep
    exact ⟨rfl, h.stands (by simp)⟩
  | crash =>
    cases hStep
    exact ⟨rfl, h.wrecked wreck⟩

theorem Site.step_act {a : BrokerAct} {wreck : Wreck}
    (hStep : s.step X root a wreck = some (r, s')) :
    ∃ r₁ s₁, s.act X root a = some (r₁, s₁) := by
  obtain ⟨⟨r₁, s₁⟩, hAct, -⟩ := Option.bind_eq_some_iff.mp hStep
  exact ⟨r₁, s₁, hAct⟩

/-- The run lemma: every state reached is in order. -/
theorem Reaches.stands (hX : X.Lawful) (hReach : Reaches X root s) :
    ∃ counts, Stands X root s counts := by
  induction hReach with
  | fresh hFresh => exact ⟨_, Stands.fresh hFresh⟩
  | step _ hWhole hStep ih =>
    obtain ⟨counts, hStands⟩ := ih
    obtain ⟨r₁, s₁, hAct⟩ := Site.step_act hStep
    obtain ⟨counts', hLands⟩ := hStands.act_lands hX hWhole hAct
    exact ⟨counts', (hLands.step hAct hStep).2⟩

/-- A directory in order opens again, with the same catalogue. -/
theorem Stands.reopens (h : Stands X root s counts) {closing : String → Nat → Env FileName}
    (hAlive : ∀ n i, (closing n i).Alive) (config : LogConfig)
    {envs : String → Nat → Env FileName} (hQuiet : ∀ n i, (envs n i).Quiet) :
    ∃ s' topics, s.reopen X root closing config envs = some (.ok (), s') ∧
      s'.topics = some topics ∧ Serves X root s'.tree topics counts := by
  have hOpen : ∀ s₁ : Site, Stands X root s₁ counts → s₁.topics = none →
      ∃ s' topics, s₁.act X root (.openBroker config envs) = some (.ok (), s') ∧
        s'.topics = some topics ∧ Serves X root s'.tree topics counts := by
    intro s₁ h₁ hDown
    rcases hRun : Site.opened (openWithConfig X root config envs s₁.tree) with ⟨r, s'⟩
    have hAct : s₁.act X root (.openBroker config envs) = some (r, s') := by
      unfold Site.act
      rw [hDown]
      exact congrArg some hRun
    obtain ⟨hLands, hEnds⟩ := h₁.open_lands (fun n i => quiet_faultless (hQuiet n i)) hRun
    rcases hEnds with ⟨rfl, topics, hUp⟩ | ⟨-, n, i, hNot⟩
    · exact ⟨s', topics, hAct, hUp, (hLands.stands (by simp)).serving topics hUp⟩
    · exact absurd (hQuiet n i).alive hNot
  unfold Site.reopen
  cases hUp : s.topics with
  | none => exact hOpen s h hUp
  | some topics =>
    dsimp only
    rcases hShut : Site.ended (shutdownTopics X closing topics topics.keys s.tree) with ⟨r, s₁⟩
    have hAct : s.act X root (.shutdown closing) = some (r, s₁) := by
      unfold Site.act
      rw [hUp]
      exact congrArg some hShut
    obtain ⟨hLands, hDown, hEnds⟩ := h.shutdown_lands hUp hShut
    rcases hEnds with rfl | ⟨-, n, i, hNot⟩
    · rw [hAct]
      exact hOpen s₁ (hLands.stands (by simp)) hDown
    · exact absurd (hAlive n i) hNot

/-! ## Partition counts -/

/-- No call fails. -/
def calm : String → Nat → Env FileName := fun _ _ => Env.quiet

theorem calm_quiet (n : String) (i : Nat) : (calm n i).Quiet := Env.quiet_quiet

/-- A broker is opened on an empty directory, one call is made and the broker is reopened: how
the call and the restart end, and what the restart finds. -/
def callAndReopen (a : BrokerAct) :
    Option (Res KafkoError Unit × Res KafkoError Unit × Option (List (String × Nat))) := do
  let (_, s) ← Site.act Crates.uncompressed ["data"] ⟨∅, none⟩ (.openBroker .default calm)
  let (r, s) ← s.act Crates.uncompressed ["data"] a
  let (r', s) ← s.reopen Crates.uncompressed ["data"] calm .default calm
  pure (r, r', s.topics.map fun topics => topics.entries.map fun e => (e.1, e.2.length))

/-- A restart succeeds and finds these topics. -/
def Site.Finds (X : Crates) (root : DirPath) (s : Site) (closing : String → Nat → Env FileName)
    (config : LogConfig) (envs : String → Nat → Env FileName) (found : Registry) : Prop :=
  ∃ t, s.reopen X root closing config envs = some (.ok (), ⟨t, some found⟩)

/-- A restart of a directory in order finds the catalogue. -/
theorem Stands.finds (h : Stands X root s counts) {closing : String → Nat → Env FileName}
    (hAlive : ∀ n i, (closing n i).Alive) (config : LogConfig)
    {envs : String → Nat → Env FileName} (hQuiet : ∀ n i, (envs n i).Quiet) :
    ∃ t found, s.reopen X root closing config envs = some (.ok (), ⟨t, some found⟩) ∧
      Serves X root t found counts := by
  obtain ⟨⟨t, up⟩, found, hReopen, hUp, hServing⟩ := h.reopens hAlive config hQuiet
  cases hUp
  exact ⟨t, found, hReopen, hServing⟩

/-- The numbers of partitions in the registry are those of the catalogue. -/
theorem Serves.counts_eq (h : Serves X root t topics counts) (n : String) :
    (topics.lookup n).map List.length = if counts n = 0 then none else some (counts n) := by
  cases hTopic : topics.lookup n with
  | none => rw [h.1 n hTopic, Option.map_none, if_pos rfl]
  | some ps =>
    have hPositive := (h.2 n ps hTopic).1
    rw [Option.map_some, h.count_eq hTopic, if_neg (by omega)]

/-- A crash that loses as little as it can. -/
def Wreck.settled : Wreck := ⟨fun _ d => d.settled, fun _ d => d.survives_settled⟩

/-- The name of the topic a call creates. -/
def BrokerAct.creates : BrokerAct → Option String
  | .create name _ _ _ => some name
  | _ => none

/-- `create_topic` or `delete_topic`. -/
def BrokerAct.OnRegistry : BrokerAct → Prop
  | .create _ _ _ _ => True
  | .delete _ _ _ _ => True
  | _ => False

/-- The calls are made one after the other, and each of them returns `Ok`. -/
def Site.allOk (X : Crates) (root : DirPath) : Site → List BrokerAct → Option Site
  | s, [] => some s
  | s, a :: acts =>
    match s.act X root a with
    | some (.ok _, s') => s'.allOk X root acts
    | _ => none

/-- The step lemma for successful calls, whatever the environment does in them. -/
theorem Stands.act_ok (h : Stands X root s counts) {a : BrokerAct} (hKind : a.OnRegistry)
    (hPlain : ∀ name, a.creates = some name → PlainName name)
    (hAct : s.act X root a = some (.ok (), s')) : ∃ counts', Stands X root s' counts' := by
  cases a with
  | create name config partitions envs =>
    obtain ⟨topics, hUp, hAfter⟩ := Option.bind_eq_some_iff.mp hAct
    rcases hCall : createTopicInner X root name config partitions envs topics s.tree with
      ⟨r, topics', t'⟩
    rw [hCall] at hAfter
    cases r with
    | ok u =>
      cases hAfter
      exact ⟨_, h.created hUp (hPlain name rfl) hCall⟩
    | err e => cases hAfter
    | panic m => cases hAfter
    | crash => cases hAfter
  | delete name inUse envs removal =>
    obtain ⟨topics, hUp, hAfter⟩ := Option.bind_eq_some_iff.mp hAct
    rcases hCall : deleteTopic X root name inUse envs removal topics s.tree with ⟨r, topics', t'⟩
    rw [hCall] at hAfter
    cases r with
    | ok u =>
      cases hAfter
      exact ⟨_, h.deleted hUp hCall⟩
    | err e => cases hAfter
    | panic m => cases hAfter
    | crash => cases hAfter
  | operate => exact hKind.elim
  | shutdown => exact hKind.elim
  | openBroker => exact hKind.elim
  | stop => exact hKind.elim

/-- The run lemma for successful calls. -/
theorem Stands.all_ok (h : Stands X root s counts) {acts : List BrokerAct}
    (hKind : ∀ a ∈ acts, a.OnRegistry)
    (hPlain : ∀ a ∈ acts, ∀ name, a.creates = some name → PlainName name)
    (hRun : s.allOk X root acts = some s') : ∃ counts', Stands X root s' counts' := by
  induction acts generalizing s counts with
  | nil =>
    cases hRun
    exact ⟨counts, h⟩
  | cons a acts ih =>
    rw [Site.allOk] at hRun
    cases hAct : s.act X root a with
    | none =>
      rw [hAct] at hRun
      cases hRun
    | some ended =>
      obtain ⟨r, s₁⟩ := ended
      rw [hAct] at hRun
      cases r with
      | err e => cases hRun
      | panic m => cases hRun
      | crash => cases hRun
      | ok u =>
        obtain ⟨counts₁, h₁⟩ := h.act_ok (hKind a List.mem_cons_self)
          (hPlain a List.mem_cons_self) hAct
        exact ih h₁ (fun b hb => hKind b (List.mem_cons_of_mem _ hb))
          (fun b hb => hPlain b (List.mem_cons_of_mem _ hb)) hRun

/-- A broker opened on a fresh directory serves nothing. -/
theorem Stands.opened_fresh (hFresh : ∀ p, p ≠ [] → root ++ p ∉ t) {config : LogConfig}
    {envs : String → Nat → Env FileName}
    (hOpen : Site.act X root ⟨t, none⟩ (.openBroker config envs) = some (r, s)) :
    Stands X root s fun _ => 0 := by
  have hSame : ∀ p, p ≠ [] → (root ++ p ∈ t.createDirs root.inits ↔ root ++ p ∈ t) := by
    intro p hp
    rw [DirTree.mem_iff, DirTree.mem_iff, lookup_createDirs_inits hp]
  have hNone : (t.createDirs root.inits).children root = [] := by
    rw [List.eq_nil_iff_forall_not_mem]
    intro m hm
    rw [DirTree.mem_children, hSame _ (by simp)] at hm
    exact hFresh _ (by simp) hm
  have hOpened : Site.opened (openWithConfig X root config envs t) = (r, s) :=
    Option.some.inj hOpen
  have hCall : openWithConfig X root config envs t = (.ok (), ∅, t.createDirs root.inits) := by
    unfold openWithConfig
    dsimp only
    rw [hNone]
    rfl
  rw [hCall] at hOpened
  cases hOpened
  have hCat : Stands X root ⟨t.createDirs root.inits, none⟩ fun _ => 0 :=
    Stands.fresh fun p hp hMem => hFresh p hp ((hSame p hp).mp hMem)
  refine Serves.stands ⟨fun _ _ => rfl, ?_⟩ hCat.catalogue
  intro m ps hm
  cases hm

theorem Serves.listTopics_eq {topics' : Registry} (h : Serves X root t topics counts)
    (h' : Serves X root t' topics' counts) : listTopics topics' = listTopics topics := by
  have hPerm : topics'.keys.Perm topics.keys := by
    rw [List.perm_ext_iff_of_nodup topics'.keys_nodup topics.keys_nodup]
    intro m
    rw [← AList.mem_keys, ← AList.mem_keys, h.mem_iff, h'.mem_iff]
  exact List.Perm.eq_of_pairwise' (List.pairwise_insertionSort (· ≤ ·) _)
    (List.pairwise_insertionSort (· ≤ ·) _)
    (((List.perm_insertionSort _ _).trans hPerm).trans (List.perm_insertionSort _ _).symm)

/-- After any sequence of successful calls on a fresh directory, in which every created topic
has a plain name, a restart succeeds and lists the topics of the registry. -/
theorem reopen_lists_created_topics {s₀ : Site} (hFresh : ∀ p, p ≠ [] → root ++ p ∉ t)
    {config : LogConfig} {openEnvs : String → Nat → Env FileName}
    (hOpen : Site.act X root ⟨t, none⟩ (.openBroker config openEnvs) = some (.ok (), s₀))
    {acts : List BrokerAct} (hKind : ∀ a ∈ acts, a.OnRegistry)
    (hPlain : ∀ a ∈ acts, ∀ name, a.creates = some name → PlainName name)
    (hRun : s₀.allOk X root acts = some s) {topics : Registry} (hUp : s.topics = some topics)
    {closing : String → Nat → Env FileName} (hAlive : ∀ n i, (closing n i).Alive)
    (config' : LogConfig) {envs : String → Nat → Env FileName}
    (hQuiet : ∀ n i, (envs n i).Quiet) :
    ∃ found, s.Finds X root closing config' envs found ∧ listTopics found = listTopics topics := by
  obtain ⟨counts, hStands⟩ := (Stands.opened_fresh hFresh hOpen).all_ok hKind hPlain hRun
  obtain ⟨t', found, hReopen, hFound⟩ := hStands.finds hAlive config' hQuiet
  exact ⟨found, ⟨t', hReopen⟩, (hStands.serving topics hUp).listTopics_eq hFound⟩

/-- A broker is opened and calls are made that all succeed. -/
def openAndCall (s : Site) (acts : List BrokerAct) : Option Site := do
  let s ← s.allOk Crates.uncompressed ["data"] [.openBroker .default calm]
  s.allOk Crates.uncompressed ["data"] acts

theorem openAndCall_eq {acts : List BrokerAct} (h : openAndCall s acts = some s') :
    ∃ s₀, s.act Crates.uncompressed ["data"] (.openBroker .default calm) = some (.ok (), s₀) ∧
      s₀.allOk Crates.uncompressed ["data"] acts = some s' := by
  obtain ⟨s₀, hOpen, hCalls⟩ := Option.bind_eq_some_iff.mp h
  refine ⟨s₀, ?_, hCalls⟩
  simp only [Site.allOk] at hOpen
  split at hOpen
  · next u s₁ hAct =>
    cases hOpen
    exact hAct
  · cases hOpen

/-- Two topics are created and one of them is deleted again. -/
theorem reopen_lists_created_topics_orders :
    ∃ (s : Site) (topics found : Registry), s.topics = some topics ∧
      listTopics topics = ["orders"] ∧
      s.Finds Crates.uncompressed ["data"] calm .default calm found ∧
      listTopics found = ["orders"] := by
  have hRun : (openAndCall ⟨∅, none⟩ [.create "orders" .default 2 fun _ => Env.quiet,
      .create "bills" .default 1 fun _ => Env.quiet,
      .delete "bills" false (fun _ => Env.quiet) .done]).map (fun s => s.topics.map listTopics) =
      some (some ["orders"]) := by
    decide +kernel
  obtain ⟨s, hCalls, hTopics⟩ := Option.map_eq_some_iff.mp hRun
  obtain ⟨topics, hUp, hList⟩ := Option.map_eq_some_iff.mp hTopics
  obtain ⟨s₀, hOpen, hAll⟩ := openAndCall_eq hCalls
  have hOrders : PlainName "orders" := by decide +kernel
  have hBills : PlainName "bills" := by decide +kernel
  obtain ⟨found, hFinds, hSame⟩ := reopen_lists_created_topics (t := ∅)
    (fun p _ => AList.notMem_empty _) hOpen (by simp [BrokerAct.OnRegistry])
    (by simp [BrokerAct.creates, hOrders, hBills]) hAll hUp
    (fun n i => (calm_quiet n i).alive) .default calm_quiet
  exact ⟨s, topics, found, hUp, hList, hFinds, hSame.trans hList⟩

/-- The topic `a/b` is created, and the broker cannot be opened again. -/
theorem nested_name_prevents_reopen :
    callAndReopen (.create "a/b" .default 1 fun _ => Env.quiet) =
      some (.ok (), .err (.invalidTopicLayout "a"
        ("no partition subdirectories found (a data directory written by kafko <= 0.2 is not " ++
          "compatible with the partitioned 0.3 layout)")), none) := by
  decide +kernel

end Kafko
