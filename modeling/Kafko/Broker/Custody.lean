import Kafko.Broker.PageLoops

/-!
# The broker keeps the ledger

A data directory is in the custody of its broker if every partition holds its page of a ledger:
in the log of its writer while the broker is running, in its files otherwise. Every call that
makes and removes topics whole keeps the directory in custody of a ledger that has taken the
same step, whatever the environment does in it and wherever the machine stops. So the runs of the
broker are runs of the ledger, and what holds of those holds of the broker's answers.
-/

namespace Kafko

open Disk Systems

/-! ## What a call shows -/

/-- What the writer of a partition answers. -/
def Site.reply (X : Crates) (s : Site) (name : String) (i : Nat) (op : LogOp)
    (env : Env FileName) : Option (Res KafkoError Reply) := do
  let topics ← s.topics
  let topic ← topics.lookup name
  let q ← topic[i]?
  let d ← s.tree.lookup q.dir
  pure (op.exec X env q.log ⟨d, 0⟩).1

/-- The event of a call that ended in `r`. -/
def BrokerAct.Shows (X : Crates) (s : Site) (r : Res KafkoError Unit) : BrokerAct → Event → Prop
  | .create name _ partitions _, e => e = .create name partitions.toNat r
  | .delete name _ _ _, e => e = .delete name r
  | .operate name i op env, e =>
    ∃ answer, s.reply X name i op env = some answer ∧ e = .operate name i op answer
  | .shutdown envs, e =>
    ∃ synced, (synced = true → ∀ n i, (envs n i).Steady) ∧ e = .shutdown synced r
  | .openBroker _ _, e => e = .openBroker r
  | .stop, e => e = .stop

/-- Every partition holds its page of the ledger. -/
structure Custody (X : Crates) (root : DirPath) (s : Site) (A : Ledger) : Prop where
  stands : Stands X root s A.counts
  up : A.up = s.topics.isSome
  writing : ∀ topics, s.topics = some topics → ∀ n ps, topics.lookup n = some ps →
    List.Forall₂ (PlacedLog.Keeps X s.tree) ps (A.topics n)
  resting : s.topics = none → ∀ n, Resting X root s.tree A n

/-- What a call may leave: custody of the ledger, or, if the machine has stopped in the call,
what a stop leaves of it. -/
structure Delivers (X : Crates) (root : DirPath) (r : Res KafkoError Unit) (s : Site)
    (A : Ledger) : Prop where
  lands : Lands X root r s A.counts
  custody : r ≠ .crash → Custody X root s A
  leaves : r = .crash → ∀ n, Leaves X root s.tree A n

variable {X : Crates} {root : DirPath} {t t' : DirTree FileName} {topics : Registry} {n : String}
  {s s' : Site} {A A' : Ledger} {r : Res KafkoError Unit}

theorem Ledger.counts_set (A : Ledger) (n : String) (ps : List Page) :
    (A.set n ps).counts = Function.update A.counts n ps.length := by
  funext m
  by_cases hEq : m = n
  · rw [hEq, Function.update_self, counts, topics_set_self]
  · rw [Function.update_of_ne hEq, counts, topics_set_ne hEq, counts]

theorem Ledger.counts_tear (A : Ledger) : A.tear.counts = A.counts := by
  funext m
  exact List.length_map _

theorem Ledger.topics_nil (h : A.counts n = 0) : A.topics n = [] := List.eq_nil_of_length_eq_zero h

namespace Custody

theorem delivers (h : Custody X root s A) (hRuns : r ≠ .crash) : Delivers X root r s A :=
  ⟨h.stands.lands hRuns, fun _ => h, fun hCrash => absurd hCrash hRuns⟩

/-- Nothing happens to the pages of a topic that lies there untouched. -/
theorem leaves (h : Custody X root s A) (n : String) : Leaves X root s.tree A n := by
  cases hUp : s.topics with
  | none => exact (h.resting hUp n).leaves
  | some topics =>
    have hServing := h.stands.serving topics hUp
    cases hTopic : topics.lookup n with
    | none =>
      intro i p hp
      rw [Ledger.topics_nil (hServing.1 n hTopic)] at hp
      cases hp
    | some ps =>
      exact ((hServing.2 n ps hTopic).2.resting (h.writing topics hUp n ps hTopic)).leaves

/-- A call that ends without having changed anything that matters. -/
theorem unchanged (h : Custody X root s A) (hUp : s.topics = some topics) {topics' : Registry}
    (hLookup : ∀ m, topics'.lookup m = topics.lookup m)
    (hStands : Stands X root ⟨t', some topics'⟩ A.counts) (hSame : ∀ m, SameTopic root m s.tree t') :
    Custody X root ⟨t', some topics'⟩ A := by
  refine ⟨hStands, ?_, ?_, fun hDown => by cases hDown⟩
  · rw [h.up, hUp]
    rfl
  · intro topics'' hEq m ps hm
    cases hEq
    rw [hLookup] at hm
    exact ((h.stands.serving topics hUp).2 m ps hm).2.keeps_congr (hSame m)
      (h.writing topics hUp m ps hm)

end Custody

/-- A stop in a call tears the pages. -/
theorem Delivers.step {a : BrokerAct} {wreck : Wreck} {r' : Res KafkoError Unit} {s₁ : Site}
    (hAct : s.act X root a = some (r, s₁)) (h : Delivers X root r s₁ A)
    (hStep : s.step X root a wreck = some (r', s')) :
    r' = r ∧ (r ≠ .crash → Custody X root s' A) ∧ (r = .crash → Custody X root s' A.tear) := by
  obtain ⟨hSame, hStands⟩ := h.lands.step hAct hStep
  unfold Site.step at hStep
  rw [hAct] at hStep
  refine ⟨hSame, ?_, ?_⟩
  · intro hRuns
    cases r with
    | crash => exact absurd rfl hRuns
    | ok u =>
      cases hStep
      exact h.custody hRuns
    | err e =>
      cases hStep
      exact h.custody hRuns
    | panic m =>
      cases hStep
      exact h.custody hRuns
  · rintro rfl
    cases hStep
    have hDown := h.lands.down rfl
    refine ⟨?_, ?_, ?_, ?_⟩
    · rw [A.counts_tear]
      exact hStands
    · change false = s₁.topics.isSome
      rw [hDown]
      rfl
    · intro topics hUp
      have hUp : s₁.topics = some topics := hUp
      rw [hDown] at hUp
      cases hUp
    · intro _ m i p hp d hd
      rw [Ledger.topics_tear] at hp
      obtain ⟨q, hq, rfl⟩ := Option.map_eq_some_iff.mp hp
      rw [DirTree.lookup_mapFiles] at hd
      obtain ⟨d₀, hd₀, rfl⟩ := Option.map_eq_some_iff.mp hd
      exact ((h.leaves rfl m i q hq d₀ hd₀).crash (wreck.survives _ d₀)).torn

/-! ## Operations -/

/-- One writer of a topic has performed an operation. -/
theorem keeps_set {ps : List PlacedLog} {pages : List Page} {i : Nat} {q q' : PlacedLog} {p' : Page}
    (h : List.Forall₂ (PlacedLog.Keeps X t) ps pages) (hNodup : (ps.map PlacedLog.dir).Nodup)
    (hq : ps[i]? = some q) (hKeeps : q'.Keeps X t' p')
    (hOthers : ∀ dir, dir ≠ q.dir → t'.lookup dir = t.lookup dir) :
    List.Forall₂ (PlacedLog.Keeps X t') (ps.set i q') (pages.set i p') := by
  induction ps generalizing i pages with
  | nil => cases hq
  | cons q₀ ps ih =>
    obtain ⟨p₀, pages, hHead, hTail, rfl⟩ := List.forall₂_cons_left_iff.mp h
    obtain ⟨hNew, hNodup⟩ := List.nodup_cons.mp hNodup
    cases i with
    | zero =>
      obtain rfl : q₀ = q := by simpa using hq
      refine .cons hKeeps (keeps_congr hTail ?_)
      intro q₁ hq₁
      apply hOthers
      intro hEq
      exact hNew (hEq ▸ List.mem_map_of_mem hq₁)
    | succ i =>
      have hq : ps[i]? = some q := by simpa using hq
      refine .cons ?_ (ih hTail hNodup hq)
      obtain ⟨d, hd, hStored⟩ := hHead
      refine ⟨d, ?_, hStored⟩
      rw [hOthers, hd]
      intro hEq
      exact hNew (hEq ▸ List.mem_map_of_mem (List.mem_of_getElem? hq))

theorem Custody.operate (hX : X.Lawful) (h : Custody X root s A) (hUp : s.topics = some topics)
    {ps : List PlacedLog} (hTopic : topics.lookup n = some ps) {i : Nat} {q q' : PlacedLog}
    (hq : ps[i]? = some q) {op : LogOp} {env : Env FileName} (hClean : Clean env)
    (hOp : op.Admissible X q.log) {stopped : Bool}
    (hRun : q.operate X op env s.tree = (stopped, q', t')) :
    ∃ answer A', s.reply X n i op env = some answer ∧ A.Act (.operate n i op answer) A' ∧
      (stopped = true → answer = .crash ∧ Delivers X root .crash ⟨t', none⟩ A') ∧
      (stopped = false → answer ≠ .crash ∧
        Delivers X root (.ok ()) ⟨t', some (topics.insert n (ps.set i q'))⟩ A') := by
  have hServing := h.stands.serving topics hUp
  obtain ⟨hPositive, hManned⟩ := hServing.2 n ps hTopic
  have hWriting := h.writing topics hUp n ps hTopic
  have hDir := hManned.getElem hq
  obtain ⟨hi, hGet⟩ := List.getElem?_eq_some_iff.mp hq
  have hi' : i < (A.topics n).length := by
    rw [← hWriting.length_eq]
    exact hi
  obtain ⟨p, hp⟩ : ∃ p, (A.topics n)[i]? = some p := ⟨_, List.getElem?_eq_getElem hi'⟩
  obtain ⟨d, hd, hStored⟩ : q.Keeps X s.tree p := by
    have hAt := (List.forall₂_iff_get.mp hWriting).2 i hi hi'
    rw [List.get_eq_getElem, List.get_eq_getElem, hGet] at hAt
    rwa [(List.getElem?_eq_some_iff.mp hp).2] at hAt
  obtain ⟨hStops, hRuns⟩ := h.stands.operate_lands hX hUp hTopic hq hClean hOp hRun
  have hFrame := fun (dir : DirPath) => q.operate_lookup (X := X) op env s.tree (q := dir)
  have hMem := q.mem_operate (X := X) op env s.tree
  rw [hRun] at hFrame hMem
  obtain ⟨answer, w, hExec, hDir', hStopped, hFiles⟩ := PlacedLog.operate_run hd hRun
  have hSpec := Page.Stored.exec hX hClean (w := ⟨d, 0⟩) hStored hOp
  rw [wp, hExec] at hSpec
  have hReply : s.reply X n i op env = some answer := by
    have hResult : (op.exec X env q.log ⟨d, 0⟩).1 = answer := congrArg Prod.fst hExec
    simp [Site.reply, hUp, hTopic, hq, hd, hResult]
  have hCounts : ∀ p' : Page, (A.set n ((A.topics n).set i p')).counts = A.counts := by
    intro p'
    rw [Ledger.counts_set, List.length_set]
    exact Function.update_eq_self n A.counts
  have hSame : ∀ m, m ≠ n → SameTopic root m s.tree t' := by
    intro m hm
    refine ⟨hMem _, fun c => hFrame _ ?_⟩
    rw [hDir]
    intro hEq
    have hBoth : m = n ∧ c = toString i := by simpa using hEq
    exact hm hBoth.1
  have hUpLedger : A.up = true := by
    rw [h.up, hUp]
    rfl
  -- a writer that answers goes on with the page its answer has left
  have hAnswers : ∀ p' : Page, answer ≠ .crash → p.Answers op answer p' →
      p'.Stored X (some q'.log) w.store →
      ∃ answer A', s.reply X n i op env = some answer ∧ A.Act (.operate n i op answer) A' ∧
        (stopped = true → answer = .crash ∧ Delivers X root .crash ⟨t', none⟩ A') ∧
        (stopped = false → answer ≠ .crash ∧
          Delivers X root (.ok ()) ⟨t', some (topics.insert n (ps.set i q'))⟩ A') := by
    intro p' hNot hAnswer hStored'
    refine ⟨answer, _, hReply, .operated hUpLedger hp hAnswer, ?_, ?_⟩
    · intro hTrue
      rw [hStopped] at hTrue
      exact absurd (of_decide_eq_true hTrue) hNot
    · intro hFalse
      have hLands := hRuns hFalse
      rw [← hCounts p'] at hLands
      refine ⟨hNot, Custody.delivers ⟨hLands.stands (by simp), hUpLedger, ?_, ?_⟩ (by simp)⟩
      · intro topics' hEq m qs hm
        cases hEq
        by_cases hNe : m = n
        · subst hNe
          rw [AList.lookup_insert] at hm
          cases hm
          rw [Ledger.topics_set_self]
          refine keeps_set hWriting (hManned.nodup List.nodup_range) hq ⟨w.store, ?_, hStored'⟩ hFrame
          rw [hDir', hFiles]
        · rw [AList.lookup_insert_ne hNe] at hm
          rw [Ledger.topics_set_ne hNe]
          exact (hServing.2 m qs hm).2.keeps_congr (hSame m hNe) (h.writing topics hUp m qs hm)
      · intro hDown
        cases hDown
  cases answer with
  | panic m => exact hSpec.elim
  | ok reply =>
    obtain ⟨p', hAnswer, hStored'⟩ := hSpec
    exact hAnswers p' (by simp) hAnswer hStored'
  | err e =>
    obtain ⟨p', hAnswer, hStored'⟩ := hSpec
    exact hAnswers p' (by simp) hAnswer hStored'
  | crash =>
    obtain ⟨p', hAnswer, hLeft⟩ := hSpec
    refine ⟨.crash, _, hReply, .operated hUpLedger hp hAnswer, ?_, ?_⟩
    · intro hTrue
      have hLands := hStops hTrue
      rw [← hCounts p'] at hLands
      refine ⟨rfl, hLands, fun hNot => absurd rfl hNot, ?_⟩
      intro _ m
      by_cases hNe : m = n
      · subst hNe
        intro j p₁ hp₁ d₁ hd₁
        rw [Ledger.topics_set_self] at hp₁
        by_cases hAt : i = j
        · subst hAt
          rw [List.getElem?_set_self hi'] at hp₁
          cases hp₁
          rw [← hDir, hFiles] at hd₁
          cases hd₁
          exact hLeft
        · rw [List.getElem?_set_ne hAt] at hp₁
          rw [hFrame] at hd₁
          · exact h.leaves m j p₁ hp₁ d₁ hd₁
          · rw [hDir]
            intro hEq
            have hStr : toString j = toString i := by simpa using hEq
            exact hAt (toString_injective hStr).symm
      · intro j p₁ hp₁ d₁ hd₁
        rw [Ledger.topics_set_ne hNe] at hp₁
        exact (h.leaves m).congr (hSame m hNe) j p₁ hp₁ d₁ hd₁
    · intro hFalse
      simp [hStopped] at hFalse

/-! ## Creating a topic -/

/-- The partitions of a new topic hold blank pages. -/
theorem Topic.create_pages {config : LogConfig} {envs : Nat → Env FileName} {count : UInt32}
    {r : Res KafkoError (List PlacedLog)} {counts : String → Nat} (hCat : Catalogue root t counts)
    (hPlain : PlainName n) (hNew : counts n = 0) (hPositive : 0 < count.toNat)
    (hRun : Topic.create X config envs root n count t = (r, t')) :
    (∀ ps, r = .ok ps → List.Forall₂ (PlacedLog.Keeps X t') ps
        (List.replicate count.toNat Page.blank)) ∧
      ((∀ e, r ≠ .err e) → ∀ i < count.toNat, ∀ d,
        t'.lookup (root ++ [n] ++ [toString i]) = some d → Page.blank.Left X d) := by
  have hNe : count ≠ 0 := by
    rintro rfl
    exact Nat.lt_irrefl 0 hPositive
  rw [Topic.create, if_neg hNe, hPlain.join] at hRun
  have hFresh : ∀ i : Nat, Fresh (t.filesAt (root ++ [n] ++ [toString i])) := fun i =>
    hCat.fresh hNew (toString i)
  obtain ⟨hWriters, hLeft⟩ := openPartitions_pages (fun _ => Page.blank) List.nodup_range
    (fun i _ => Or.inl (hFresh i)) (fun i _ => Page.opens_blank (hFresh i) config) hRun
  refine ⟨?_, fun hNot i hi => hLeft hNot i (List.mem_range.mpr hi)⟩
  intro ps hps
  obtain ⟨pages, hReopens, hKeeps⟩ := hWriters ps hps
  have hBlank : pages = List.replicate count.toNat Page.blank := by
    rw [List.eq_replicate_iff]
    constructor
    · rw [← hReopens.length_eq, List.length_range]
    · intro p hp
      obtain ⟨i, hi, hGet⟩ := List.getElem_of_mem hp
      have hi' : i < (List.range count.toNat).length := by
        rw [hReopens.length_eq]
        exact hi
      have hAt := (List.forall₂_iff_get.mp hReopens).2 i hi' hi
      simp only [List.get_eq_getElem, hGet] at hAt
      cases hAt with
      | whole _ => rfl
      | cut hTorn _ _ => cases hTorn
  rwa [hBlank] at hKeeps

theorem Custody.create {config : LogConfig} {partitions : UInt32} {envs : Nat → Env FileName}
    (h : Custody X root s A) (hUp : s.topics = some topics)
    (hCare : partitions = 0 ∨ n ∈ topics ∨
      PlainName n ∧ (MakesNothing root (envs 0) ∨ MakesAll envs partitions.toNat))
    (hRun : Site.after (createTopicInner X root n config partitions envs topics s.tree) = (r, s')) :
    ∃ A', A.Act (.create n partitions.toNat r) A' ∧ Delivers X root r s' A' := by
  have hServing := h.stands.serving topics hUp
  have hUpLedger : A.up = true := by
    rw [h.up, hUp]
    rfl
  have hSite : s = ⟨s.tree, some topics⟩ := by
    cases s
    cases hUp
    rfl
  have hKeep : ∀ e, Delivers X root (.err e) ⟨s.tree, some topics⟩ A := by
    intro e
    rw [← hSite]
    exact h.delivers (by simp)
  rcases hCall : createTopicInner X root n config partitions envs topics s.tree with
    ⟨r₀, topics', t'⟩
  rw [hCall] at hRun
  have hUnfold := hCall
  unfold createTopicInner at hUnfold
  by_cases hZero : partitions = 0
  · rw [if_pos hZero] at hUnfold
    cases hUnfold
    cases hRun
    refine ⟨A, ?_, hKeep _⟩
    rw [hZero]
    exact .notCreated hUpLedger .empty
  rw [if_neg hZero] at hUnfold
  have hPositive : 0 < partitions.toNat := by
    apply Nat.pos_of_ne_zero
    intro hNat
    exact hZero (UInt32.toNat_inj.mp hNat)
  by_cases hMem : n ∈ topics
  · rw [if_pos hMem] at hUnfold
    cases hUnfold
    cases hRun
    refine ⟨A, .notCreated hUpLedger (.taken hPositive ?_), hKeep _⟩
    intro hNil
    have hCount : 0 < A.counts n := hServing.mem_iff.mp hMem
    rw [Ledger.counts, hNil] at hCount
    exact Nat.lt_irrefl 0 hCount
  rw [if_neg hMem] at hUnfold
  obtain ⟨hPlain, hMakes⟩ := (hCare.resolve_left hZero).resolve_left hMem
  have hNew : A.counts n = 0 := hServing.1 n (AList.lookup_eq_none.mpr hMem)
  have hNone : A.topics n = [] := Ledger.topics_nil hNew
  rcases hCreate : Topic.create X config envs root n partitions s.tree with ⟨r₁, t₁⟩
  rw [hCreate] at hUnfold
  obtain ⟨hExtends, hEnd⟩ := Topic.create_spec h.stands.catalogue hPlain hNew hPositive hCreate
  obtain ⟨hWriters, hLeft⟩ := Topic.create_pages h.stands.catalogue hPlain hNew hPositive hCreate
  have hOthers : ∀ m, m ≠ n → SameTopic root m s.tree t₁ := fun m hm =>
    hExtends.sameTopic (leadsTo_wayTo root hPlain) hm
  have hRefused : MakesNothing root (envs 0) →
      ((∃ e, r₁ = .err e) ∨ r₁ = .crash) ∧
        ∀ p, p ≠ [] → t₁.lookup (root ++ p) = s.tree.lookup (root ++ p) := fun hNothing =>
    Topic.create_refused hPlain hPositive hNothing hCreate
  have hSame : MakesNothing root (envs 0) → ∀ m, SameTopic root m s.tree t₁ := by
    intro hNothing m
    obtain ⟨-, hTree⟩ := hRefused hNothing
    constructor
    · rw [DirTree.mem_iff, DirTree.mem_iff, hTree _ (by simp)]
    · intro c
      rw [List.append_assoc]
      exact hTree _ (by simp)
  cases r₁ with
  | panic m => exact hEnd.elim
  | ok ps =>
    dsimp only at hUnfold
    rw [if_neg hMem] at hUnfold
    cases hUnfold
    cases hRun
    have hStands := h.stands.created hUp hPlain hCall
    refine ⟨A.set n (List.replicate partitions.toNat Page.blank),
      .created hUpLedger hPositive hNone (Or.inl rfl), Custody.delivers ⟨?_, hUpLedger, ?_, ?_⟩
        (by simp)⟩
    · rw [Ledger.counts_set, List.length_replicate]
      exact hStands
    · intro topics'' hEq m qs hm
      cases hEq
      by_cases hNe : m = n
      · subst hNe
        rw [AList.lookup_insert] at hm
        cases hm
        rw [Ledger.topics_set_self]
        exact hWriters ps rfl
      · rw [AList.lookup_insert_ne hNe] at hm
        rw [Ledger.topics_set_ne hNe]
        exact (hServing.2 m qs hm).2.keeps_congr (hOthers m hNe) (h.writing topics hUp m qs hm)
    · intro hDown
      cases hDown
  | err e =>
    cases hUnfold
    cases hRun
    rcases hMakes with hNothing | hAll
    · refine ⟨A, .notCreated hUpLedger (.failed hPositive hNone), Custody.delivers ?_ (by simp)⟩
      exact h.unchanged hUp (fun _ => rfl) (h.stands.unchanged hUp (hRefused hNothing).2)
        (hSame hNothing)
    · obtain ⟨i, hi, hNot⟩ := hEnd
      exact absurd (hAll.steady (List.mem_range.mp hi)) hNot
  | crash =>
    cases hUnfold
    cases hRun
    rcases hMakes with hNothing | hAll
    · have hStands := h.stands.unchanged hUp (hRefused hNothing).2
      refine ⟨A, .cutShort rfl, lands_of_crash hStands.catalogue hStands.intact,
        fun hNot => absurd rfl hNot, ?_⟩
      exact fun _ m => (h.leaves m).congr (hSame hNothing m)
    · obtain ⟨hCat, hIntact⟩ := Topic.create_crashed h.stands.catalogue h.stands.intact hPlain hNew
        hPositive hAll hCreate
      refine ⟨A.set n (List.replicate partitions.toNat Page.blank),
        .created hUpLedger hPositive hNone (Or.inr rfl), ?_, fun hNot => absurd rfl hNot, ?_⟩
      · rw [Ledger.counts_set, List.length_replicate]
        exact lands_of_crash hCat hIntact
      · intro _ m
        by_cases hNe : m = n
        · subst hNe
          intro i p hp d hd
          rw [Ledger.topics_set_self, List.getElem?_replicate] at hp
          split at hp
          · next hi =>
            cases hp
            exact hLeft (by simp) i hi d hd
          · cases hp
        · intro i p hp
          rw [Ledger.topics_set_ne hNe] at hp
          exact (h.leaves m).congr (hOthers m hNe) i p hp

/-! ## Deleting a topic -/

theorem Custody.delete {inUse : Bool} {envs : Nat → Env FileName} {removal : Removal}
    (h : Custody X root s A) (hUp : s.topics = some topics) (hWhole : removal.Whole)
    (hRun : Site.after (deleteTopic X root n inUse envs removal topics s.tree) = (r, s')) :
    ∃ A', A.Act (.delete n r) A' ∧ Delivers X root r s' A' := by
  have hServing := h.stands.serving topics hUp
  have hUpLedger : A.up = true := by
    rw [h.up, hUp]
    rfl
  have hKnown : ∀ ps, topics.lookup n = some ps → A.topics n ≠ [] := by
    intro ps hTopic hNil
    have hCount := (hServing.2 n ps hTopic).1
    rw [Ledger.counts, hNil] at hCount
    exact Nat.lt_irrefl 0 hCount
  rcases hCall : deleteTopic X root n inUse envs removal topics s.tree with ⟨r₀, topics', t'⟩
  rw [hCall] at hRun
  have hDeleted := hCall
  generalize hResult : ((r₀, topics', t') : Called) = c at hDeleted
  cases deleteTopic_cases hDeleted with
  | unknown hNone =>
    cases hResult
    cases hRun
    refine ⟨A, .notDeleted hUpLedger (.unknown (Ledger.topics_nil (hServing.1 n hNone))),
      Custody.delivers ?_ (by simp)⟩
    exact h.unchanged hUp (fun _ => rfl) (hServing.stands h.stands.catalogue)
      fun m => ⟨Iff.rfl, fun _ => rfl⟩
  | @held ps hTopic _ =>
    cases hResult
    cases hRun
    have hLookup : ∀ m, ((topics.erase n).insert n ps).lookup m = topics.lookup m := by
      intro m
      by_cases hEq : m = n
      · rw [hEq, AList.lookup_insert, hTopic]
      · rw [AList.lookup_insert_ne hEq, AList.lookup_erase_ne hEq]
    refine ⟨A, .notDeleted hUpLedger (.held (hKnown ps hTopic)), Custody.delivers ?_ (by simp)⟩
    exact h.unchanged hUp hLookup
      ((hServing.congr_registry hLookup).stands h.stands.catalogue) fun m => ⟨Iff.rfl, fun _ => rfl⟩
  | @stopped ps t₁ hTopic _ hShut =>
    cases hResult
    cases hRun
    obtain ⟨-, hMem, -, hIntact⟩ := hServing.shutdown_topic hTopic hShut
    have hManned := (hServing.2 n ps hTopic).2
    obtain ⟨-, hLefts⟩ := Topic.shutdown_pages (fun hFalse : False => hFalse.elim)
      (hManned.nodup List.nodup_range) (h.writing topics hUp n ps hTopic) hShut
    have hCat : Catalogue root t' A.counts :=
      h.stands.catalogue.congr (fun _ => hMem _) (fun _ _ => hMem _)
    refine ⟨A, .cutShort rfl, lands_of_crash hCat hIntact, fun hNot => absurd rfl hNot, ?_⟩
    intro _ m
    by_cases hEq : m = n
    · subst hEq
      exact hManned.leaves hLefts
    · exact (h.leaves m).congr (Topic.shutdown_sameTopic hManned hShut hEq)
  | @missing ps t₁ hTopic _ hShut hDir =>
    obtain ⟨-, hMem, -, -⟩ := hServing.shutdown_topic hTopic hShut
    have hPositive := (hServing.2 n ps hTopic).1
    rw [(h.stands.catalogue.plain n hPositive).join, hMem, h.stands.catalogue.topics] at hDir
    exact absurd hPositive hDir
  | @removed ps t₁ hTopic _ hShut _ =>
    have hPlain := h.stands.catalogue.plain n (hServing.2 n ps hTopic).1
    have hManned := (hServing.2 n ps hTopic).2
    obtain ⟨-, hMem, -, hIntact⟩ := hServing.shutdown_topic hTopic hShut
    cases removal with
    | fails kind left => exact hWhole.elim
    | done =>
      cases hResult
      cases hRun
      have hStands := h.stands.deleted hUp hCall
      have hRuns : Removal.done.result ≠ .crash := by
        intro hNot
        cases hNot
      refine ⟨A.set n [], .deleted hUpLedger (hKnown ps hTopic), Custody.delivers
        ⟨?_, hUpLedger, ?_, ?_⟩ hRuns⟩
      · rw [Ledger.counts_set]
        exact hStands
      · intro topics'' hEq m qs hm
        cases hEq
        by_cases hNe : m = n
        · rw [hNe, AList.lookup_erase] at hm
          cases hm
        · rw [AList.lookup_erase_ne hNe] at hm
          rw [Ledger.topics_set_ne hNe, hPlain.join]
          have hSame : SameTopic root m s.tree (t₁.removeDirAll (root ++ [n]) Removal.done.left) :=
            (Topic.shutdown_sameTopic hManned hShut hNe).trans (sameTopic_removeDirAll hNe)
          exact (hServing.2 m qs hm).2.keeps_congr hSame (h.writing topics hUp m qs hm)
      · intro hDown
        cases hDown
    | stops left =>
      cases hResult
      cases hRun
      obtain ⟨-, hLefts⟩ := Topic.shutdown_pages (fun hFalse : False => hFalse.elim)
        (hManned.nodup List.nodup_range) (h.writing topics hUp n ps hTopic) hShut
      -- nothing was removed
      have hSame : ∀ q, (t₁.removeDirAll (root.join n) left).lookup q = t₁.lookup q := by
        intro q
        rw [DirTree.lookup_removeDirAll, if_pos (Or.inl (hWhole q))]
      have hMem' : ∀ q, q ∈ t₁.removeDirAll (root.join n) left ↔ q ∈ s.tree := by
        intro q
        rw [DirTree.mem_iff, hSame, ← DirTree.mem_iff]
        exact hMem q
      have hKept : ∀ m, SameTopic root m t₁ (t₁.removeDirAll (root.join n) left) := fun m =>
        ⟨(hMem' _).trans (hMem _).symm, fun c => hSame _⟩
      have hCat := h.stands.catalogue.congr (fun _ => hMem' _) (fun _ _ => hMem' _)
      refine ⟨A, .cutShort rfl, lands_of_crash hCat ?_, fun hNot => absurd rfl hNot, ?_⟩
      · intro m i hi d hd
        exact hIntact m i hi d ((hSame _).symm.trans hd)
      · intro _ m
        by_cases hEq : m = n
        · subst hEq
          exact (hManned.leaves hLefts).congr (hKept m)
        · exact (h.leaves m).congr ((Topic.shutdown_sameTopic hManned hShut hEq).trans (hKept m))

/-! ## Closing and opening the broker -/

theorem Custody.shutdown {envs : String → Nat → Env FileName} (h : Custody X root s A)
    (hUp : s.topics = some topics) {synced : Bool}
    (hSynced : synced = true → ∀ n i, (envs n i).Steady)
    (hRun : Site.ended (shutdownTopics X envs topics topics.keys s.tree) = (r, s')) :
    ∃ A', A.Act (.shutdown synced r) A' ∧ Delivers X root r s' A' := by
  have hServing := h.stands.serving topics hUp
  obtain ⟨hLands, -, -⟩ := h.stands.shutdown_lands hUp hRun
  rcases hShut : shutdownTopics X envs topics topics.keys s.tree with ⟨stopped, t'⟩
  rw [hShut] at hRun
  obtain ⟨hFrame, hClosed, hLeaves⟩ := hServing.shutdown_pages hSynced topics.keys_nodup
    (fun n _ ps hTopic => h.writing topics hUp n ps hTopic) hShut
  obtain ⟨-, hMem, hServing', -⟩ := hServing.shutdown_topics hShut
  have hUpLedger : A.up = true := by
    rw [h.up, hUp]
    rfl
  have hAbsent : ∀ n, topics.lookup n = none → A.topics n = [] := fun n hNone =>
    Ledger.topics_nil (hServing.1 n hNone)
  cases stopped with
  | true =>
    cases hRun
    refine ⟨A, .cutShort rfl, hLands, fun hNot => absurd rfl hNot, ?_⟩
    intro _ n
    by_cases hTopic : n ∈ topics
    · exact hLeaves n (AList.mem_keys.mp hTopic) hTopic
    · intro i p hp
      rw [hAbsent n (AList.lookup_eq_none.mpr hTopic)] at hp
      cases hp
  | false =>
    cases hRun
    -- the pages after the syncs
    have hPages : ∀ n, ∃ pages, List.Forall₂ (Page.Closes (synced = true)) (A.topics n) pages ∧
        ∀ ps, topics.lookup n = some ps → List.Forall₂ (PlacedLog.Keeps X t') ps pages := by
      intro n
      cases hTopic : topics.lookup n with
      | none =>
        refine ⟨[], ?_, fun ps hps => by cases hps⟩
        rw [hAbsent n hTopic]
        exact .nil
      | some ps =>
        have hMemTopics : n ∈ topics := AList.lookup_isSome.mp (by rw [hTopic]; rfl)
        obtain ⟨pages, hCloses, hKeeps⟩ :=
          hClosed rfl n (AList.mem_keys.mp hMemTopics) ps hTopic
        refine ⟨pages, hCloses, ?_⟩
        intro ps' hps'
        cases hps'
        exact hKeeps
    choose pages hCloses hKeeps using hPages
    have hCounts : (⟨pages, false⟩ : Ledger).counts = A.counts := by
      funext n
      exact (hCloses n).length_eq.symm
    refine ⟨⟨pages, false⟩, .closed hUpLedger hCloses, Custody.delivers ?_ (by simp)⟩
    refine ⟨?_, rfl, ?_, ?_⟩
    · rw [hCounts]
      exact hLands.stands (by simp)
    · intro topics' hEq
      cases hEq
    · intro _ n
      cases hTopic : topics.lookup n with
      | none =>
        intro i p hp
        have hNil : pages n = [] := by
          have hLength := (hCloses n).length_eq
          rw [hAbsent n hTopic] at hLength
          exact List.eq_nil_of_length_eq_zero hLength.symm
        change (pages n)[i]? = some p at hp
        rw [hNil] at hp
        cases hp
      | some ps => exact ((hServing' rfl).2 n ps hTopic).2.resting (hKeeps n ps hTopic)

theorem Custody.openBroker {config : LogConfig} {envs : String → Nat → Env FileName}
    (h : Custody X root s A) (hDown : s.topics = none) (hEnvs : ∀ n i, Faultless (envs n i))
    (hRun : Site.opened (openWithConfig X root config envs s.tree) = (r, s')) :
    ∃ A', A.Act (.openBroker r) A' ∧ Delivers X root r s' A' := by
  obtain ⟨hLands, hEnds⟩ := h.stands.open_lands hEnvs hRun
  have hDownLedger : A.up = false := by
    rw [h.up, hDown]
    rfl
  have hSame : ∀ m, SameTopic root m s.tree (s.tree.createDirs root.inits) := by
    intro m
    constructor
    · rw [DirTree.mem_iff, DirTree.mem_iff, lookup_createDirs_inits (by simp)]
    · intro c
      rw [List.append_assoc]
      exact lookup_createDirs_inits (by simp)
  have hCat : Catalogue root (s.tree.createDirs root.inits) A.counts :=
    h.stands.catalogue.congr (fun m => (hSame m).1) fun m c => (hSame m).lookup_mem c
  have hIntact : FilesIntact X root (s.tree.createDirs root.inits) A.counts := by
    intro m i hi d hd
    rw [(hSame m).2] at hd
    exact h.stands.intact m i hi d hd
  have hRested : FilesRested root (s.tree.createDirs root.inits) A.counts := by
    intro m i hi d hd
    rw [(hSame m).2] at hd
    exact h.stands.rested m i hi d hd
  have hChildren : ∀ m, m ∈ (s.tree.createDirs root.inits).children root ↔ 0 < A.counts m := by
    intro m
    rw [DirTree.mem_children, hCat.topics]
  unfold openWithConfig at hRun
  dsimp only at hRun
  rcases hTopics : openTopics X config envs root ((s.tree.createDirs root.inits).children root) ∅
    (s.tree.createDirs root.inits) with ⟨r₀, topics, t'⟩
  rw [hTopics] at hRun
  obtain ⟨hFrame, hOk, hLeaves⟩ := openTopics_pages hEnvs (DirTree.nodup_children _ _)
    (fun m hm => (hChildren m).mp hm) hCat hIntact hRested
    (fun m _ => (h.resting hDown m).congr (hSame m)) hTopics
  have hNone : ∀ m, m ∉ (s.tree.createDirs root.inits).children root → A.topics m = [] := by
    intro m hm
    rw [hChildren] at hm
    exact Ledger.topics_nil (by omega)
  rcases hEnds with ⟨rfl, topics', hUp⟩ | ⟨rfl, -⟩
  · have hResult : r₀ = .ok () ∧ s' = ⟨t', some topics⟩ := by
      cases r₀ <;> cases hRun
      exact ⟨rfl, rfl⟩
    obtain ⟨rfl, rfl⟩ := hResult
    have hPages : ∀ n, ∃ pages, List.Forall₂ Page.Reopens (A.topics n) pages ∧
        ∀ ps, topics.lookup n = some ps → List.Forall₂ (PlacedLog.Keeps X t') ps pages := by
      intro n
      by_cases hMem : n ∈ (s.tree.createDirs root.inits).children root
      · obtain ⟨ps, pages, hTopic, hReopens, hKeeps⟩ := hOk rfl n hMem
        refine ⟨pages, hReopens, ?_⟩
        intro ps' hps'
        rw [hTopic] at hps'
        cases hps'
        exact hKeeps
      · refine ⟨[], ?_, ?_⟩
        · rw [hNone n hMem]
          exact .nil
        · intro ps hps
          rw [(hFrame n hMem).2] at hps
          cases hps
    choose pages hReopens hKeeps using hPages
    have hCounts : (⟨pages, true⟩ : Ledger).counts = A.counts := by
      funext n
      exact (hReopens n).length_eq.symm
    refine ⟨⟨pages, true⟩, .opened hDownLedger hReopens, Custody.delivers ?_ (by simp)⟩
    refine ⟨?_, rfl, ?_, fun hNot => by cases hNot⟩
    · rw [hCounts]
      exact hLands.stands (by simp)
    · intro topics'' hEq n ps hTopic
      cases hEq
      exact hKeeps n ps hTopic
  · have hResult : r₀ = .crash ∧ s' = ⟨t', none⟩ := by
      cases r₀ <;> cases hRun
      exact ⟨rfl, rfl⟩
    obtain ⟨rfl, rfl⟩ := hResult
    refine ⟨A, .cutShort rfl, hLands, fun hNot => absurd rfl hNot, ?_⟩
    intro _ n
    by_cases hMem : n ∈ (s.tree.createDirs root.inits).children root
    · exact hLeaves (by simp) n hMem
    · intro i p hp
      rw [hNone n hMem] at hp
      cases hp

/-! ## The refinement -/

/-- The step lemma: the ledger follows every call. -/
theorem Custody.act (hX : X.Lawful) (h : Custody X root s A) {a : BrokerAct}
    (hWhole : a.Whole X root s) (hAct : s.act X root a = some (r, s')) {e : Event}
    (hShows : a.Shows X s r e) :
    ∃ A', A.Act e A' ∧ Delivers X root r s' A' ∧ (e.Stops ↔ r = .crash) := by
  cases a with
  | create name config partitions envs =>
    obtain ⟨topics, hUp, hAfter⟩ := Option.bind_eq_some_iff.mp hAct
    obtain rfl : e = _ := hShows
    obtain ⟨A', hStep, hDelivers⟩ := h.create hUp (hWhole.create hUp) (Option.some.inj hAfter)
    exact ⟨A', hStep, hDelivers, Iff.rfl⟩
  | delete name inUse envs removal =>
    obtain ⟨topics, hUp, hAfter⟩ := Option.bind_eq_some_iff.mp hAct
    obtain rfl : e = _ := hShows
    obtain ⟨A', hStep, hDelivers⟩ := h.delete hUp hWhole (Option.some.inj hAfter)
    exact ⟨A', hStep, hDelivers, Iff.rfl⟩
  | operate name i op env =>
    obtain ⟨topics, hUp, hRest⟩ := Option.bind_eq_some_iff.mp hAct
    obtain ⟨ps, hTopic, hRest⟩ := Option.bind_eq_some_iff.mp hRest
    obtain ⟨q, hq, hRest⟩ := Option.bind_eq_some_iff.mp hRest
    obtain ⟨hClean, hOp⟩ := hWhole
    obtain ⟨answer, hReply, rfl⟩ := hShows
    rcases hRun : q.operate X op env s.tree with ⟨stopped, q', t'⟩
    rw [hRun] at hRest
    obtain ⟨answer', A', hReply', hStep, hStops, hRuns⟩ :=
      h.operate hX hUp hTopic hq hClean (hOp topics ps q hUp hTopic hq) hRun
    obtain rfl : answer' = answer := Option.some.inj (hReply'.symm.trans hReply)
    cases stopped with
    | true =>
      cases hRest
      obtain ⟨hCrash, hDelivers⟩ := hStops rfl
      exact ⟨A', hStep, hDelivers, iff_of_true hCrash rfl⟩
    | false =>
      cases hRest
      obtain ⟨hNot, hDelivers⟩ := hRuns rfl
      exact ⟨A', hStep, hDelivers, iff_of_false hNot (by simp)⟩
  | shutdown envs =>
    obtain ⟨topics, hUp, hEnded⟩ := Option.bind_eq_some_iff.mp hAct
    obtain ⟨synced, hSynced, rfl⟩ := hShows
    obtain ⟨A', hStep, hDelivers⟩ := h.shutdown hUp hSynced (Option.some.inj hEnded)
    exact ⟨A', hStep, hDelivers, Iff.rfl⟩
  | openBroker config envs =>
    obtain ⟨u, hGuard, hOpened⟩ := Option.bind_eq_some_iff.mp hAct
    have hDown : s.topics = none := by
      cases hUp : s.topics with
      | none => rfl
      | some topics =>
        rw [hUp] at hGuard
        cases hGuard
    obtain rfl : e = _ := hShows
    obtain ⟨A', hStep, hDelivers⟩ := h.openBroker hDown hWhole (Option.some.inj hOpened)
    exact ⟨A', hStep, hDelivers, Iff.rfl⟩
  | stop =>
    cases hAct
    obtain rfl : e = _ := hShows
    refine ⟨A, .cutShort trivial, ?_, iff_of_true trivial rfl⟩
    exact ⟨lands_of_crash h.stands.catalogue h.stands.intact, fun hNot => absurd rfl hNot,
      fun _ => h.leaves⟩

end Kafko
