import Kafko.Broker.Contention

/-!
# Deleting a topic while others create it

`delete_topic` puts the entry back when the topic is in use, and removes the directory when it
is not, in both cases without looking at what was registered since it took the entry. Nothing
was, as long as no `create_topic` finds the name free while a deletion is under way and no
`delete_topic` takes the entry while a creation is. The name is then in one of two modes:
`Unclaimed`, where topics are made and registered, and `Claimed` by one deletion, during which
every other call returns an error or waits.
-/

namespace Kafko

open Disk

namespace CallPhase

/-- The topic that a deletion still has. -/
def held : CallPhase → Option Nat
  | taken id _ => some id
  | closing id _ _ => some id
  | restoring id _ => some id
  | _ => none

theorem note_of_not_deletes {phase : CallPhase} (h : ¬ phase.Deletes) (id : Nat) :
    phase.note id = phase := by
  cases phase <;> first | rfl | exact absurd trivial h

end CallPhase

namespace Contest

/-- Creations and deletions of the name do not overlap. -/
def Apart (s : Contest) : ContestStep → Prop
  | .call i _ _ =>
    match s.calls[i]? with
    | some (.creating partitions _) =>
      partitions ≠ 0 → s.entry = none → ∀ phase ∈ s.calls, ¬ phase.Deletes
    | some .deleting => s.entry ≠ none → ∀ phase ∈ s.calls, ¬ phase.Creates
    | _ => True
  | _ => True

instance (s : Contest) (a : ContestStep) : Decidable (s.Apart a) := by
  unfold Apart
  split
  · split <;> infer_instance
  · infer_instance

variable {X : Crates} {root : DirPath} {name : String} {s s' : Contest}

/-- The topic has `n` partitions, and their directories and its own exist. -/
structure Stocked (root : DirPath) (name : String) (s : Contest) (id n : Nat) : Prop where
  dirs : (s.topics.map TopicValue.dirs)[id]? = some (partitionDirs root name n)
  topicDir : 0 < n → root.join name ∈ s.tree
  mem : ∀ q ∈ partitionDirs root name n, q ∈ s.tree

theorem Stocked.grow {id n : Nat} (h : Stocked root name s id n)
    (hDirs : (s'.topics.map TopicValue.dirs)[id]? = (s.topics.map TopicValue.dirs)[id]?)
    (hMem : ∀ q ∈ s.tree, q ∈ s'.tree) : Stocked root name s' id n :=
  ⟨hDirs.trans h.dirs, fun hPos => hMem _ (h.topicDir hPos), fun q hq => hMem q (h.mem q hq)⟩

theorem Stocked.of_topic {id n : Nat} (h : Stocked root name s id n) {topic : TopicValue}
    (hTopic : s.topics[id]? = some topic) :
    topic.dirs = partitionDirs root name n ∧ topic.writers.length = n := by
  have hDirs := h.dirs
  rw [List.getElem?_map, hTopic] at hDirs
  have hEq : topic.dirs = partitionDirs root name n := Option.some.inj hDirs
  exact ⟨hEq, TopicValue.length_of_dirs hEq⟩

section Opened

variable {id n : Nat} {topic : TopicValue} {config : LogConfig} {env : Env FileName}
  {p : PlacedLog} {t : DirTree FileName}

/-- The next partition of the topic has been opened. -/
theorem Stocked.opened (h : Stocked root name s id n) (hTopic : s.topics[id]? = some topic)
    (hOpen : openPartition X config env
      (root.wayTo name ++ [(root.join name).join (toString topic.writers.length)])
      ((root.join name).join (toString topic.writers.length)) s.tree = (.ok p, t)) :
    Stocked root name { s.setTopic id
      { topic with writers := topic.writers ++ [⟨p, true, 0⟩] } with tree := t } id (n + 1) := by
  obtain ⟨hDir, hMade⟩ := openPartition_made hOpen
  obtain ⟨hDirs, hLength⟩ := h.of_topic hTopic
  refine ⟨?_, ?_, ?_⟩
  · rw [List.getElem?_map]
    show ((s.setTopic id _).topics[id]?).map _ = _
    rw [getElem?_setTopic hTopic, Option.map_some, TopicValue.dirs_push, hDirs, hDir, hLength,
      partitionDirs_succ]
  · intro _
    apply hMade
    exact List.mem_append_left _ (DirPath.join_mem_wayTo root name)
  · intro q hq
    rw [partitionDirs_succ] at hq
    rcases List.mem_append.mp hq with hOld | hNew
    · exact openPartition_kept hOpen (h.mem q hOld)
    · apply hMade
      rw [hLength]
      exact List.mem_append_right _ hNew

/-- A partition of another topic has been opened. -/
theorem Stocked.opened_other {id' : Nat} (h : Stocked root name s id' n) (hNe : id' ≠ id)
    {way : List DirPath} {dir : DirPath} {topic' : TopicValue}
    (hOpen : openPartition X config env way dir s.tree = (.ok p, t)) :
    Stocked root name { s.setTopic id topic' with tree := t } id' n := by
  refine h.grow ?_ fun q hq => openPartition_kept hOpen hq
  rw [List.getElem?_map, List.getElem?_map]
  show ((s.topics.set id _)[id']?).map _ = _
  rw [List.getElem?_set_ne (Ne.symm hNe)]

end Opened

/-- No deletion is under way: every registered topic has its directories, and so has every topic
on the way for the partitions opened so far. -/
structure Unclaimed (root : DirPath) (name : String) (s : Contest) : Prop where
  calm : ∀ phase ∈ s.calls, ¬ phase.Deletes
  registered : ∀ id, s.entry = some id → ∃ n, 0 < n ∧ Stocked root name s id n
  opened : ∀ id count config, .opening id count config ∈ s.calls →
    ∃ n, n ≤ count ∧ 0 < count ∧ Stocked root name s id n
  /-- Each topic on the way is held by one call. -/
  distinct : ∀ (i j id count count' : Nat) (config config' : LogConfig),
    s.calls[i]? = some (.opening id count config) →
    s.calls[j]? = some (.opening id count' config') → i = j
  unregistered : ∀ id count config, .opening id count config ∈ s.calls → s.entry ≠ some id

/-- Call `i` has taken the entry. -/
structure Claimed (root : DirPath) (name : String) (s : Contest) (i : Nat) (phase : CallPhase) :
    Prop where
  call : s.calls[i]? = some phase
  deletes : phase.Deletes
  others : ∀ (j : Nat) (other : CallPhase), j ≠ i → s.calls[j]? = some other →
    ¬ other.Creates ∧ ¬ other.Deletes
  entry : s.entry = none
  since : phase.since = []
  held : ∀ id, phase.held = some id → ∃ n, 0 < n ∧ Stocked root name s id n

inductive Ordered (root : DirPath) (name : String) (s : Contest) : Prop
  | unclaimed (h : Unclaimed root name s)
  | claimed {i : Nat} {phase : CallPhase} (h : Claimed root name s i phase)

/-- Nothing is under way. -/
structure Settled (root : DirPath) (name : String) (s : Contest) : Prop where
  calm : ∀ phase ∈ s.calls, ¬ phase.Creates ∧ ¬ phase.Deletes
  registered : ∀ id, s.entry = some id → ∃ n, 0 < n ∧ Stocked root name s id n

/-- Without topics on the way there is nothing to say about them. -/
theorem Settled.unclaimed (h : Settled root name s) : Unclaimed root name s where
  calm phase hPhase := (h.calm phase hPhase).2
  registered := h.registered
  opened _ _ _ hMem := absurd trivial (h.calm _ hMem).1
  distinct _ _ _ _ _ _ _ hCall _ := absurd trivial (h.calm _ (List.mem_of_getElem? hCall)).1
  unregistered _ _ _ hMem := absurd trivial (h.calm _ hMem).1

theorem Ordered.keeps (h : Ordered root name s) (hKeeps : Keeps s s') : Ordered root name s' := by
  have hStocked : ∀ {id n : Nat}, Stocked root name s id n → Stocked root name s' id n := by
    intro id n hOld
    apply hOld.grow
    · rw [hKeeps.dirs]
    · intro q hq
      exact (hKeeps.mem q).mpr hq
  cases h with
  | unclaimed h =>
    refine .unclaimed ⟨?_, ?_, ?_, ?_, ?_⟩
    · rw [hKeeps.calls]
      exact h.calm
    · intro id hEntry
      obtain ⟨n, hPos, hOld⟩ := h.registered id (hKeeps.entry ▸ hEntry)
      exact ⟨n, hPos, hStocked hOld⟩
    · intro id count config hMem
      obtain ⟨n, hLe, hPos, hOld⟩ := h.opened id count config (hKeeps.calls ▸ hMem)
      exact ⟨n, hLe, hPos, hStocked hOld⟩
    · rw [hKeeps.calls]
      exact h.distinct
    · rw [hKeeps.calls, hKeeps.entry]
      exact h.unregistered
  | @claimed i phase h =>
    have hClaimed : Claimed root name s' i phase := by
      refine ⟨?_, h.deletes, ?_, ?_, h.since, ?_⟩
      · rw [hKeeps.calls, h.call]
      · rw [hKeeps.calls]
        exact h.others
      · rw [hKeeps.entry, h.entry]
      · intro id hHeld
        obtain ⟨n, hPos, hOld⟩ := h.held id hHeld
        exact ⟨n, hPos, hStocked hOld⟩
    exact .claimed hClaimed

/-! ## Steps while nothing is claimed -/

namespace Unclaimed

variable {i id : Nat} {config : LogConfig} {env : Env FileName}

/-- A call returns without registering anything. -/
theorem finish (h : Unclaimed root name s) {r : Res KafkoError Unit}
    (hCalls : s'.calls = s.calls.set i (.returned r)) (hEntry : s'.entry = s.entry)
    (hTopics : s'.topics = s.topics) (hMem : ∀ q ∈ s.tree, q ∈ s'.tree) :
    Unclaimed root name s' := by
  have hOld : ∀ {phase : CallPhase}, phase ∈ s'.calls → phase = .returned r ∨ phase ∈ s.calls := by
    intro phase hPhase
    rw [hCalls] at hPhase
    exact (List.mem_or_eq_of_mem_set hPhase).symm
  have hOpening : ∀ {id count : Nat} {config : LogConfig},
      .opening id count config ∈ s'.calls → .opening id count config ∈ s.calls := by
    intro id count config hPhase
    rcases hOld hPhase with hEq | hPhase
    · cases hEq
    · exact hPhase
  have hStocked : ∀ {id n : Nat}, Stocked root name s id n → Stocked root name s' id n :=
    fun hStocked => hStocked.grow (by rw [hTopics]) hMem
  refine ⟨?_, ?_, ?_, ?_, ?_⟩
  · intro phase hPhase
    rcases hOld hPhase with rfl | hPhase
    · exact False.elim
    · exact h.calm phase hPhase
  · intro id hSome
    obtain ⟨n, hPos, hHas⟩ := h.registered id (hEntry ▸ hSome)
    exact ⟨n, hPos, hStocked hHas⟩
  · intro id count config hPhase
    obtain ⟨n, hLe, hPos, hHas⟩ := h.opened id count config (hOpening hPhase)
    exact ⟨n, hLe, hPos, hStocked hHas⟩
  · intro j k id count count' config config' hj hk
    rw [hCalls] at hj hk
    rcases getElem?_set_cases hj with ⟨-, hEq⟩ | ⟨-, hj⟩
    · cases hEq
    · rcases getElem?_set_cases hk with ⟨-, hEq⟩ | ⟨-, hk⟩
      · cases hEq
      · exact h.distinct j k id count count' config config' hj hk
  · intro id count config hPhase
    rw [hEntry]
    exact h.unregistered id count config (hOpening hPhase)

theorem setCall_returned (h : Unclaimed root name s) (i : Nat) (r : Res KafkoError Unit) :
    Unclaimed root name (s.setCall i (.returned r)) :=
  h.finish rfl rfl rfl fun _ hq => hq

/-- A call that finds the name free sets out with a topic of its own. -/
theorem setOut (h : Unclaimed root name s) {count : Nat} (hCount : 0 < count)
    (hEntry : s.entry = none) :
    Unclaimed root name { s.setCall i (.opening s.topics.length count config) with
      topics := s.topics ++ [⟨[], 0⟩] } := by
  have hShorter : ∀ {id n : Nat}, Stocked root name s id n → id < s.topics.length := by
    intro id n hHas
    have hIn := (List.getElem?_eq_some_iff.mp hHas.dirs).1
    rwa [List.length_map] at hIn
  have hNew : Stocked root name { s.setCall i (.opening s.topics.length count config) with
      topics := s.topics ++ [⟨[], 0⟩] } s.topics.length 0 := by
    refine ⟨?_, fun hNot => absurd hNot (lt_irrefl 0), fun q hq => by cases hq⟩
    show ((s.topics ++ [TopicValue.mk [] 0]).map TopicValue.dirs)[s.topics.length]? = some []
    simp [TopicValue.dirs]
  refine ⟨?_, ?_, ?_, ?_, ?_⟩
  · intro phase hPhase
    rcases List.mem_or_eq_of_mem_set hPhase with hPhase | rfl
    · exact h.calm phase hPhase
    · exact False.elim
  · intro id hSome
    rw [show s.entry = some id from hSome] at hEntry
    cases hEntry
  · intro id count' config' hPhase
    rcases List.mem_or_eq_of_mem_set hPhase with hPhase | hEq
    · obtain ⟨n, hLe, hPos, hHas⟩ := h.opened id count' config' hPhase
      refine ⟨n, hLe, hPos, hHas.grow ?_ fun _ hq => hq⟩
      show ((s.topics ++ [TopicValue.mk [] 0]).map TopicValue.dirs)[id]? = _
      rw [List.map_append, List.getElem?_append_left (by rw [List.length_map]; exact hShorter hHas)]
    · cases hEq
      exact ⟨0, Nat.zero_le _, hCount, hNew⟩
  · intro j k id c c' conf conf' hj hk
    rcases getElem?_set_cases hj with ⟨rfl, hEq⟩ | ⟨-, hj⟩
    · cases hEq
      rcases getElem?_set_cases hk with ⟨rfl, -⟩ | ⟨-, hk⟩
      · rfl
      · obtain ⟨n, -, -, hHas⟩ := h.opened _ c' conf' (List.mem_of_getElem? hk)
        exact absurd (hShorter hHas) (lt_irrefl _)
    · rcases getElem?_set_cases hk with ⟨-, hEq⟩ | ⟨-, hk⟩
      · cases hEq
        obtain ⟨n, -, -, hHas⟩ := h.opened _ c conf (List.mem_of_getElem? hj)
        exact absurd (hShorter hHas) (lt_irrefl _)
      · exact h.distinct j k id c c' conf conf' hj hk
  · intro id count' config' _ hSome
    rw [show s.entry = some id from hSome] at hEntry
    cases hEntry

/-- A partition is opened, or the call returns what stopped it. -/
theorem openNext (h : Unclaimed root name s) {count : Nat} {topic : TopicValue}
    (hCall : s.calls[i]? = some (.opening id count config)) (hTopic : s.topics[id]? = some topic)
    (hLt : topic.writers.length < count)
    (hStep : s.openNext X root name i id topic config env = some s') :
    Unclaimed root name s' := by
  have hMine := List.mem_of_getElem? hCall
  unfold Contest.openNext at hStep
  dsimp only at hStep
  split at hStep
  · next p t hOpen =>
    cases hStep
    obtain ⟨n, -, hCount, hHas⟩ := h.opened id count config hMine
    obtain ⟨-, hLength⟩ := hHas.of_topic hTopic
    rw [hLength] at hLt
    have hThis := hHas.opened hTopic hOpen
    -- The topics of the other calls and the registered one are not this one.
    refine ⟨h.calm, ?_, ?_, h.distinct, h.unregistered⟩
    · intro id' hSome
      obtain ⟨n', hPos, hOld⟩ := h.registered id' hSome
      refine ⟨n', hPos, hOld.opened_other ?_ hOpen⟩
      rintro rfl
      exact h.unregistered _ count config hMine hSome
    · intro id' count' config' hPhase
      by_cases hEq : id' = id
      · subst hEq
        obtain ⟨j, hj⟩ := List.mem_iff_getElem?.mp hPhase
        obtain rfl := h.distinct j i _ count' count config' config hj hCall
        rw [show s.calls[j]? = _ from hj] at hCall
        cases hCall
        exact ⟨n + 1, hLt, hCount, hThis⟩
      · obtain ⟨n', hLe, hPos, hOld⟩ := h.opened id' count' config' hPhase
        exact ⟨n', hLe, hPos, hOld.opened_other hEq hOpen⟩
  · next hOpen =>
    cases hStep
    exact h.finish rfl rfl rfl fun q hq => openPartition_kept hOpen hq
  · next hOpen =>
    cases hStep
    exact h.finish rfl rfl rfl fun q hq => openPartition_kept hOpen hq
  · cases hStep

/-- The topic is registered. No deletion is under way that would take note of it. -/
theorem insertTopic (h : Unclaimed root name s) {count : Nat} {topic : TopicValue}
    (hCall : s.calls[i]? = some (.opening id count config)) (hTopic : s.topics[id]? = some topic)
    (hLe : count ≤ topic.writers.length) : Unclaimed root name (s.insertTopic name i id) := by
  obtain ⟨n, -, hCount, hHas⟩ := h.opened id count config (List.mem_of_getElem? hCall)
  obtain ⟨-, hLength⟩ := hHas.of_topic hTopic
  unfold Contest.insertTopic
  split
  · exact h.setCall_returned i _
  have hNote : s.calls.map (CallPhase.note id) = s.calls := by
    conv_rhs => rw [← List.map_id s.calls]
    apply List.map_congr_left
    intro phase hPhase
    exact CallPhase.note_of_not_deletes (h.calm phase hPhase) id
  rw [hNote]
  have hRest := h.setCall_returned i (.ok ())
  refine ⟨hRest.calm, ?_, ?_, hRest.distinct, ?_⟩
  · intro id' hSome
    cases hSome
    refine ⟨n, ?_, hHas.grow rfl fun _ hq => hq⟩
    omega
  · intro id' count' config' hPhase
    obtain ⟨n', hLe', hPos, hOld⟩ := hRest.opened id' count' config' hPhase
    exact ⟨n', hLe', hPos, hOld.grow rfl fun _ hq => hq⟩
  · intro id' count' config' hPhase hSome
    cases hSome
    obtain ⟨j, hj⟩ := List.mem_iff_getElem?.mp hPhase
    rcases getElem?_set_cases hj with ⟨-, hEq⟩ | ⟨hNe, hj⟩
    · cases hEq
    · exact hNe (h.distinct j i id count' count config' config hj hCall)

/-- A deletion takes the entry while no topic is on the way. -/
theorem take (h : Unclaimed root name s) (hCall : s.calls[i]? = some .deleting)
    (hEntry : s.entry = some id) (hApart : ∀ phase ∈ s.calls, ¬ phase.Creates) :
    Claimed root name { s.setCall i (.taken id []) with entry := none } i (.taken id []) := by
  refine ⟨?_, trivial, ?_, rfl, rfl, ?_⟩
  · exact List.getElem?_set_self (List.getElem?_eq_some_iff.mp hCall).1
  · intro j other hNe hOther
    rcases getElem?_set_cases hOther with ⟨hEq, -⟩ | ⟨-, hOther⟩
    · exact absurd hEq hNe
    · have hMem := List.mem_of_getElem? hOther
      exact ⟨hApart other hMem, h.calm other hMem⟩
  · intro id' hHeld
    cases hHeld
    obtain ⟨n, hPos, hHas⟩ := h.registered id hEntry
    exact ⟨n, hPos, hHas.grow rfl fun _ hq => hq⟩

end Unclaimed

/-! ## Steps of a deletion -/

namespace Claimed

variable {i id k : Nat} {phase : CallPhase} {env : Env FileName}

/-- Another call returns. -/
theorem setCall_returned (h : Claimed root name s i phase) {j : Nat} (hNe : j ≠ i)
    (r : Res KafkoError Unit) : Claimed root name (s.setCall j (.returned r)) i phase := by
  refine ⟨?_, h.deletes, ?_, h.entry, h.since, ?_⟩
  · exact (List.getElem?_set_ne hNe).trans h.call
  · intro k other hOther hGet
    rcases getElem?_set_cases hGet with ⟨-, rfl⟩ | ⟨-, hGet⟩
    · exact ⟨False.elim, False.elim⟩
    · exact h.others k other hOther hGet
  · intro id hHeld
    obtain ⟨n, hPos, hHas⟩ := h.held id hHeld
    exact ⟨n, hPos, hHas.grow rfl fun _ hq => hq⟩

/-- The deletion goes on with the topic it has. -/
theorem advance (h : Claimed root name s i phase) {phase' : CallPhase}
    (hCalls : s'.calls = s.calls.set i phase') (hDeletes : phase'.Deletes)
    (hEntry : s'.entry = s.entry) (hSince : phase'.since = phase.since)
    (hHeld : ∀ id, phase'.held = some id → phase.held = some id)
    (hDirs : s'.topics.map TopicValue.dirs = s.topics.map TopicValue.dirs)
    (hMem : ∀ q, q ∈ s'.tree ↔ q ∈ s.tree) : Claimed root name s' i phase' := by
  refine ⟨?_, hDeletes, ?_, hEntry.trans h.entry, hSince.trans h.since, ?_⟩
  · rw [hCalls, List.getElem?_set_self (List.getElem?_eq_some_iff.mp h.call).1]
  · intro j other hNe hOther
    rw [hCalls] at hOther
    rcases getElem?_set_cases hOther with ⟨hEq, -⟩ | ⟨-, hOther⟩
    · exact absurd hEq hNe
    · exact h.others j other hNe hOther
  · intro id hSome
    obtain ⟨n, hPos, hHas⟩ := h.held id (hHeld id hSome)
    exact ⟨n, hPos, hHas.grow (by rw [hDirs]) fun q hq => (hMem q).mpr hq⟩

/-- The deletion returns; whatever is registered then has its directories. -/
theorem release (h : Claimed root name s i phase) {r : Res KafkoError Unit}
    (hCalls : s'.calls = s.calls.set i (.returned r))
    (hRegistered : ∀ id, s'.entry = some id → ∃ n, 0 < n ∧ Stocked root name s' id n) :
    Unclaimed root name s' := by
  have hSettled : Settled root name s' := by
    refine ⟨?_, hRegistered⟩
    intro other hOther
    rw [hCalls] at hOther
    obtain ⟨j, hj⟩ := List.mem_iff_getElem?.mp hOther
    rcases getElem?_set_cases hj with ⟨-, rfl⟩ | ⟨hNe, hj⟩
    · exact ⟨False.elim, False.elim⟩
    · exact h.others j other hNe hj
  exact hSettled.unclaimed

theorem closeNext {since : List Nat} {topic : TopicValue}
    (h : Claimed root name s i (.closing id k since)) (hTopic : s.topics[id]? = some topic)
    (hStep : s.closeNext X i id k since topic env = some s') : Ordered root name s' := by
  unfold Contest.closeNext at hStep
  split at hStep
  · cases hStep
    refine .claimed (h.advance rfl trivial rfl rfl ?_ rfl fun _ => Iff.rfl)
    intro id' hSome
    cases hSome
  · next w hWriter =>
    split at hStep
    · cases hStep
      exact .claimed (h.advance rfl trivial rfl rfl (fun _ hSome => hSome) rfl fun _ => Iff.rfl)
    · have hMem := w.place.mem_operate (X := X) .sync env s.tree
      rcases hRun : w.place.operate X .sync env s.tree with ⟨stopped, p, t⟩
      rw [hRun] at hStep hMem
      cases stopped with
      | true => cases hStep
      | false =>
        cases hStep
        have hDirs : (s.setWriter id topic k { w with running := false }).topics.map
            TopicValue.dirs = s.topics.map TopicValue.dirs :=
          setWriter_dirs hTopic hWriter rfl
        exact .claimed (h.advance rfl trivial rfl rfl (fun _ hSome => hSome) hDirs hMem)

theorem removeTopicDir (h : Claimed root name s i phase) {removal : Removal}
    (hStep : s.removeTopicDir root name i removal = some s') : Ordered root name s' := by
  have hNone : ∀ {s' : Contest}, s'.entry = s.entry → ∀ id, s'.entry = some id →
      ∃ n, 0 < n ∧ Stocked root name s' id n := by
    intro s' hEntry id hSome
    rw [hEntry, h.entry] at hSome
    cases hSome
  unfold Contest.removeTopicDir at hStep
  split at hStep
  · cases hStep
    exact .unclaimed (h.release rfl (hNone rfl))
  · split at hStep
    · cases hStep
    · cases hStep
      exact .unclaimed (h.release rfl (hNone rfl))

theorem stepCall (h : Claimed root name s i phase) {removal : Removal}
    (hStep : s.stepCall X root name i env removal phase = some s') : Ordered root name s' := by
  cases phase with
  | creating partitions config | opening id count config | deleting | returned r =>
    exact False.elim h.deletes
  | taken id since =>
    obtain ⟨topic, -, hStep⟩ := Option.bind_eq_some_iff.mp hStep
    split at hStep
    · cases hStep
      exact .claimed (h.advance rfl trivial rfl rfl (fun _ hSome => hSome) rfl fun _ => Iff.rfl)
    · cases hStep
      exact .claimed (h.advance rfl trivial rfl rfl (fun _ hSome => hSome) rfl fun _ => Iff.rfl)
  | closing id k since =>
    obtain ⟨topic, hTopic, hStep⟩ := Option.bind_eq_some_iff.mp hStep
    exact h.closeNext hTopic hStep
  | removing id since => exact h.removeTopicDir hStep
  | restoring id since =>
    cases hStep
    refine .unclaimed (h.release rfl ?_)
    intro id' hSome
    cases hSome
    obtain ⟨n, hPos, hHas⟩ := h.held id rfl
    exact ⟨n, hPos, hHas.grow rfl fun _ hq => hq⟩

/-- While a deletion is under way every other call returns an error. -/
theorem stepOther (h : Claimed root name s i phase) {j : Nat} {other : CallPhase}
    {removal : Removal} (hNe : j ≠ i) (hCall : s.calls[j]? = some other)
    (hApart : s.Apart (.call j env removal))
    (hStep : s.stepCall X root name j env removal other = some s') :
    Claimed root name s' i phase := by
  obtain ⟨hCreates, hDeletes⟩ := h.others j other hNe hCall
  cases other with
  | creating partitions config =>
    rw [Apart, hCall] at hApart
    cases hStep
    unfold lookUp
    split
    · exact h.setCall_returned hNe _
    · next hPos =>
      exact absurd h.deletes (hApart hPos h.entry phase (List.mem_of_getElem? h.call))
  | opening id count config => exact absurd trivial hCreates
  | deleting =>
    rw [Contest.stepCall, h.entry] at hStep
    cases hStep
    exact h.setCall_returned hNe _
  | taken id since | closing id k since | removing id since | restoring id since =>
    exact absurd trivial hDeletes
  | returned r => cases hStep

end Claimed

/-! ## Whole runs -/

theorem Unclaimed.stepCall (h : Unclaimed root name s) {i : Nat} {phase : CallPhase}
    {env : Env FileName} {removal : Removal} (hCall : s.calls[i]? = some phase)
    (hApart : s.Apart (.call i env removal))
    (hStep : s.stepCall X root name i env removal phase = some s') : Ordered root name s' := by
  have hCalm := h.calm phase (List.mem_of_getElem? hCall)
  rw [Apart, hCall] at hApart
  cases phase with
  | creating partitions config =>
    cases hStep
    unfold lookUp
    split
    · exact .unclaimed (h.setCall_returned i _)
    · next hPos =>
      split
      · exact .unclaimed (h.setCall_returned i _)
      · next hEntry =>
        have hCount : 0 < partitions.toNat := Nat.pos_of_ne_zero fun hZero =>
          hPos (UInt32.toNat_inj.mp hZero)
        exact .unclaimed (h.setOut hCount hEntry)
  | opening id count config =>
    obtain ⟨topic, hTopic, hStep⟩ := Option.bind_eq_some_iff.mp hStep
    split at hStep
    · next hLt => exact .unclaimed (h.openNext hCall hTopic hLt hStep)
    · next hGe =>
      cases hStep
      exact .unclaimed (h.insertTopic hCall hTopic (not_lt.mp hGe))
  | deleting =>
    rw [Contest.stepCall] at hStep
    split at hStep
    · cases hStep
      exact .unclaimed (h.setCall_returned i _)
    · next id hEntry =>
      cases hStep
      have hSome : s.entry ≠ none := by
        rw [hEntry]
        exact Option.some_ne_none id
      exact .claimed (h.take hCall hEntry (hApart hSome))
  | taken id since | closing id k since | removing id since | restoring id since =>
    exact absurd trivial hCalm
  | returned r => cases hStep

theorem Ordered.step (h : Ordered root name s) {a : ContestStep} (hApart : s.Apart a)
    (hStep : s.step X root name a = some s') : Ordered root name s' := by
  by_cases hOther : ∀ i env removal, a ≠ .call i env removal
  · exact h.keeps (step_keeps hOther hStep)
  push Not at hOther
  obtain ⟨j, env, removal, rfl⟩ := hOther
  obtain ⟨phase, hCall, hStep⟩ := Option.bind_eq_some_iff.mp hStep
  cases h with
  | unclaimed h => exact h.stepCall hCall hApart hStep
  | @claimed i mine h =>
    by_cases hEq : j = i
    · subst hEq
      rw [h.call] at hCall
      cases hCall
      exact h.stepCall hStep
    · exact .claimed (h.stepOther hEq hCall hApart hStep)

theorem Ordered.reaches (h : Ordered root name s) (hReach : Reaches X root name Apart s s') :
    Ordered root name s' := by
  induction hReach with
  | refl => exact h
  | tail _ hLast ih =>
    obtain ⟨a, hApart, hStep⟩ := hLast
    exact ih.step hApart hStep

/-- A deletion that is under way has the name to itself. -/
theorem Ordered.claimed_of_deletes (h : Ordered root name s) {i : Nat} {phase : CallPhase}
    (hCall : s.calls[i]? = some phase) (hDeletes : phase.Deletes) :
    Claimed root name s i phase := by
  cases h with
  | unclaimed h => exact absurd hDeletes (h.calm phase (List.mem_of_getElem? hCall))
  | @claimed j mine h =>
    by_cases hEq : i = j
    · subst hEq
      rw [h.call] at hCall
      cases hCall
      exact h
    · exact absurd hDeletes (h.others i phase hEq hCall).2

theorem Ordered.registered (h : Ordered root name s) {id : Nat} (hEntry : s.entry = some id) :
    ∃ n, 0 < n ∧ Stocked root name s id n := by
  cases h with
  | unclaimed h => exact h.registered id hEntry
  | claimed h =>
    rw [h.entry] at hEntry
    cases hEntry

/-- While creations and deletions of the name do not overlap: a registered topic has its
directories, a call that puts a topic back finds the name as it left it, and a call that removes
the directory removes nothing of a topic that was registered since or is on the way. -/
theorem deletion_displaces_nothing (hStart : Settled root name s)
    (hReach : Reaches X root name Apart s s') :
    (∀ id, s'.entry = some id → ∃ topic, s'.topics[id]? = some topic ∧ topic.writers ≠ [] ∧
      topic.dirs = partitionDirs root name topic.writers.length ∧ root.join name ∈ s'.tree ∧
      ∀ q ∈ topic.dirs, q ∈ s'.tree) ∧
    (∀ i id since env removal s'', s'.calls[i]? = some (.restoring id since) →
      s'.step X root name (.call i env removal) = some s'' →
      s'.entry = none ∧ since = [] ∧ s''.entry = some id) ∧
    ∀ (i id : Nat) (since : List Nat), s'.calls[i]? = some (.removing id since) →
      s'.entry = none ∧ since = [] ∧
        ∀ (j : Nat) (other : CallPhase), s'.calls[j]? = some other → ¬ other.Creates := by
  have hOrdered := (Ordered.unclaimed hStart.unclaimed).reaches hReach
  refine ⟨?_, ?_, ?_⟩
  · intro id hEntry
    obtain ⟨n, hPos, hHas⟩ := hOrdered.registered hEntry
    have hDirs := hHas.dirs
    rw [List.getElem?_map] at hDirs
    obtain ⟨topic, hTopic, -⟩ := Option.map_eq_some_iff.mp hDirs
    obtain ⟨hDirs, hLength⟩ := hHas.of_topic hTopic
    refine ⟨topic, hTopic, ?_, ?_, hHas.topicDir hPos, ?_⟩
    · intro hNone
      rw [hNone, List.length_nil] at hLength
      omega
    · rw [hDirs, hLength]
    · rw [hDirs]
      exact hHas.mem
  · intro i id since env removal s'' hCall hStep
    have hClaimed := hOrdered.claimed_of_deletes hCall trivial
    obtain ⟨phase, hPhase, hStep⟩ := Option.bind_eq_some_iff.mp hStep
    rw [hCall] at hPhase
    cases hPhase
    cases hStep
    exact ⟨hClaimed.entry, hClaimed.since, rfl⟩
  · intro i id since hCall
    have hClaimed := hOrdered.claimed_of_deletes hCall trivial
    refine ⟨hClaimed.entry, hClaimed.since, ?_⟩
    intro j other hOther
    by_cases hEq : j = i
    · rw [hEq, hCall] at hOther
      cases hOther
      exact False.elim
    · exact (hClaimed.others j other hEq hOther).1

/-- The name is free, and two calls create the topic and one deletes it. -/
def twoCreateOneDeletes : Contest :=
  ⟨∅, none, [], [.creating 1 .default, .deleting, .creating 1 .default]⟩

theorem settled_twoCreateOneDeletes : Settled root name twoCreateOneDeletes where
  calm := by decide
  registered id hEntry := by cases hEntry

/-- A topic in use is put back. -/
theorem deletion_displaces_nothing_orders :
    ∃ s s', Reaches Crates.uncompressed ["data"] "orders" Apart twoCreateOneDeletes s ∧
      s.calls[1]? = some (.restoring 0 []) ∧
      s.step Crates.uncompressed ["data"] "orders" (plainCall 1) = some s' ∧
      s'.entry = some 0 := by
  have hRun : (twoCreateOneDeletes.run Crates.uncompressed ["data"] "orders" Apart
      [plainCall 0, plainCall 0, plainCall 0, .acquire, plainCall 1, plainCall 1]).map
        Contest.calls =
      some [.returned (.ok ()), .restoring 0 [], .creating 1 .default] := by
    decide +kernel
  obtain ⟨s, hSteps, hCalls⟩ := Option.map_eq_some_iff.mp hRun
  have hReach := reaches_of_run hSteps
  have hCall : s.calls[1]? = some (.restoring 0 []) := by rw [hCalls]; rfl
  obtain ⟨s', hStep⟩ : ∃ s',
      s.step Crates.uncompressed ["data"] "orders" (plainCall 1) = some s' :=
    ⟨_, Option.bind_eq_some_iff.mpr ⟨_, hCall, rfl⟩⟩
  have hBack := (deletion_displaces_nothing settled_twoCreateOneDeletes hReach).2.1
    1 0 [] Env.quiet .done s' hCall hStep
  exact ⟨s, s', hReach, hCall, hStep, hBack.2.2⟩

/-- A topic is created between the two halves of a deletion, which then puts the old one back in
its place. -/
theorem deletion_displaces_created_topic :
    ∃ s s', Reaches Crates.uncompressed ["data"] "orders" (fun _ _ => True) twoCreateOneDeletes s ∧
      s.entry = some 1 ∧ s.calls[1]? = some (.restoring 0 [1]) ∧
      s.calls[2]? = some (.returned (.ok ())) ∧
      s.step Crates.uncompressed ["data"] "orders" (plainCall 1) = some s' ∧
      s'.entry = some 0 ∧ s'.calls[1]? = some (.returned (.err (.topicInUse "orders"))) := by
  have hRun : (twoCreateOneDeletes.run Crates.uncompressed ["data"] "orders" (fun _ _ => True)
      [plainCall 0, plainCall 0, plainCall 0, .acquire, plainCall 1, plainCall 1, plainCall 2,
        plainCall 2, plainCall 2]).map (fun s => (s.entry, s.calls)) =
      some (some 1, [.returned (.ok ()), .restoring 0 [1], .returned (.ok ())]) := by
    decide +kernel
  obtain ⟨s, hSteps, hState⟩ := Option.map_eq_some_iff.mp hRun
  obtain ⟨hEntry, hCalls⟩ := Prod.mk.inj hState
  have hCall : s.calls[1]? = some (.restoring 0 [1]) := by rw [hCalls]; rfl
  refine ⟨s, _, reaches_of_run hSteps, hEntry, hCall, by rw [hCalls]; rfl,
    Option.bind_eq_some_iff.mpr ⟨_, hCall, rfl⟩, rfl, ?_⟩
  show (s.calls.set 1 _)[1]? = _
  rw [hCalls]
  rfl

end Contest

end Kafko
