import Kafko.Broker.Lifecycle

/-!
# No writer without its lock

A broker that closes in good order is on top of its writers: each of them is on the list of what
the broker still has to shut down or to wait for, and nobody else can keep it alive. The
invariant says so (`DataDir.Guarded`), and `DataDir.Follows` is what all the other events have
in common: they start no writer and hand out nothing of a broker that is closing.
-/

namespace Kafko

namespace DataDir

/-- A running writer of a closing broker is on the list of what the broker waits for. -/
def Guarded (s : DataDir) (t p : Nat) (c : TopicCell) (cell : PartitionCell) : Prop :=
  match s.phase c.broker with
  | .opening => True
  | .serving => True
  | .closing work => c.handles = 0 ∧ cell.handles = 0 ∧
      (Task.topic t ∈ work ∨ Task.partition t p ∈ work ∨ Task.await t p ∈ work)
  | .gone => False

structure Inv (s : DataDir) : Prop where
  exclusive : ∀ b b', s.holdsLock b = true → s.holdsLock b' = true → b = b'
  guarded : ∀ t p c cell, s.Runs t p c cell → s.Guarded t p c cell

/-- Every running writer of `s'` ran in `s`, and nothing of a broker that does not serve was
handed out in between. -/
def Follows (s s' : DataDir) : Prop :=
  ∀ t p c' cell', s'.Runs t p c' cell' → ∃ c cell, s.Runs t p c cell ∧ c'.broker = c.broker ∧
    (s.phase c.broker ≠ .serving → c.handles = 0 → cell.handles = 0 →
      c'.handles = 0 ∧ cell'.handles = 0)

variable {s s' : DataDir}

/-! ## Phases -/

theorem lt_of_phase {b : Nat} (h : s.phase b ≠ .gone) : b < s.brokers.length := by
  by_contra hGe
  apply h
  rw [phase, List.getElem?_eq_none (Nat.le_of_not_lt hGe), Option.getD_none]

theorem phase_setPhase {b : Nat} (h : s.phase b ≠ .gone) (ph : Phase) (b' : Nat) :
    (s.setPhase b ph).phase b' = if b' = b then ph else s.phase b' := by
  unfold phase setPhase
  rw [List.getElem?_set]
  by_cases hEq : b = b'
  · subst hEq
    simp [lt_of_phase h]
  · rw [if_neg hEq, if_neg (Ne.symm hEq)]

theorem holdsLock_iff {b : Nat} : s.holdsLock b = true ↔ s.phase b ≠ .gone := by
  unfold holdsLock
  cases s.phase b <;> simp

/-- The lock stays with the broker that has it. -/
theorem Inv.exclusive_setPhase (h : s.Inv) {b : Nat} (hb : s.phase b ≠ .gone) (ph : Phase)
    (hPhase : ∀ b', s'.phase b' = (s.setPhase b ph).phase b') :
    ∀ b₁ b₂, s'.holdsLock b₁ = true → s'.holdsLock b₂ = true → b₁ = b₂ := by
  have hOld : ∀ b', s'.holdsLock b' = true → s.holdsLock b' = true := by
    intro b' h'
    rw [holdsLock_iff, hPhase, phase_setPhase hb] at h'
    rw [holdsLock_iff]
    by_cases hEq : b' = b
    · rw [hEq]
      exact hb
    · rwa [if_neg hEq] at h'
  intro b₁ b₂ h₁ h₂
  exact h.exclusive b₁ b₂ (hOld b₁ h₁) (hOld b₂ h₂)

/-! ## Steps that change no phase -/

theorem Follows.refl (s : DataDir) : Follows s s :=
  fun _ _ c cell hRuns => ⟨c, cell, hRuns, rfl, fun _ h0 h1 => ⟨h0, h1⟩⟩

/-- The relation is about topics only. -/
theorem Follows.sameTopics {s'' : DataDir} (h : Follows s s') (hTopics : s''.topics = s'.topics) :
    Follows s s'' := by
  intro t p c cell hRuns
  exact h t p c cell ⟨hTopics ▸ hRuns.topic, hRuns.partition, hRuns.running⟩

theorem Guarded.congr {t p : Nat} {c c' : TopicCell} {cell cell' : PartitionCell}
    (h : s.Guarded t p c cell) (hPhase : s'.phase c'.broker = s.phase c.broker)
    (hHandles : s.phase c.broker ≠ .serving → c.handles = 0 → cell.handles = 0 →
      c'.handles = 0 ∧ cell'.handles = 0) : s'.Guarded t p c' cell' := by
  unfold Guarded at *
  rw [hPhase]
  cases hph : s.phase c.broker with
  | opening => trivial
  | serving => trivial
  | gone =>
    rw [hph] at h
    exact h
  | closing work =>
    rw [hph] at h hHandles
    obtain ⟨h0, h1, hTask⟩ := h
    obtain ⟨h0', h1'⟩ := hHandles (by simp) h0 h1
    exact ⟨h0', h1', hTask⟩

theorem Inv.follows (h : s.Inv) (hFollows : Follows s s') (hPhase : ∀ b, s'.phase b = s.phase b) :
    s'.Inv := by
  refine ⟨?_, ?_⟩
  · intro b b' hb hb'
    rw [holdsLock_iff, hPhase] at hb hb'
    exact h.exclusive b b' (holdsLock_iff.mpr hb) (holdsLock_iff.mpr hb')
  · intro t p c' cell' hRuns'
    obtain ⟨c, cell, hRuns, hBroker, hHandles⟩ := hFollows t p c' cell' hRuns'
    have hPh : s'.phase c'.broker = s.phase c.broker := by rw [hBroker, hPhase]
    exact (h.guarded t p c cell hRuns).congr hPh hHandles

/-- The lock is released, or the broker starts closing; its writers are accounted for. -/
theorem Inv.setPhase (h : s.Inv) {b : Nat} (hb : s.phase b ≠ .gone) {ph : Phase}
    (hFollows : Follows s s') (hPhase : ∀ b', s'.phase b' = (s.setPhase b ph).phase b')
    (hOwn : ∀ t p c cell, s'.Runs t p c cell → c.broker = b → s'.Guarded t p c cell) :
    s'.Inv := by
  refine ⟨h.exclusive_setPhase hb ph hPhase, ?_⟩
  intro t p c' cell' hRuns'
  by_cases hEq : c'.broker = b
  · exact hOwn t p c' cell' hRuns' hEq
  · obtain ⟨c, cell, hRuns, hBroker, hHandles⟩ := hFollows t p c' cell' hRuns'
    have hPh : s'.phase c'.broker = s.phase c.broker := by
      rw [hPhase, phase_setPhase hb, if_neg hEq, hBroker]
    exact (h.guarded t p c cell hRuns).congr hPh hHandles

end DataDir

/-! ## What happens to one topic -/

namespace TopicCell

/-- Every running writer of `c'` ran in `c`, and a topic that could not be reached has not been
handed out. -/
structure Follows (phase : Phase) (c c' : TopicCell) : Prop where
  broker : c'.broker = c.broker
  cells : ∀ (p : Nat) (cell' : PartitionCell), c'.partitions[p]? = some cell' → cell'.running = true →
    ∃ cell : PartitionCell, c.partitions[p]? = some cell ∧ cell.running = true ∧
      (phase ≠ .serving → c.handles = 0 → cell.handles = 0 →
        c'.handles = 0 ∧ cell'.handles = 0)

variable {phase : Phase} {c c' : TopicCell}

theorem Follows.release (h : Follows phase c c') : Follows phase c c'.release := by
  unfold TopicCell.release
  split
  · refine ⟨h.broker, ?_⟩
    intro p cell' hp' hRun
    change (c'.partitions.map _)[p]? = some cell' at hp'
    rw [List.getElem?_map] at hp'
    obtain ⟨cell₀, hp₀, rfl⟩ := Option.map_eq_some_iff.mp hp'
    exact h.cells p cell₀ hp₀ hRun
  · exact h

/-- Only the registry or the handles of the topic have changed. -/
theorem follows_handles (hBroker : c'.broker = c.broker) (hCells : c'.partitions = c.partitions)
    (hHandles : phase ≠ .serving → c.handles = 0 → c'.handles = 0) : Follows phase c c' := by
  refine ⟨hBroker, ?_⟩
  intro p cell' hp' hRun
  rw [hCells] at hp'
  exact ⟨cell', hp', hRun, fun hPhase h0 h1 => ⟨hHandles hPhase h0, h1⟩⟩

theorem follows_unregister (c : TopicCell) : Follows phase c c.unregister := by
  apply Follows.release
  exact follows_handles rfl rfl fun _ h0 => h0

theorem follows_setPartition {p : Nat} {cell new : PartitionCell} (hp : c.partitions[p]? = some cell)
    (hRun : new.running = true → cell.running = true)
    (hHandles : phase ≠ .serving → c.handles = 0 → cell.handles = 0 → new.handles = 0) :
    Follows phase c (c.setPartition p new) := by
  refine ⟨rfl, ?_⟩
  intro q cell' hq hRun'
  change (c.partitions.set p new)[q]? = some cell' at hq
  by_cases hEq : p = q
  · subst hEq
    rw [List.getElem?_set_self (List.getElem?_eq_some_iff.mp hp).1] at hq
    cases hq
    exact ⟨cell, hp, hRun hRun', fun hPhase h0 h1 => ⟨h0, hHandles hPhase h0 h1⟩⟩
  · rw [List.getElem?_set_ne hEq] at hq
    exact ⟨cell', hq, hRun', fun _ h0 h1 => ⟨h0, h1⟩⟩

/-- The step lemma for the events of one topic. -/
theorem act_follows {event : TopicEvent} (h : c.act phase event = some c') :
    Follows phase c c' := by
  cases event with
  | hold =>
    simp only [act, Option.bind_eq_bind, Option.bind_eq_some_iff, Option.guard_eq_some',
      Option.pure_def, Option.some.injEq] at h
    obtain ⟨-, hReach, rfl⟩ := h
    refine follows_handles rfl rfl ?_
    intro hPhase h0
    rcases hReach with hPos | ⟨-, hServing⟩
    · omega
    · exact absurd hServing hPhase
  | letGo =>
    simp only [act, Option.bind_eq_bind, Option.bind_eq_some_iff, Option.guard_eq_some',
      Option.pure_def, Option.some.injEq] at h
    obtain ⟨-, hPos, rfl⟩ := h
    apply Follows.release
    refine follows_handles rfl rfl ?_
    intro _ h0
    omega
  | holdPartition p =>
    simp only [act, Option.bind_eq_bind, Option.bind_eq_some_iff, Option.guard_eq_some',
      Option.pure_def, Option.some.injEq] at h
    obtain ⟨cell, hp, -, hReach, rfl⟩ := h
    refine follows_setPartition hp (fun hRun => hRun) ?_
    intro hPhase h0 h1
    rcases hReach with hPos | ⟨-, hPos | ⟨-, hServing⟩⟩
    · omega
    · omega
    · exact absurd hServing hPhase
  | letGoPartition p =>
    simp only [act, Option.bind_eq_bind, Option.bind_eq_some_iff, Option.guard_eq_some',
      Option.pure_def, Option.some.injEq] at h
    obtain ⟨cell, hp, -, hPos, rfl⟩ := h
    refine follows_setPartition hp (fun hRun => hRun) ?_
    intro _ _ h1
    omega
  | send p =>
    simp only [act, Option.bind_eq_bind, Option.bind_eq_some_iff, Option.guard_eq_some',
      Option.pure_def, Option.some.injEq] at h
    obtain ⟨cell, -, -, -, rfl⟩ := h
    exact follows_handles rfl rfl fun _ h0 => h0
  | exit p =>
    simp only [act, Option.bind_eq_bind, Option.bind_eq_some_iff, Option.guard_eq_some',
      Option.pure_def, Option.some.injEq] at h
    obtain ⟨cell, hp, -, -, rfl⟩ := h
    exact follows_setPartition hp (fun hRun => by cases hRun) fun _ _ h1 => h1
  | panic p =>
    simp only [act, Option.bind_eq_bind, Option.bind_eq_some_iff, Option.guard_eq_some',
      Option.pure_def, Option.some.injEq] at h
    obtain ⟨cell, hp, -, -, rfl⟩ := h
    exact follows_setPartition hp (fun hRun => by cases hRun) fun _ _ h1 => h1

end TopicCell

namespace DataDir

variable {s s' : DataDir}

/-- Topic by topic. -/
theorem follows_of_topics
    (h : ∀ (t : Nat) (c' : TopicCell), s'.topics[t]? = some c' →
      ∃ c : TopicCell, s.topics[t]? = some c ∧ c.Follows (s.phase c.broker) c') : Follows s s' := by
  intro t p c' cell' hRuns
  obtain ⟨c, hc, hFollows⟩ := h t c' hRuns.topic
  obtain ⟨cell, hp, hRun, hHandles⟩ := hFollows.cells p cell' hRuns.partition hRuns.running
  exact ⟨c, cell, ⟨hc, hp, hRun⟩, hFollows.broker, hHandles⟩

theorem follows_set {t : Nat} {c c' : TopicCell} (hc : s.topics[t]? = some c)
    (hTopics : s'.topics = s.topics.set t c') (hFollows : c.Follows (s.phase c.broker) c') :
    Follows s s' := by
  apply follows_of_topics
  intro u d hd
  rw [hTopics] at hd
  by_cases hEq : t = u
  · subst hEq
    rw [List.getElem?_set_self (List.getElem?_eq_some_iff.mp hc).1] at hd
    cases hd
    exact ⟨c, hc, hFollows⟩
  · rw [List.getElem?_set_ne hEq] at hd
    exact ⟨d, hd, TopicCell.follows_handles rfl rfl fun _ h0 => h0⟩

theorem follows_modify {t : Nat} {f : TopicCell → TopicCell}
    (hTopics : s'.topics = s.topics.modify t f)
    (hFollows : ∀ c : TopicCell, c.Follows (s.phase c.broker) (f c)) : Follows s s' := by
  apply follows_of_topics
  intro u d hd
  rw [hTopics, List.getElem?_modify] at hd
  obtain ⟨c, hc, rfl⟩ := Option.map_eq_some_iff.mp hd
  refine ⟨c, hc, ?_⟩
  split
  · exact hFollows c
  · exact TopicCell.follows_handles rfl rfl fun _ h0 => h0

theorem Follows.trans {s'' : DataDir} (h : Follows s s') (h' : Follows s' s'')
    (hPhase : ∀ b, s'.phase b = s.phase b) : Follows s s'' := by
  intro t p c'' cell'' hRuns
  obtain ⟨c', cell', hRuns', hBroker', hHandles'⟩ := h' t p c'' cell'' hRuns
  obtain ⟨c, cell, hRuns₀, hBroker, hHandles⟩ := h t p c' cell' hRuns'
  refine ⟨c, cell, hRuns₀, hBroker'.trans hBroker, ?_⟩
  intro hServing h0 h1
  obtain ⟨h0', h1'⟩ := hHandles hServing h0 h1
  rw [hBroker, hPhase] at hHandles'
  exact hHandles' hServing h0' h1'

/-! ## Cleanups -/

theorem perform_follows {task : Task} {more : List Task} (h : s.perform task = some (s', more)) :
    Follows s s' ∧ s'.brokers = s.brokers := by
  cases task with
  | topic t =>
    simp only [perform, Option.bind_eq_bind, Option.bind_eq_some_iff] at h
    obtain ⟨c, hc, hRest⟩ := h
    have hFollows : c.Follows (s.phase c.broker) { c with registered := false } :=
      TopicCell.follows_handles rfl rfl fun _ h0 => h0
    split at hRest
    · cases hRest
      exact ⟨follows_set hc rfl hFollows, rfl⟩
    · cases hRest
      exact ⟨follows_set hc rfl hFollows, rfl⟩
  | partition t p =>
    simp only [perform, Option.bind_eq_bind, Option.bind_eq_some_iff] at h
    obtain ⟨c, hc, cell, hp, hRest⟩ := h
    have hFollows : c.Follows (s.phase c.broker)
        (c.setPartition p { cell with inTopic := false }) :=
      TopicCell.follows_setPartition hp (fun hRun => hRun) fun _ _ h1 => h1
    split at hRest
    · cases hRest
      exact ⟨follows_set hc rfl hFollows, rfl⟩
    · cases hRest
      exact ⟨follows_set hc rfl hFollows, rfl⟩
  | await t p =>
    simp only [perform, Option.bind_eq_bind, Option.bind_eq_some_iff, Option.guard_eq_some',
      Option.pure_def, Option.some.injEq, Prod.mk.injEq] at h
    obtain ⟨c, hc, cell, hp, -, -, rfl, -⟩ := h
    exact ⟨Follows.refl s, rfl⟩

/-- A task that concerns a running writer nobody holds leaves a further task for it. -/
theorem perform_more {task : Task} {more : List Task} (h : s.perform task = some (s', more))
    {t p : Nat} {c : TopicCell} {cell : PartitionCell} (hRuns : s.Runs t p c cell)
    (h0 : c.handles = 0) (h1 : cell.handles = 0)
    (hTask : task = .topic t ∨ task = .partition t p ∨ task = .await t p) :
    Task.partition t p ∈ more ∨ Task.await t p ∈ more := by
  rcases hTask with rfl | rfl | rfl
  · simp only [perform, Option.bind_eq_bind, Option.bind_eq_some_iff] at h
    obtain ⟨c', hc', hRest⟩ := h
    obtain rfl : c' = c := Option.some.inj (hc'.symm.trans hRuns.topic)
    rw [if_pos h0] at hRest
    cases hRest
    have hLt := (List.getElem?_eq_some_iff.mp hRuns.partition).1
    exact Or.inl (List.mem_map.mpr ⟨p, List.mem_range.mpr hLt, rfl⟩)
  · simp only [perform, Option.bind_eq_bind, Option.bind_eq_some_iff] at h
    obtain ⟨c', hc', cell', hp', hRest⟩ := h
    obtain rfl : c' = c := Option.some.inj (hc'.symm.trans hRuns.topic)
    obtain rfl : cell' = cell := Option.some.inj (hp'.symm.trans hRuns.partition)
    rw [if_pos h1] at hRest
    cases hRest
    exact Or.inr (List.mem_singleton_self _)
  · simp only [perform, Option.bind_eq_bind, Option.bind_eq_some_iff, Option.guard_eq_some'] at h
    obtain ⟨c', hc', cell', hp', -, hDone, -⟩ := h
    obtain rfl : c' = c := Option.some.inj (hc'.symm.trans hRuns.topic)
    obtain rfl : cell' = cell := Option.some.inj (hp'.symm.trans hRuns.partition)
    rw [hRuns.running] at hDone
    cases hDone

theorem forgo_follows (task : Task) : Follows s (s.forgo task) := by
  cases task with
  | topic t => exact follows_modify rfl fun c => TopicCell.follows_unregister c
  | partition t p =>
    refine follows_modify rfl fun c => ⟨rfl, ?_⟩
    intro q cell' hq hRun
    change (c.partitions.modify p _)[q]? = some cell' at hq
    rw [List.getElem?_modify] at hq
    obtain ⟨cell, hcell, rfl⟩ := Option.map_eq_some_iff.mp hq
    refine ⟨cell, hcell, ?_, ?_⟩
    · split at hRun <;> exact hRun
    · intro _ h0 h1
      split <;> exact ⟨h0, h1⟩
  | await t p => exact Follows.refl s

theorem brokers_forgo (task : Task) : (s.forgo task).brokers = s.brokers := by
  cases task <;> rfl

theorem forgoAll_follows (work : List Task) :
    Follows s (work.foldl forgo s) ∧ (work.foldl forgo s).brokers = s.brokers := by
  induction work generalizing s with
  | nil => exact ⟨Follows.refl s, rfl⟩
  | cons task work ih =>
    obtain ⟨hRest, hBrokers⟩ := ih (s := s.forgo task)
    have hPhase : ∀ b, (s.forgo task).phase b = s.phase b := by
      intro b
      rw [phase, brokers_forgo]
      rfl
    exact ⟨(forgo_follows task).trans hRest hPhase, hBrokers.trans (brokers_forgo task)⟩

theorem unregisterAll_follows (b : Nat) : Follows s (s.unregisterAll b) := by
  apply follows_of_topics
  intro t c' hc'
  change (s.topics.map _)[t]? = some c' at hc'
  rw [List.getElem?_map] at hc'
  obtain ⟨c, hc, rfl⟩ := Option.map_eq_some_iff.mp hc'
  refine ⟨c, hc, ?_⟩
  split
  · exact TopicCell.follows_unregister c
  · exact TopicCell.follows_handles rfl rfl fun _ h0 => h0

/-! ## Steps -/

/-- The lock is given up while no writer of the broker runs. -/
theorem Inv.release (h : s.Inv) {b : Nat} (hb : s.phase b ≠ .gone) (hIdle : s.Idle b)
    (hFollows : Follows s s') (hPhase : ∀ b', s'.phase b' = (s.setPhase b .gone).phase b') :
    s'.Inv := by
  apply h.setPhase hb hFollows hPhase
  intro t p c' cell' hRuns' hBroker
  obtain ⟨c, cell, hRuns, hSame, -⟩ := hFollows t p c' cell' hRuns'
  have hStill := hIdle c (List.mem_of_getElem? hRuns.topic) (hSame ▸ hBroker) cell
    (List.mem_of_getElem? hRuns.partition)
  rw [hRuns.running] at hStill
  cases hStill

/-- A broker that recovers or serves has new writers. -/
theorem Inv.add (h : s.Inv) {b : Nat} (hb : s.phase b = .opening ∨ s.phase b = .serving)
    {name : String} {registered : Bool} {cells : List PartitionCell} :
    ({ s with topics := s.topics ++ [⟨b, name, registered, 0, cells⟩] } : DataDir).Inv := by
  refine ⟨h.exclusive, ?_⟩
  intro t p c cell hRuns
  have hTopic := hRuns.topic
  change (s.topics ++ [_])[t]? = some c at hTopic
  rw [List.getElem?_append] at hTopic
  split at hTopic
  · exact h.guarded t p c cell ⟨hTopic, hRuns.partition, hRuns.running⟩
  · have hNew := List.mem_singleton.mp (List.mem_of_getElem? hTopic)
    have hPhase : phase { s with topics := s.topics ++ [⟨b, name, registered, 0, cells⟩] }
        c.broker = s.phase b := by rw [hNew]; rfl
    unfold Guarded
    rw [hPhase]
    rcases hb with hOpening | hServing
    · rw [hOpening]
      trivial
    · rw [hServing]
      trivial

theorem Inv.lock (h : s.Inv) (hFree : ∀ b ∈ List.range s.brokers.length, s.holdsLock b = false) :
    ({ s with brokers := s.brokers ++ [.opening] } : DataDir).Inv := by
  have hGone : ∀ b, s.phase b = .gone := by
    intro b
    by_contra hb
    have hNot := hFree b (List.mem_range.mpr (lt_of_phase hb))
    rw [holdsLock_iff.mpr hb] at hNot
    cases hNot
  have hNew : ∀ b, phase { s with brokers := s.brokers ++ [.opening] } b ≠ .gone →
      b = s.brokers.length := by
    intro b hb
    by_contra hne
    apply hb
    unfold phase
    rw [List.getElem?_append]
    split
    · exact hGone b
    · rw [List.getElem?_eq_none (by simp; omega), Option.getD_none]
  refine ⟨?_, ?_⟩
  · intro b b' hb hb'
    rw [hNew b (holdsLock_iff.mp hb), hNew b' (holdsLock_iff.mp hb')]
  · intro t p c cell hRuns
    have hOld := h.guarded t p c cell ⟨hRuns.topic, hRuns.partition, hRuns.running⟩
    unfold Guarded at hOld
    rw [hGone] at hOld
    exact hOld.elim

theorem mem_registry {b t : Nat} {c : TopicCell} (hc : s.topics[t]? = some c)
    (hBroker : c.broker = b) (hRegistered : c.registered = true) :
    Task.topic t ∈ s.registry b := by
  refine List.mem_map.mpr ⟨t, List.mem_filter.mpr ⟨?_, ?_⟩, rfl⟩
  · exact List.mem_range.mpr (List.getElem?_eq_some_iff.mp hc).1
  · rw [hc]
    simp [hBroker, hRegistered]

/-- Phases depend on the brokers only. -/
theorem phase_congr (h : s'.brokers = s.brokers) (b : Nat) : s'.phase b = s.phase b := by
  rw [phase, h]
  rfl

theorem setPhase_congr (h : s'.brokers = s.brokers) (b : Nat) (ph : Phase) (b' : Nat) :
    (s'.setPhase b ph).phase b' = (s.setPhase b ph).phase b' := by
  unfold phase setPhase
  rw [h]

theorem Inv.shutdown (h : s.Inv) {b : Nat} (hb : s.phase b = .serving) (hOwn : s.Unshared b) :
    (s.setPhase b (.closing (s.registry b))).Inv := by
  have hGone : s.phase b ≠ .gone := by simp [hb]
  refine h.setPhase hGone ((Follows.refl s).sameTopics rfl) (fun _ => rfl) ?_
  intro t p c cell hRuns hBroker
  obtain ⟨hRegistered, h0, h1⟩ := hOwn c (List.mem_of_getElem? hRuns.topic) hBroker cell
    (List.mem_of_getElem? hRuns.partition) hRuns.running
  unfold Guarded
  rw [phase_setPhase hGone, if_pos hBroker]
  exact ⟨h0, h1, Or.inl (mem_registry hRuns.topic hBroker hRegistered)⟩

/-- The next task of a closing broker. -/
theorem Inv.close (h : s.Inv) {b : Nat} {task : Task} {work more : List Task}
    (hb : s.phase b = .closing (task :: work)) (hTask : s.perform task = some (s', more)) :
    (s'.setPhase b (.closing (more ++ work))).Inv := by
  have hGone : s.phase b ≠ .gone := by simp [hb]
  obtain ⟨hFollows, hBrokers⟩ := perform_follows hTask
  have hPhase := setPhase_congr hBrokers b (.closing (more ++ work))
  refine h.setPhase hGone (hFollows.sameTopics rfl) hPhase ?_
  intro t p c' cell' hRuns' hBroker
  obtain ⟨c, cell, hRuns, hSame, hHandles⟩ := hFollows t p c' cell'
    ⟨hRuns'.topic, hRuns'.partition, hRuns'.running⟩
  have hOld := h.guarded t p c cell hRuns
  unfold Guarded at hOld ⊢
  rw [← hSame, hBroker, hb] at hOld
  rw [hPhase, phase_setPhase hGone, if_pos hBroker]
  obtain ⟨h0, h1, hIn⟩ := hOld
  obtain ⟨h0', h1'⟩ := hHandles (by rw [← hSame, hBroker, hb]; simp) h0 h1
  refine ⟨h0', h1', ?_⟩
  by_cases hHead : task = .topic t ∨ task = .partition t p ∨ task = .await t p
  · rcases perform_more hTask hRuns h0 h1 hHead with hMore | hMore
    · exact Or.inr (Or.inl (List.mem_append_left _ hMore))
    · exact Or.inr (Or.inr (List.mem_append_left _ hMore))
  · -- the writer is on the list behind the task just done
    have hRest : ∀ u, u ∈ task :: work → u ≠ task → u ∈ more ++ work := by
      intro u hu hne
      rcases List.mem_cons.mp hu with rfl | hu
      · exact absurd rfl hne
      · exact List.mem_append_right _ hu
    rcases hIn with hIn | hIn | hIn
    · exact Or.inl (hRest _ hIn fun hEq => hHead (Or.inl hEq.symm))
    · exact Or.inr (Or.inl (hRest _ hIn fun hEq => hHead (Or.inr (Or.inl hEq.symm))))
    · exact Or.inr (Or.inr (hRest _ hIn fun hEq => hHead (Or.inr (Or.inr hEq.symm))))

/-- A broker with nothing left to do has no running writer. -/
theorem Inv.idle (h : s.Inv) {b : Nat} (hb : s.phase b = .closing []) : s.Idle b := by
  intro c hc hBroker cell hCell
  obtain ⟨t, ht⟩ := List.mem_iff_getElem?.mp hc
  obtain ⟨p, hp⟩ := List.mem_iff_getElem?.mp hCell
  by_contra hRun
  have hOld := h.guarded t p c cell ⟨ht, hp, by simpa using hRun⟩
  unfold Guarded at hOld
  rw [hBroker, hb] at hOld
  simp at hOld

/-- An open that fails before it has recovered anything leaves nothing behind. -/
theorem Inv.openFails (h : s.Inv) {b : Nat} {name : String} (hPhase : s.phase b = .opening)
    (hIdle : s.Idle b) : (((s.orphan b name 0).unregisterAll b).setPhase b .gone).Inv := by
  have hInv : (s.orphan b name 0).Inv := h.add (Or.inl hPhase)
  have hIdle' : (s.orphan b name 0).Idle b := by
    intro c hc hBroker cell hCell
    rcases List.mem_append.mp hc with hOld | hNew
    · exact hIdle c hOld hBroker cell hCell
    · rw [List.mem_singleton.mp hNew] at hCell
      cases hCell
  have hGone : (s.orphan b name 0).phase b ≠ .gone := by
    have hSame : (s.orphan b name 0).phase b = s.phase b := rfl
    simp [hSame, hPhase]
  exact hInv.release hGone hIdle' ((unregisterAll_follows b).sameTopics rfl)
    (setPhase_congr rfl b .gone)

theorem eq_of_guard {α : Type} {p : Prop} [Decidable p] {a b : α}
    (h : (guard p >>= fun _ => pure a) = some b) : p ∧ a = b := by
  by_cases hp : p
  · rw [guard, if_pos hp] at h
    exact ⟨hp, Option.some.inj h⟩
  · rw [guard, if_neg hp] at h
    cases h

/-- The step lemma: an orderly event leaves no writer without its lock. -/
theorem step_inv (h : s.Inv) {event : DirEvent} (hOrderly : s.Orderly event)
    (hStep : s.step event = some s') : s'.Inv := by
  cases event with
  | lock =>
    obtain ⟨hFree, rfl⟩ := eq_of_guard hStep
    exact h.lock hFree
  | recover b name count =>
    obtain ⟨hPhase, rfl⟩ := eq_of_guard hStep
    exact h.add (Or.inl hPhase)
  | openFails b name count =>
    obtain ⟨hPhase, rfl⟩ := eq_of_guard hStep
    obtain ⟨hIdle, rfl⟩ := hOrderly
    exact h.openFails hPhase hIdle
  | opened b =>
    obtain ⟨hPhase, rfl⟩ := eq_of_guard hStep
    have hGone : s.phase b ≠ .gone := by simp [hPhase]
    refine h.setPhase hGone ((Follows.refl s).sameTopics rfl) (fun _ => rfl) ?_
    intro t p c cell _ hBroker
    unfold Guarded
    rw [phase_setPhase hGone, if_pos hBroker]
    trivial
  | create b name count =>
    obtain ⟨hPhase, rfl⟩ := eq_of_guard hStep
    exact h.add (Or.inr hPhase)
  | createFails b name count =>
    obtain ⟨hPhase, rfl⟩ := eq_of_guard hStep
    exact h.add (Or.inr hPhase)
  | delete b t =>
    simp only [step, Option.bind_eq_bind, Option.bind_eq_some_iff, Option.guard_eq_some',
      Option.pure_def, Option.some.injEq] at hStep
    obtain ⟨c, hc, -, -, rfl⟩ := hStep
    exact h.follows (follows_set hc rfl (TopicCell.follows_handles rfl rfl fun _ h0 => h0))
      fun _ => rfl
  | topic t event =>
    simp only [step, Option.bind_eq_bind, Option.bind_eq_some_iff, Option.pure_def,
      Option.some.injEq] at hStep
    obtain ⟨c, hc, c', hAct, rfl⟩ := hStep
    exact h.follows (follows_set hc rfl (TopicCell.act_follows hAct)) fun _ => rfl
  | shutdown b =>
    obtain ⟨hPhase, rfl⟩ := eq_of_guard hStep
    exact h.shutdown hPhase hOrderly
  | drop b runtime =>
    cases runtime with
    | multiThread =>
      obtain ⟨hPhase, rfl⟩ := eq_of_guard hStep
      exact h.shutdown hPhase hOrderly
    | currentThread =>
      obtain ⟨hPhase, rfl⟩ := eq_of_guard hStep
      exact h.release (by simp [hPhase]) hOrderly ((Follows.refl s).sameTopics rfl)
        (setPhase_congr rfl b .gone)
    | unreachable =>
      obtain ⟨hPhase, rfl⟩ := eq_of_guard hStep
      exact h.release (by simp [hPhase]) hOrderly ((unregisterAll_follows b).sameTopics rfl)
        (setPhase_congr rfl b .gone)
  | close b =>
    rw [step] at hStep
    split at hStep
    · next hPhase =>
      cases hStep
      exact h.release (by simp [hPhase]) (h.idle hPhase) ((Follows.refl s).sameTopics rfl)
        (fun _ => rfl)
    · next task work hPhase =>
      simp only [Option.bind_eq_bind, Option.bind_eq_some_iff, Option.pure_def,
        Option.some.injEq, Prod.exists] at hStep
      obtain ⟨u, more, hTask, rfl⟩ := hStep
      exact h.close hPhase hTask
    · cases hStep
  | abandon b =>
    rw [step] at hStep
    split at hStep
    · next work hPhase =>
      cases hStep
      obtain ⟨hFollows, hBrokers⟩ := forgoAll_follows (s := s) work
      exact h.release (by simp [hPhase]) hOrderly (hFollows.sameTopics rfl)
        (setPhase_congr hBrokers b .gone)
    · cases hStep
  | clean k =>
    rw [step] at hStep
    split at hStep
    · next task work hLoose =>
      simp only [Option.bind_eq_bind, Option.bind_eq_some_iff, Option.pure_def,
        Option.some.injEq, Prod.exists] at hStep
      obtain ⟨u, more, hTask, rfl⟩ := hStep
      obtain ⟨hFollows, hBrokers⟩ := perform_follows hTask
      exact h.follows (hFollows.sameTopics rfl) (phase_congr hBrokers)
    · cases hStep
  | cancel k =>
    simp only [step, Option.bind_eq_bind, Option.bind_eq_some_iff, Option.pure_def,
      Option.some.injEq] at hStep
    obtain ⟨work, -, rfl⟩ := hStep
    obtain ⟨hFollows, hBrokers⟩ := forgoAll_follows (s := s) work
    exact h.follows (hFollows.sameTopics rfl) (phase_congr hBrokers)

theorem empty_inv : empty.Inv := by
  refine ⟨?_, ?_⟩
  · intro b b' hb
    cases hb
  · intro t p c cell hRuns
    have hTopic := hRuns.topic
    cases hTopic

/-- The run lemma. -/
theorem run_inv (h : s.Inv) {events : List DirEvent} (hOrderly : s.RunsOrderly events)
    (hRun : s.run events = some s') : s'.Inv := by
  induction events generalizing s with
  | nil =>
    cases hRun
    exact h
  | cons event events ih =>
    rw [run, Option.bind_eq_bind, Option.bind_eq_some_iff] at hRun
    obtain ⟨u, hStep, hRest⟩ := hRun
    exact ih (step_inv h hOrderly.1 hStep) (hOrderly.2 u hStep) hRest

end DataDir

/-- In an orderly run no writer outlives the lock of its broker, and the running writers of the
directory all belong to one broker. -/
theorem DataDir.writer_holds_lock {s : DataDir} {events : List DirEvent}
    (hRun : DataDir.empty.run events = some s) (hOrderly : DataDir.empty.RunsOrderly events) :
    (∀ t p c cell, s.Runs t p c cell → s.holdsLock c.broker = true) ∧
      ∀ t p c cell t' p' c' cell', s.Runs t p c cell → s.Runs t' p' c' cell' →
        c.broker = c'.broker := by
  have hInv := run_inv empty_inv hOrderly hRun
  have hLocked : ∀ t p c cell, s.Runs t p c cell → s.holdsLock c.broker = true := by
    intro t p c cell hRuns
    have hGuarded := hInv.guarded t p c cell hRuns
    rw [holdsLock_iff]
    intro hGone
    unfold Guarded at hGuarded
    rw [hGone] at hGuarded
    exact hGuarded
  refine ⟨hLocked, ?_⟩
  intro t p c cell t' p' c' cell' hRuns hRuns'
  exact hInv.exclusive _ _ (hLocked t p c cell hRuns) (hLocked t' p' c' cell' hRuns')

/-- A broker is opened, a topic created and a producer bound to it. -/
def withProducer : List DirEvent :=
  [.lock, .opened 0, .create 0 "orders" 1, .topic 0 .hold, .topic 0 (.send 0)]

/-- The producer is dropped before the shutdown, and the directory is opened again. -/
def orderlyReopen : List DirEvent :=
  withProducer ++ [.topic 0 .letGo, .shutdown 0, .close 0, .close 0, .topic 0 (.exit 0), .close 0,
    .close 0, .lock, .recover 1 "orders" 1]

theorem DataDir.writer_holds_lock_reopen :
    ∃ s, DataDir.empty.run orderlyReopen = some s ∧
      ∃ c cell, s.Runs 1 0 c cell ∧ s.holdsLock c.broker = true := by
  have hTopics : (DataDir.empty.run orderlyReopen).map (fun s => s.topics[1]?) =
      some (some ⟨1, "orders", true, 0, [⟨0, true, true⟩]⟩) := by
    decide +kernel
  obtain ⟨s, hRun, hTopic⟩ := Option.map_eq_some_iff.mp hTopics
  have hRuns : s.Runs 1 0 ⟨1, "orders", true, 0, [⟨0, true, true⟩]⟩ ⟨0, true, true⟩ :=
    ⟨hTopic, rfl, rfl⟩
  have hLocked := DataDir.writer_holds_lock hRun (by decide +kernel)
  exact ⟨s, hRun, _, _, hRuns, hLocked.1 1 0 _ _ hRuns⟩

/-- The producer is kept. The first broker is gone, the second one has the lock, and both have a
writer on the same partition directory. -/
theorem DataDir.two_brokers_write_one_partition :
    ∃ s, DataDir.empty.run (withProducer ++ [.shutdown 0, .close 0, .close 0, .lock,
        .recover 1 "orders" 1]) = some s ∧
      ∃ c c' cell cell', s.Runs 0 0 c cell ∧ s.Runs 1 0 c' cell' ∧ c.name = c'.name ∧
        s.holdsLock c.broker = false ∧ c.broker ≠ c'.broker := by
  have hTopics : (DataDir.empty.run (withProducer ++ [.shutdown 0, .close 0, .close 0, .lock,
      .recover 1 "orders" 1])).map (fun s => (s.topics, s.holdsLock 0)) =
        some ([⟨0, "orders", false, 1, [⟨0, true, true⟩]⟩,
          ⟨1, "orders", true, 0, [⟨0, true, true⟩]⟩], false) := by
    decide +kernel
  obtain ⟨s, hRun, hState⟩ := Option.map_eq_some_iff.mp hTopics
  rw [Prod.mk.injEq] at hState
  obtain ⟨hTopics, hLock⟩ := hState
  have hOld : s.Runs 0 0 ⟨0, "orders", false, 1, [⟨0, true, true⟩]⟩ ⟨0, true, true⟩ :=
    ⟨by rw [hTopics]; rfl, rfl, rfl⟩
  have hNew : s.Runs 1 0 ⟨1, "orders", true, 0, [⟨0, true, true⟩]⟩ ⟨0, true, true⟩ :=
    ⟨by rw [hTopics]; rfl, rfl, rfl⟩
  exact ⟨s, hRun, _, _, _, _, hOld, hNew, rfl, hLock, by decide⟩

end Kafko
