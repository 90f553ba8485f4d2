import Kafko.Broker.Contention

/-!
# Calls that create one topic

Any number of `create_topic` calls for one name, with any partition counts. The lookup of the
name and the insert are two critical sections, so two calls can both find the name free, and
then both open a writer in the directory of partition 0. As long as no call finds the name free
while another one is on the way the calls go through three stages: nobody has set out yet, one
of them opens its partitions, and the others learn that the topic exists.
-/

namespace Kafko

open Disk

namespace Contest

/-- The directories of the writers that are running, once for each writer. -/
def liveDirs (s : Contest) : List DirPath :=
  s.topics.flatMap fun topic => (topic.writers.filter fun w => w.running).map fun w => w.place.dir

def Finished (s : Contest) : Prop := ∀ phase ∈ s.calls, ∃ r, phase = .returned r

/-- A call that has not looked the name up yet. -/
def request (r : UInt32 × LogConfig) : CallPhase := .creating r.1 r.2

/-- The name is free, and a call is made for each of the requests. -/
def contenders (t : DirTree FileName) (requests : List (UInt32 × LogConfig)) : Contest :=
  ⟨t, none, [], requests.map request⟩

/-- A call that finds the name free is the only one on the way. -/
def Alone (s : Contest) : ContestStep → Prop
  | .call i _ _ => ∀ partitions config, s.calls[i]? = some (.creating partitions config) →
      partitions ≠ 0 → s.entry = none → ∀ phase ∈ s.calls, ¬ phase.Creates
  | _ => True

/-- No call is in another one's way and the file system does what a call asks for. -/
def InTurn (s : Contest) (a : ContestStep) : Prop :=
  s.Alone a ∧ ∀ i env removal, a = .call i env removal → env.Quiet

variable {X : Crates} {root : DirPath} {name : String} {requests : List (UInt32 × LogConfig)}
  {s s' : Contest}

theorem reaches_plainCall {i : Nat} {phase : CallPhase} (hAlone : s.Alone (plainCall i))
    (hCall : s.calls[i]? = some phase)
    (hStep : s.stepCall X root name i Env.quiet .done phase = some s') :
    Reaches X root name InTurn s s' := by
  apply Relation.ReflTransGen.single
  refine ⟨plainCall i, ⟨hAlone, ?_⟩, Option.bind_eq_some_iff.mpr ⟨phase, hCall, hStep⟩⟩
  intro i' env removal hEq
  cases hEq
  exact Env.quiet_quiet

/-- Exactly the first `n` partitions have their directories, and the topics made so far have
the given partitions. -/
structure Made (root : DirPath) (name : String) (s : Contest) (topics : List Nat) (n : Nat) :
    Prop where
  dirs : s.topics.map TopicValue.dirs = topics.map (partitionDirs root name)
  mem : ∀ k, (root.join name).join (toString k) ∈ s.tree ↔ k < n

/-- The call was made for the request `r`, and has returned or has not begun. -/
def Waits (name : String) (r : UInt32 × LogConfig) (phase : CallPhase) : Prop :=
  phase = request r ∨ phase = .returned (.err (.topicAlreadyExists name))

/-- Nobody has set out yet. -/
structure Idle (root : DirPath) (name : String) (requests : List (UInt32 × LogConfig))
    (s : Contest) : Prop where
  made : Made root name s [] 0
  entry : s.entry = none
  calls : s.calls = requests.map request

/-- Call `i` has opened `k` partitions. -/
structure Opening (root : DirPath) (name : String) (requests : List (UInt32 × LogConfig))
    (s : Contest) (i k : Nat) (r : UInt32 × LogConfig) : Prop where
  request : requests[i]? = some r
  le : k ≤ r.1.toNat
  made : Made root name s [k] k
  entry : s.entry = none
  calls : s.calls = (requests.map Contest.request).set i (.opening 0 r.1.toNat r.2)

/-- Call `i` has created the topic. -/
structure Done (root : DirPath) (name : String) (requests : List (UInt32 × LogConfig))
    (s : Contest) (i : Nat) (r : UInt32 × LogConfig) : Prop where
  request : requests[i]? = some r
  made : Made root name s [r.1.toNat] r.1.toNat
  entry : s.entry = some 0
  length : s.calls.length = requests.length
  winner : s.calls[i]? = some (.returned (.ok ()))
  others : ∀ (j : Nat) (r' : UInt32 × LogConfig) (phase : CallPhase), j ≠ i →
    requests[j]? = some r' → s.calls[j]? = some phase → Waits name r' phase

inductive Stage (root : DirPath) (name : String) (requests : List (UInt32 × LogConfig))
    (s : Contest) : Prop
  | idle (h : Idle root name requests s)
  | opening {i k : Nat} {r : UInt32 × LogConfig} (h : Opening root name requests s i k r)
  | done {i : Nat} {r : UInt32 × LogConfig} (h : Done root name requests s i r)

/-! ## One step -/

theorem Made.keeps {topics : List Nat} {n : Nat} (h : Made root name s topics n)
    (hKeeps : Keeps s s') : Made root name s' topics n :=
  ⟨hKeeps.dirs.trans h.dirs, fun k => (hKeeps.mem _).trans (h.mem k)⟩

/-- The only topic made so far. -/
theorem Made.topic {k n : Nat} (h : Made root name s [k] n) :
    ∃ topic, s.topics = [topic] ∧ topic.dirs = partitionDirs root name k ∧
      topic.writers.length = k := by
  obtain ⟨topic, rest, hTopics, hHead, hRest⟩ := List.map_eq_cons_iff.mp h.dirs
  rw [List.map_nil, List.map_eq_nil_iff] at hRest
  rw [hRest] at hTopics
  exact ⟨topic, hTopics, hHead, TopicValue.length_of_dirs hHead⟩

/-- The next partition is opened in a directory that did not exist. -/
theorem Made.openNext {i k : Nat} {topic : TopicValue} (h : Made root name s [k] k)
    (hTopic : s.topics = [topic])
    (hAway : ∀ j : Nat, (root.join name).join (toString j) ∉ root.wayTo name)
    {env : Env FileName} (hEnv : env.Quiet) (config : LogConfig) :
    ∃ s', s.openNext X root name i 0 topic config env = some s' ∧
      Made root name s' [k + 1] (k + 1) ∧ s'.entry = s.entry ∧ s'.calls = s.calls := by
  obtain ⟨topic', hTopics, hDirs, hLength⟩ := h.topic
  obtain rfl : topic' = topic := by simpa [hTopic] using hTopics.symm
  have hAbsent : (root.join name).join (toString k) ∉ s.tree := fun hIn =>
    lt_irrefl k ((h.mem k).mp hIn)
  have hFresh : Fresh (s.tree.filesAt ((root.join name).join (toString k))) := by
    intro file
    rw [DirTree.filesAt, AList.lookup_eq_none.mpr hAbsent]
    rfl
  unfold Contest.openNext
  rw [hLength]
  dsimp only
  rcases hOpen : openPartition X config env
    (root.wayTo name ++ [(root.join name).join (toString k)])
    ((root.join name).join (toString k)) s.tree with ⟨r, t⟩
  have hHere : (root.join name).join (toString k) ∈
      root.wayTo name ++ [(root.join name).join (toString k)] :=
    List.mem_append_right _ (List.mem_singleton_self _)
  have hEnds := openPartition_spec (Or.inl hFresh) hHere hOpen
  cases r with
  | err e => exact absurd hEnv.steady hEnds
  | panic m => exact False.elim hEnds
  | crash => exact absurd hEnv.alive hEnds.1
  | ok p =>
    obtain ⟨hDir, hAll⟩ := openPartition_made hOpen
    refine ⟨_, rfl, ⟨?_, ?_⟩, rfl, rfl⟩
    · show ((s.topics.set 0 _).map TopicValue.dirs) = [partitionDirs root name (k + 1)]
      rw [hTopic]
      show [TopicValue.dirs _] = _
      rw [TopicValue.dirs_push, hDirs, hDir, partitionDirs_succ]
    · intro j
      constructor
      · intro hIn
        rcases mem_of_openPartition hOpen hHere hIn with hOld | hWay
        · have := (h.mem j).mp hOld
          omega
        · rcases List.mem_append.mp hWay with hWay | hNew
          · exact absurd hWay (hAway j)
          · have := partitionDir_inj (List.mem_singleton.mp hNew)
            omega
      · intro hLt
        rcases Nat.lt_succ_iff_lt_or_eq.mp hLt with hLt | rfl
        · exact openPartition_kept hOpen ((h.mem j).mpr hLt)
        · exact hAll _ hHere

/-- The call that finds the name free sets out. -/
theorem Idle.lookUp {i : Nat} {r : UInt32 × LogConfig} (h : Idle root name requests s)
    (hRequest : requests[i]? = some r) (hPos : r.1 ≠ 0) :
    Opening root name requests (s.lookUp name i r.1 r.2) i 0 r := by
  have hTopics : s.topics = [] := List.map_eq_nil_iff.mp h.made.dirs
  unfold Contest.lookUp
  rw [if_neg hPos, h.entry]
  refine ⟨hRequest, Nat.zero_le _, ⟨?_, h.made.mem⟩, h.entry, ?_⟩
  · show (s.topics ++ [TopicValue.mk [] 0]).map TopicValue.dirs = [partitionDirs root name 0]
    rw [hTopics]
    rfl
  · show s.calls.set i (.opening s.topics.length _ _) = _
    rw [h.calls, hTopics]
    rfl

namespace Opening

variable {i k : Nat} {r : UInt32 × LogConfig}

theorem call (h : Opening root name requests s i k r) :
    s.calls[i]? = some (.opening 0 r.1.toNat r.2) := by
  have hIn := (List.getElem?_eq_some_iff.mp h.request).1
  rw [h.calls, List.getElem?_set_self (by rwa [List.length_map])]

/-- All partitions are open and the topic is registered. -/
theorem insertTopic (h : Opening root name requests s i r.1.toNat r) :
    Done root name requests (s.insertTopic name i 0) i r := by
  have hNote : s.calls.map (CallPhase.note 0) = s.calls := by
    rw [h.calls, List.map_set, List.map_map]
    rfl
  have hIn := (List.getElem?_eq_some_iff.mp h.request).1
  have hAfter : s.calls.set i (.returned (.ok ())) =
      (requests.map Contest.request).set i (.returned (.ok ())) := by
    rw [h.calls, List.set_set]
  unfold Contest.insertTopic
  rw [h.entry, hNote]
  refine ⟨h.request, ⟨h.made.dirs, h.made.mem⟩, rfl, ?_, ?_, ?_⟩
  · rw [hAfter, List.length_set, List.length_map]
  · rw [hAfter, List.getElem?_set_self (by rwa [List.length_map])]
  · intro j r' phase hNe hOther hPhase
    rw [hAfter, List.getElem?_set_ne (Ne.symm hNe), List.getElem?_map, hOther] at hPhase
    cases hPhase
    exact Or.inl rfl

/-- The call that has set out opens a partition or registers the topic. -/
theorem stepCall (h : Opening root name requests s i k r)
    (hAway : ∀ j : Nat, (root.join name).join (toString j) ∉ root.wayTo name)
    {env : Env FileName} (hEnv : env.Quiet) (removal : Removal) :
    ∃ s', s.stepCall X root name i env removal (.opening 0 r.1.toNat r.2) = some s' ∧
      (k < r.1.toNat ∧ Opening root name requests s' i (k + 1) r ∨
        Done root name requests s' i r) := by
  obtain ⟨topic, hTopics, -, hLength⟩ := h.made.topic
  have hBody : s.stepCall X root name i env removal (.opening 0 r.1.toNat r.2) =
      if topic.writers.length < r.1.toNat then s.openNext X root name i 0 topic r.2 env
      else some (s.insertTopic name i 0) := by
    show (s.topics[0]? >>= fun topic => _) = _
    rw [hTopics]
    rfl
  rw [hBody, hLength]
  split
  · next hLt =>
    obtain ⟨s', hStep, hMade, hEntry, hCalls⟩ :=
      h.made.openNext (X := X) (i := i) hTopics hAway hEnv r.2
    refine ⟨s', hStep, Or.inl ⟨hLt, ?_⟩⟩
    exact ⟨h.request, hLt, hMade, hEntry.trans h.entry, hCalls.trans h.calls⟩
  · next hGe =>
    obtain rfl : k = r.1.toNat := le_antisymm h.le (not_lt.mp hGe)
    exact ⟨_, rfl, Or.inr h.insertTopic⟩

end Opening

/-- A call that comes late learns that the topic exists. -/
theorem Done.lookUp {i j : Nat} {r r' : UInt32 × LogConfig} (h : Done root name requests s i r)
    (hNe : j ≠ i) (hPos : r'.1 ≠ 0) :
    s.lookUp name j r'.1 r'.2 = s.setCall j (.returned (.err (.topicAlreadyExists name))) ∧
      Done root name requests (s.setCall j (.returned (.err (.topicAlreadyExists name)))) i r := by
  constructor
  · unfold Contest.lookUp
    rw [if_neg hPos, h.entry]
  · refine ⟨h.request, ⟨h.made.dirs, h.made.mem⟩, h.entry, ?_, ?_, ?_⟩
    · show (s.calls.set j _).length = _
      rw [List.length_set, h.length]
    · show (s.calls.set j _)[i]? = _
      rw [List.getElem?_set_ne hNe, h.winner]
    · intro k r'' phase hOther hRequest hPhase
      rcases getElem?_set_cases hPhase with ⟨-, rfl⟩ | ⟨-, hPhase⟩
      · exact Or.inr rfl
      · exact h.others k r'' phase hOther hRequest hPhase

theorem Stage.keeps (h : Stage root name requests s) (hKeeps : Keeps s s') :
    Stage root name requests s' := by
  cases h with
  | idle h =>
    exact .idle ⟨h.made.keeps hKeeps, hKeeps.entry.trans h.entry, hKeeps.calls.trans h.calls⟩
  | opening h =>
    exact .opening ⟨h.request, h.le, h.made.keeps hKeeps, hKeeps.entry.trans h.entry,
      hKeeps.calls.trans h.calls⟩
  | done h =>
    refine .done ⟨h.request, h.made.keeps hKeeps, hKeeps.entry.trans h.entry, ?_, ?_, ?_⟩
    · rw [hKeeps.calls, h.length]
    · rw [hKeeps.calls, h.winner]
    · rw [hKeeps.calls]
      exact h.others

section Turns

variable (hPos : ∀ r ∈ requests, r.1 ≠ 0)
  (hAway : ∀ j : Nat, (root.join name).join (toString j) ∉ root.wayTo name)

include hPos hAway

theorem Stage.stepCall (h : Stage root name requests s) {i : Nat} {env : Env FileName}
    {removal : Removal} {phase : CallPhase} (hCall : s.calls[i]? = some phase)
    (hAlone : s.Alone (.call i env removal)) (hEnv : env.Quiet)
    (hStep : s.stepCall X root name i env removal phase = some s') :
    Stage root name requests s' := by
  cases h with
  | idle h =>
    rw [h.calls, List.getElem?_map] at hCall
    obtain ⟨r, hRequest, rfl⟩ := Option.map_eq_some_iff.mp hCall
    cases hStep
    exact .opening (h.lookUp hRequest (hPos r (List.mem_of_getElem? hRequest)))
  | @opening i₀ k r h =>
    by_cases hEq : i = i₀
    · subst hEq
      rw [h.call] at hCall
      cases hCall
      obtain ⟨s₁, hStep₁, hNext⟩ := h.stepCall (X := X) hAway hEnv removal
      obtain rfl : s₁ = s' := Option.some.inj (hStep₁.symm.trans hStep)
      rcases hNext with ⟨-, hOpening⟩ | hDone
      · exact .opening hOpening
      · exact .done hDone
    · -- Any other call would find the name free.
      have hPhase := hCall
      rw [h.calls, List.getElem?_set_ne (Ne.symm hEq), List.getElem?_map] at hPhase
      obtain ⟨r', hRequest, rfl⟩ := Option.map_eq_some_iff.mp hPhase
      have hCalm := hAlone r'.1 r'.2 hCall (hPos r' (List.mem_of_getElem? hRequest)) h.entry
      exact absurd trivial (hCalm _ (List.mem_of_getElem? h.call))
  | @done i₀ r h =>
    by_cases hEq : i = i₀
    · subst hEq
      rw [h.winner] at hCall
      cases hCall
      cases hStep
    · have hIn : i < requests.length := by
        rw [← h.length]
        exact (List.getElem?_eq_some_iff.mp hCall).1
      have hRequest := List.getElem?_eq_getElem hIn
      rcases h.others i _ phase hEq hRequest hCall with rfl | rfl
      · obtain ⟨hLate, hDone⟩ := h.lookUp hEq (hPos _ (List.getElem_mem hIn))
        obtain rfl : _ = s' := Option.some.inj hStep
        rw [hLate]
        exact .done hDone
      · cases hStep

theorem Stage.step (h : Stage root name requests s) {a : ContestStep} (hTurn : s.InTurn a)
    (hStep : s.step X root name a = some s') : Stage root name requests s' := by
  by_cases hOther : ∀ i env removal, a ≠ .call i env removal
  · exact h.keeps (step_keeps hOther hStep)
  · push Not at hOther
    obtain ⟨i, env, removal, rfl⟩ := hOther
    obtain ⟨phase, hCall, hStep⟩ := Option.bind_eq_some_iff.mp hStep
    exact h.stepCall hPos hAway hCall hTurn.1 (hTurn.2 i env removal rfl) hStep

theorem Stage.reaches (h : Stage root name requests s)
    (hReach : Reaches X root name InTurn s s') : Stage root name requests s' := by
  induction hReach with
  | refl => exact h
  | tail _ hLast ih =>
    obtain ⟨a, hTurn, hStep⟩ := hLast
    exact ih.step hPos hAway hTurn hStep

omit hPos in
/-- A call that has set out can be brought to its end. -/
theorem Opening.finishes {s : Contest} {i k : Nat} {r : UInt32 × LogConfig}
    (h : Opening root name requests s i k r) :
    ∃ s', Reaches X root name InTurn s s' ∧ Done root name requests s' i r := by
  obtain ⟨s₁, hStep, hNext⟩ := h.stepCall (X := X) hAway Env.quiet_quiet .done
  have hAlone : s.Alone (plainCall i) := by
    intro partitions config hCall
    rw [h.call] at hCall
    cases hCall
  have hFirst : Reaches X root name InTurn s s₁ := reaches_plainCall hAlone h.call hStep
  rcases hNext with ⟨hLt, hMore⟩ | hDone
  · obtain ⟨s', hRest, hDone⟩ := hMore.finishes
    exact ⟨s', hFirst.trans hRest, hDone⟩
  · exact ⟨s₁, hFirst, hDone⟩
termination_by r.1.toNat - k

omit hAway in
/-- Once the topic is registered every other call can be brought to its end. -/
theorem Done.finishes {i : Nat} {r : UInt32 × LogConfig} (h : Done root name requests s i r)
    (n : Nat) (hLe : n ≤ requests.length) :
    ∃ s', Reaches X root name InTurn s s' ∧ Done root name requests s' i r ∧
      ∀ j < n, ∃ res, s'.calls[j]? = some (.returned res) := by
  induction n with
  | zero => exact ⟨s, Relation.ReflTransGen.refl, h, fun j hj => absurd hj (Nat.not_lt_zero j)⟩
  | succ n ih =>
    obtain ⟨s₁, hReach, hDone, hBefore⟩ := ih (Nat.le_of_succ_le hLe)
    have hIn : n < requests.length := hLe
    have hInCalls : n < s₁.calls.length := by rwa [hDone.length]
    have hCall : s₁.calls[n]? = some s₁.calls[n] := List.getElem?_eq_getElem hInCalls
    have hNext : ∀ {s₂ : Contest}, (∃ res, s₂.calls[n]? = some (.returned res)) →
        (∀ j < n, ∃ res, s₂.calls[j]? = some (.returned res)) →
        ∀ j < n + 1, ∃ res, s₂.calls[j]? = some (.returned res) := by
      intro s₂ hLast hOld j hj
      rcases Nat.lt_succ_iff_lt_or_eq.mp hj with hj | rfl
      · exact hOld j hj
      · exact hLast
    by_cases hEq : n = i
    · exact ⟨s₁, hReach, hDone, hNext ⟨_, hEq ▸ hDone.winner⟩ hBefore⟩
    rcases hDone.others n _ _ hEq (List.getElem?_eq_getElem hIn) hCall with hWaits | hOver
    · obtain ⟨hLate, hDone₂⟩ := hDone.lookUp hEq (hPos _ (List.getElem_mem hIn))
      rw [hWaits] at hCall
      have hAlone : s₁.Alone (plainCall n) := by
        intro partitions config _ _ hFree
        rw [hDone.entry] at hFree
        cases hFree
      have hLast : Reaches X root name InTurn s₁
          (s₁.setCall n (.returned (.err (.topicAlreadyExists name)))) :=
        reaches_plainCall hAlone hCall (congrArg some hLate)
      refine ⟨_, hReach.trans hLast, hDone₂, hNext ⟨_, List.getElem?_set_self hInCalls⟩ ?_⟩
      intro j hj
      obtain ⟨res, hRes⟩ := hBefore j hj
      exact ⟨res, (List.getElem?_set_ne (Nat.ne_of_gt hj)).trans hRes⟩
    · rw [hOver] at hCall
      exact ⟨s₁, hReach, hDone, hNext ⟨_, hCall⟩ hBefore⟩

/-- Whatever stage the calls are in, all of them can be brought to their ends. -/
theorem Stage.finishes (h : Stage root name requests s) :
    ∃ s', Reaches X root name InTurn s s' ∧ s'.Finished := by
  have hDone : ∀ {s : Contest} {i : Nat} {r : UInt32 × LogConfig},
      Done root name requests s i r → ∃ s', Reaches X root name InTurn s s' ∧ s'.Finished := by
    intro s i r hDone
    obtain ⟨s', hReach, hDone', hAll⟩ := hDone.finishes (X := X) hPos _ le_rfl
    refine ⟨s', hReach, ?_⟩
    intro phase hPhase
    obtain ⟨j, hj⟩ := List.mem_iff_getElem?.mp hPhase
    obtain ⟨res, hRes⟩ := hAll j (hDone'.length ▸ (List.getElem?_eq_some_iff.mp hj).1)
    rw [hj] at hRes
    exact ⟨res, Option.some.inj hRes⟩
  have hOpening : ∀ {s : Contest} {i k : Nat} {r : UInt32 × LogConfig},
      Opening root name requests s i k r →
      ∃ s', Reaches X root name InTurn s s' ∧ s'.Finished := by
    intro s i k r hOpening
    obtain ⟨s₁, hReach, hOver⟩ := hOpening.finishes (X := X) hAway
    obtain ⟨s', hRest, hFinished⟩ := hDone hOver
    exact ⟨s', hReach.trans hRest, hFinished⟩
  cases h with
  | done h => exact hDone h
  | opening h => exact hOpening h
  | idle h =>
    cases requests with
    | nil =>
      refine ⟨s, Relation.ReflTransGen.refl, ?_⟩
      intro phase hPhase
      rw [h.calls] at hPhase
      cases hPhase
    | cons r rest =>
      have hCall : s.calls[0]? = some (request r) := by
        rw [h.calls]
        rfl
      have hAlone : s.Alone (plainCall 0) := by
        intro _ _ _ _ _ phase hPhase
        rw [h.calls] at hPhase
        obtain ⟨r', -, rfl⟩ := List.mem_map.mp hPhase
        exact id
      have hOut := h.lookUp (i := 0) rfl (hPos r List.mem_cons_self)
      obtain ⟨s', hRest, hFinished⟩ := hOpening hOut
      exact ⟨s', (reaches_plainCall hAlone hCall rfl).trans hRest, hFinished⟩

end Turns

/-! ## Whole runs -/

theorem Made.liveDirs_nodup {topics : List Nat} {n : Nat} (h : Made root name s topics n)
    (hOne : topics.length ≤ 1) : s.liveDirs.Nodup := by
  cases topics with
  | nil =>
    have hTopics : s.topics = [] := List.map_eq_nil_iff.mp h.dirs
    rw [liveDirs, hTopics]
    exact List.nodup_nil
  | cons k rest =>
    obtain rfl : rest = [] := by
      rw [List.length_cons] at hOne
      exact List.eq_nil_of_length_eq_zero (by omega)
    obtain ⟨topic, hTopics, hDirs, -⟩ := h.topic
    have hAll : topic.dirs.Nodup := by
      rw [hDirs]
      exact List.nodup_range.map fun _ _ => partitionDir_inj
    rw [liveDirs, hTopics, List.flatMap_singleton]
    exact List.Nodup.sublist (List.filter_sublist.map _) hAll

/-- What the calls have returned and made, at any stage. -/
structure Fair (root : DirPath) (name : String) (requests : List (UInt32 × LogConfig))
    (s : Contest) : Prop where
  /-- No two running writers own one directory. -/
  writers : s.liveDirs.Nodup
  results : ∀ res, .returned res ∈ s.calls → res = .ok () ∨ res = .err (.topicAlreadyExists name)
  /-- At most one call returns `Ok`, and then the directories are those it asked for. -/
  winner : ∀ (i : Nat) (r : UInt32 × LogConfig), requests[i]? = some r →
    s.calls[i]? = some (.returned (.ok ())) →
    (∀ j : Nat, s.calls[j]? = some (.returned (.ok ())) → j = i) ∧
      ∀ k : Nat, (root.join name).join (toString k) ∈ s.tree ↔ k < r.1.toNat
  /-- When all calls have returned one of them has returned `Ok`. -/
  someone : s.Finished → requests ≠ [] → ∃ i : Nat, s.calls[i]? = some (.returned (.ok ()))

theorem Idle.fair (h : Idle root name requests s) : Fair root name requests s := by
  have hNone : ∀ res, .returned res ∉ s.calls := by
    intro res hMem
    rw [h.calls] at hMem
    obtain ⟨r, -, hEq⟩ := List.mem_map.mp hMem
    cases hEq
  refine ⟨h.made.liveDirs_nodup (Nat.zero_le 1), ?_, ?_, ?_⟩
  · exact fun res hMem => absurd hMem (hNone res)
  · exact fun i r _ hOk => absurd (List.mem_of_getElem? hOk) (hNone _)
  · intro hFinished hSome
    obtain ⟨r, hr⟩ := List.exists_mem_of_ne_nil _ hSome
    obtain ⟨res, hRes⟩ := hFinished (request r) (h.calls ▸ List.mem_map_of_mem hr)
    cases hRes

theorem Opening.fair {i k : Nat} {r : UInt32 × LogConfig}
    (h : Opening root name requests s i k r) : Fair root name requests s := by
  have hNone : ∀ res, .returned res ∉ s.calls := by
    intro res hMem
    rw [h.calls] at hMem
    rcases List.mem_or_eq_of_mem_set hMem with hMem | hEq
    · obtain ⟨r, -, hEq⟩ := List.mem_map.mp hMem
      cases hEq
    · cases hEq
  refine ⟨h.made.liveDirs_nodup le_rfl, ?_, ?_, ?_⟩
  · exact fun res hMem => absurd hMem (hNone res)
  · exact fun j r' _ hOk => absurd (List.mem_of_getElem? hOk) (hNone _)
  · intro hFinished _
    obtain ⟨res, hRes⟩ := hFinished _ (List.mem_of_getElem? h.call)
    cases hRes

theorem Done.fair {i : Nat} {r : UInt32 × LogConfig} (h : Done root name requests s i r) :
    Fair root name requests s := by
  have hOther : ∀ (j : Nat) (res : Res KafkoError Unit), j ≠ i →
      s.calls[j]? = some (.returned res) → res = .err (.topicAlreadyExists name) := by
    intro j res hNe hCall
    have hIn : j < requests.length := h.length ▸ (List.getElem?_eq_some_iff.mp hCall).1
    rcases h.others j _ _ hNe (List.getElem?_eq_getElem hIn) hCall with hEq | hEq
    · cases hEq
    · cases hEq
      rfl
  have hOnly : ∀ j : Nat, s.calls[j]? = some (.returned (.ok ())) → j = i := by
    intro j hOk
    by_contra hNe
    have hErr := hOther j (.ok ()) hNe hOk
    cases hErr
  refine ⟨h.made.liveDirs_nodup le_rfl, ?_, ?_, ?_⟩
  · intro res hMem
    obtain ⟨j, hj⟩ := List.mem_iff_getElem?.mp hMem
    by_cases hEq : j = i
    · rw [hEq, h.winner] at hj
      cases hj
      exact Or.inl rfl
    · exact Or.inr (hOther j res hEq hj)
  · intro j r' hRequest hOk
    obtain rfl := hOnly j hOk
    rw [h.request] at hRequest
    cases hRequest
    exact ⟨hOnly, h.made.mem⟩
  · exact fun _ _ => ⟨i, h.winner⟩

/-- Calls that create one topic, none of which finds the name free while another one is on the
way: no directory ever has two writers, one call creates the topic with exactly the partitions
it asked for, and the others are told that it exists. -/
theorem creations_in_turn {t : DirTree FileName} (hPos : ∀ r ∈ requests, r.1 ≠ 0)
    (hAway : ∀ j : Nat, (root.join name).join (toString j) ∉ root.wayTo name)
    (hNew : ∀ j : Nat, (root.join name).join (toString j) ∉ t)
    (hReach : Reaches X root name InTurn (contenders t requests) s) :
    Fair root name requests s ∧ ∃ s', Reaches X root name InTurn s s' ∧ s'.Finished := by
  have hStart : Idle root name requests (contenders t requests) :=
    ⟨⟨rfl, fun k => iff_of_false (hNew k) (Nat.not_lt_zero k)⟩, rfl, rfl⟩
  have hStage := (Stage.idle hStart).reaches hPos hAway hReach
  refine ⟨?_, hStage.finishes hPos hAway⟩
  cases hStage with
  | idle h => exact h.fair
  | opening h => exact h.fair
  | done h => exact h.fair

/-- Three calls for one name, with different partition counts. -/
def threeRequests : List (UInt32 × LogConfig) := [(2, .default), (1, .default), (3, .default)]

theorem creations_in_turn_orders :
    ∃ s, Reaches Crates.uncompressed ["data"] "orders" InTurn (contenders ∅ threeRequests) s ∧
      s.Finished ∧ s.liveDirs.Nodup ∧ ∃ i : Nat, s.calls[i]? = some (.returned (.ok ())) := by
  have hPos : ∀ r ∈ threeRequests, r.1 ≠ 0 := by decide
  have hPlain : PlainName "orders" := by decide +kernel
  have hAway : ∀ j : Nat, (DirPath.join ["data"] "orders").join (toString j) ∉
      DirPath.wayTo ["data"] "orders" := by
    intro j
    rw [(PlainName.toString j).join, hPlain.join, hPlain.wayTo]
    simp
  have hNew : ∀ j : Nat, (DirPath.join ["data"] "orders").join (toString j) ∉
      (∅ : DirTree FileName) :=
    fun j => AList.notMem_empty _
  obtain ⟨-, s, hReach, hFinished⟩ := creations_in_turn (X := Crates.uncompressed) hPos hAway hNew
    Relation.ReflTransGen.refl
  have hFair := (creations_in_turn hPos hAway hNew hReach).1
  exact ⟨s, hReach, hFinished, hFair.writers, hFair.someone hFinished (by simp [threeRequests])⟩

/-- Two calls both find the name free, and both have a writer running in the directory of
partition 0. -/
theorem creations_share_directory :
    ∃ s, Reaches Crates.uncompressed ["data"] "orders" (fun _ _ => True)
        (contenders ∅ [(1, .default), (1, .default)]) s ∧
      s.liveDirs = [["data", "orders", "0"], ["data", "orders", "0"]] := by
  have hRun : ((contenders ∅ [(1, .default), (1, .default)]).run Crates.uncompressed ["data"]
      "orders" (fun _ _ => True) [plainCall 0, plainCall 1, plainCall 0, plainCall 1]).map
        liveDirs = some [["data", "orders", "0"], ["data", "orders", "0"]] := by
    decide +kernel
  obtain ⟨s, hSteps, hDirs⟩ := Option.map_eq_some_iff.mp hRun
  exact ⟨s, reaches_of_run hSteps, hDirs⟩

end Contest

end Kafko
