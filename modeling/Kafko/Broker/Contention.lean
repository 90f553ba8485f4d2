import Kafko.Broker.Recovery

/-!
# Calls for one topic name that overlap

`create_topic_inner` looks the name up under the read lock, opens the partitions without any
lock and inserts the topic under the write lock. `delete_topic` takes the entry out under the
write lock and then works without it: it tries to unwrap the `Arc`, and either shuts the topic
down and removes its directory or puts the entry back. Between any two of these steps every
other call may take steps of its own.

A `Contest` is all that these calls share for one name: the directories, the entry of the
registry and the topics that were ever constructed, with their writers. A call that deletes
remembers which topics were registered since it has taken its own out.
-/

namespace Kafko

open Disk

structure WriterTask where
  place : PlacedLog
  running : Bool
  /-- `Arc`s of the partition held outside the topic. -/
  handles : Nat

/-- A `Topic` value. -/
structure TopicValue where
  /-- The writers of the partitions opened so far. -/
  writers : List WriterTask
  /-- `Arc`s held by producers, consumers and callers. -/
  handles : Nat

/-- Where a call stands. -/
inductive CallPhase
  /-- `create_topic` before it looks the name up. -/
  | creating (partitions : UInt32) (config : LogConfig)
  /-- In `Topic::create` or before the insert. -/
  | opening (id count : Nat) (config : LogConfig)
  /-- `delete_topic` before it takes the entry. -/
  | deleting
  /-- The entry is taken; `since` lists the topics registered after that. -/
  | taken (id : Nat) (since : List Nat)
  /-- In `Topic::shutdown`, before partition `k`. -/
  | closing (id k : Nat) (since : List Nat)
  | removing (id : Nat) (since : List Nat)
  | restoring (id : Nat) (since : List Nat)
  | returned (r : Res KafkoError Unit)
deriving DecidableEq

namespace CallPhase

/-- `create_topic` has found the name free and has not returned. -/
def Creates : CallPhase → Prop
  | opening _ _ _ => True
  | _ => False

/-- `delete_topic` has taken the entry and has not returned. -/
def Deletes : CallPhase → Prop
  | taken _ _ => True
  | closing _ _ _ => True
  | removing _ _ => True
  | restoring _ _ => True
  | _ => False

/-- The call holds partition `k` of the topic. -/
def Holds (id k : Nat) : CallPhase → Prop
  | opening id' _ _ => id' = id
  | taken id' _ => id' = id
  | closing id' k' _ => id' = id ∧ k' ≤ k
  | restoring id' _ => id' = id
  | _ => False

/-- The topics registered since the call has taken the entry. -/
def since : CallPhase → List Nat
  | taken _ since => since
  | closing _ _ since => since
  | removing _ since => since
  | restoring _ since => since
  | _ => []

/-- A topic is registered. -/
def note (id : Nat) : CallPhase → CallPhase
  | taken id' since => taken id' (id :: since)
  | closing id' k since => closing id' k (id :: since)
  | removing id' since => removing id' (id :: since)
  | restoring id' since => restoring id' (id :: since)
  | phase => phase

instance (phase : CallPhase) : Decidable phase.Creates := by
  cases phase <;> unfold Creates <;> infer_instance

instance (phase : CallPhase) : Decidable phase.Deletes := by
  cases phase <;> unfold Deletes <;> infer_instance

instance (id k : Nat) (phase : CallPhase) : Decidable (phase.Holds id k) := by
  cases phase <;> unfold Holds <;> infer_instance

end CallPhase

structure Contest where
  tree : DirTree FileName
  /-- The topic registered under the name. -/
  entry : Option Nat
  /-- All topics that were ever constructed. -/
  topics : List TopicValue
  calls : List CallPhase

inductive ContestStep
  /-- A call takes its next step. -/
  | call (i : Nat) (env : Env FileName) (removal : Removal)
  /-- `topic`, `producer_for` or `consumer_for` finds the topic. -/
  | acquire
  /-- A handle is cloned. -/
  | share (id : Nat)
  | release (id : Nat)
  /-- The `Arc` of a partition is cloned. -/
  | lend (id k : Nat)
  | giveBack (id k : Nat)
  /-- A writer performs an operation. -/
  | operate (id k : Nat) (op : LogOp) (env : Env FileName)
  /-- The writer of a dropped partition syncs and ends. -/
  | exit (id k : Nat) (env : Env FileName)

namespace Contest

def setCall (s : Contest) (i : Nat) (phase : CallPhase) : Contest :=
  { s with calls := s.calls.set i phase }

def setTopic (s : Contest) (id : Nat) (topic : TopicValue) : Contest :=
  { s with topics := s.topics.set id topic }

def setWriter (s : Contest) (id : Nat) (topic : TopicValue) (k : Nat) (w : WriterTask) : Contest :=
  s.setTopic id { topic with writers := topic.writers.set k w }

/-- Nobody can reach partition `k` of the topic any more. -/
def Dropped (s : Contest) (id k : Nat) (topic : TopicValue) (w : WriterTask) : Prop :=
  s.entry ≠ some id ∧ topic.handles = 0 ∧ w.handles = 0 ∧ ∀ phase ∈ s.calls, ¬ phase.Holds id k

instance (s : Contest) (id k : Nat) (topic : TopicValue) (w : WriterTask) :
    Decidable (s.Dropped id k topic w) :=
  inferInstanceAs (Decidable (_ ∧ _ ∧ _ ∧ _))

/-- `create_topic_inner` up to `Topic::create`. -/
def lookUp (name : String) (s : Contest) (i : Nat) (partitions : UInt32) (config : LogConfig) :
    Contest :=
  if partitions = 0 then s.setCall i (.returned (.err (.invalidPartitionCount 0)))
  else match s.entry with
    | some _ => s.setCall i (.returned (.err (.topicAlreadyExists name)))
    | none =>
      { s.setCall i (.opening s.topics.length partitions.toNat config) with
        topics := s.topics ++ [⟨[], 0⟩] }

/-- Opens the next partition. -/
def openNext (X : Crates) (root : DirPath) (name : String) (s : Contest) (i id : Nat)
    (topic : TopicValue) (config : LogConfig) (env : Env FileName) : Option Contest :=
  let dir := (root.join name).join (toString topic.writers.length)
  match openPartition X config env (root.wayTo name ++ [dir]) dir s.tree with
  | (.ok p, t) =>
    some { s.setTopic id { topic with writers := topic.writers ++ [⟨p, true, 0⟩] } with tree := t }
  | (.err e, t) => some { s.setCall i (.returned (.err e)) with tree := t }
  | (.panic m, t) => some { s.setCall i (.returned (.panic m)) with tree := t }
  | (.crash, _) => none

/-- The second lookup and the insert, under the write lock. -/
def insertTopic (name : String) (s : Contest) (i id : Nat) : Contest :=
  match s.entry with
  | some _ => s.setCall i (.returned (.err (.topicAlreadyExists name)))
  | none =>
    { s with
      entry := some id
      calls := (s.calls.map (CallPhase.note id)).set i (.returned (.ok ())) }

/-- `Topic::shutdown` at partition `k`: a partition still referenced elsewhere is left
running. -/
def closeNext (X : Crates) (s : Contest) (i id k : Nat) (since : List Nat) (topic : TopicValue)
    (env : Env FileName) : Option Contest :=
  match topic.writers[k]? with
  | none => some (s.setCall i (.removing id since))
  | some w =>
    if 0 < w.handles then some (s.setCall i (.closing id (k + 1) since))
    else match w.place.operate X .sync env s.tree with
      | (true, _, _) => none
      | (false, _, t) =>
        some { (s.setWriter id topic k { w with running := false }).setCall i
          (.closing id (k + 1) since) with tree := t }

/-- `remove_dir_all` on the directory of the name. -/
def removeTopicDir (root : DirPath) (name : String) (s : Contest) (i : Nat) (removal : Removal) :
    Option Contest :=
  if root.join name ∉ s.tree then some (s.setCall i (.returned (.err (.io .notFound))))
  else match removal.result with
    | .crash => none
    | r => some { s.setCall i (.returned r) with
        tree := s.tree.removeDirAll (root.join name) removal.left }

/-- The next step of a call. A run ends where the machine stops. -/
def stepCall (X : Crates) (root : DirPath) (name : String) (s : Contest) (i : Nat)
    (env : Env FileName) (removal : Removal) : CallPhase → Option Contest
  | .creating partitions config => some (s.lookUp name i partitions config)
  | .opening id count config => do
    let topic ← s.topics[id]?
    if topic.writers.length < count then s.openNext X root name i id topic config env
    else some (s.insertTopic name i id)
  | .deleting =>
    match s.entry with
    | none => some (s.setCall i (.returned (.err (.topicNotFound name))))
    | some id => some { s.setCall i (.taken id []) with entry := none }
  | .taken id since => do
    let topic ← s.topics[id]?
    if topic.handles = 0 then some (s.setCall i (.closing id 0 since))
    else some (s.setCall i (.restoring id since))
  | .closing id k since => do
    let topic ← s.topics[id]?
    s.closeNext X i id k since topic env
  | .removing _ _ => s.removeTopicDir root name i removal
  | .restoring id _ =>
    some { s.setCall i (.returned (.err (.topicInUse name))) with entry := some id }
  | .returned _ => none

def step (X : Crates) (root : DirPath) (name : String) (s : Contest) : ContestStep → Option Contest
  | .call i env removal => do
    let phase ← s.calls[i]?
    s.stepCall X root name i env removal phase
  | .acquire => do
    let id ← s.entry
    let topic ← s.topics[id]?
    pure (s.setTopic id { topic with handles := topic.handles + 1 })
  | .share id => do
    let topic ← s.topics[id]?
    guard (0 < topic.handles)
    pure (s.setTopic id { topic with handles := topic.handles + 1 })
  | .release id => do
    let topic ← s.topics[id]?
    guard (0 < topic.handles)
    pure (s.setTopic id { topic with handles := topic.handles - 1 })
  | .lend id k => do
    let topic ← s.topics[id]?
    let w ← topic.writers[k]?
    guard (0 < topic.handles ∨ 0 < w.handles)
    pure (s.setWriter id topic k { w with handles := w.handles + 1 })
  | .giveBack id k => do
    let topic ← s.topics[id]?
    let w ← topic.writers[k]?
    guard (0 < w.handles)
    pure (s.setWriter id topic k { w with handles := w.handles - 1 })
  | .operate id k op env => do
    let topic ← s.topics[id]?
    let w ← topic.writers[k]?
    guard (w.running = true)
    match w.place.operate X op env s.tree with
    | (true, _, _) => none
    | (false, p, t) => pure { s.setWriter id topic k { w with place := p } with tree := t }
  | .exit id k env => do
    let topic ← s.topics[id]?
    let w ← topic.writers[k]?
    guard (w.running = true ∧ s.Dropped id k topic w)
    match w.place.operate X .sync env s.tree with
    | (true, _, _) => none
    | (false, _, t) => pure { s.setWriter id topic k { w with running := false } with tree := t }

/-- The step of a call to which nothing happens. -/
def plainCall (i : Nat) : ContestStep := .call i Env.quiet .done

/-- Runs whose steps all satisfy a condition. -/
def Reaches (X : Crates) (root : DirPath) (name : String) (meets : Contest → ContestStep → Prop) :
    Contest → Contest → Prop :=
  Relation.ReflTransGen fun s s' => ∃ a, meets s a ∧ s.step X root name a = some s'

/-- Takes the steps as long as they satisfy the condition. -/
def run (X : Crates) (root : DirPath) (name : String) (meets : Contest → ContestStep → Prop)
    [∀ s a, Decidable (meets s a)] (s : Contest) : List ContestStep → Option Contest
  | [] => some s
  | a :: steps =>
    if meets s a then do
      let s' ← s.step X root name a
      s'.run X root name meets steps
    else none

theorem reaches_of_run {X : Crates} {root : DirPath} {name : String}
    {meets : Contest → ContestStep → Prop} [∀ s a, Decidable (meets s a)]
    {steps : List ContestStep} {s s' : Contest}
    (hRun : s.run X root name meets steps = some s') : Reaches X root name meets s s' := by
  induction steps generalizing s with
  | nil =>
    cases hRun
    exact Relation.ReflTransGen.refl
  | cons a steps ih =>
    rw [run] at hRun
    split at hRun
    · next hMeets =>
      obtain ⟨s₁, hStep, hRun⟩ := Option.bind_eq_some_iff.mp hRun
      exact Relation.ReflTransGen.head ⟨a, hMeets, hStep⟩ (ih hRun)
    · cases hRun

end Contest

/-! ## Steps outside the calls -/

/-- The directories of the partitions. -/
def TopicValue.dirs (topic : TopicValue) : List DirPath :=
  topic.writers.map fun w => w.place.dir

/-- The directories of the first `n` partitions. -/
def partitionDirs (root : DirPath) (name : String) (n : Nat) : List DirPath :=
  (List.range n).map fun k => (root.join name).join (toString k)

theorem partitionDirs_succ (root : DirPath) (name : String) (n : Nat) :
    partitionDirs root name (n + 1) =
      partitionDirs root name n ++ [(root.join name).join (toString n)] := by
  unfold partitionDirs
  rw [List.range_succ, List.map_append]
  rfl

theorem TopicValue.length_of_dirs {topic : TopicValue} {root : DirPath} {name : String} {n : Nat}
    (h : topic.dirs = partitionDirs root name n) : topic.writers.length = n := by
  have hLength := congrArg List.length h
  simpa [dirs, partitionDirs] using hLength

theorem partitionDir_inj {p : DirPath} {i j : Nat}
    (h : p.join (toString i) = p.join (toString j)) : i = j := by
  rw [(PlainName.toString i).join, (PlainName.toString j).join] at h
  have hStr : toString i = toString j := by simpa using h
  exact toString_injective hStr

theorem getElem?_set_cases {α : Type} {l : List α} {i j : Nat} {a b : α}
    (hGet : (l.set i a)[j]? = some b) : j = i ∧ b = a ∨ j ≠ i ∧ l[j]? = some b := by
  rw [List.getElem?_set] at hGet
  split at hGet
  · next hEq =>
    split at hGet
    · cases hGet
      exact Or.inl ⟨hEq.symm, rfl⟩
    · cases hGet
  · next hNe => exact Or.inr ⟨Ne.symm hNe, hGet⟩

/-- A member is replaced by one that looks alike. -/
theorem map_set_of_getElem? {α β : Type} {f : α → β} {l : List α} {i : Nat} {a b : α}
    (hGet : l[i]? = some a) (hEq : f b = f a) : (l.set i b).map f = l.map f := by
  apply List.ext_getElem?
  intro j
  rw [List.getElem?_map, List.getElem?_map, List.getElem?_set]
  split
  · next hIdx =>
    subst hIdx
    rw [hGet, if_pos (List.getElem?_eq_some_iff.mp hGet).1]
    exact congrArg some hEq
  · rfl

theorem TopicValue.dirs_push (topic : TopicValue) (w : WriterTask) :
    ({ topic with writers := topic.writers ++ [w] } : TopicValue).dirs =
      topic.dirs ++ [w.place.dir] :=
  List.map_append

theorem TopicValue.dirs_set (topic : TopicValue) {k : Nat} {w w' : WriterTask}
    (hWriter : topic.writers[k]? = some w) (hDir : w'.place.dir = w.place.dir) :
    ({ topic with writers := topic.writers.set k w' } : TopicValue).dirs = topic.dirs :=
  map_set_of_getElem? hWriter hDir

namespace Contest

variable {X : Crates} {root : DirPath} {name : String} {s s' : Contest}

/-- The calls, the entry and the directories are left as they are. -/
structure Keeps (s s' : Contest) : Prop where
  calls : s'.calls = s.calls
  entry : s'.entry = s.entry
  dirs : s'.topics.map TopicValue.dirs = s.topics.map TopicValue.dirs
  mem : ∀ q, q ∈ s'.tree ↔ q ∈ s.tree

theorem getElem?_setTopic {id : Nat} {topic : TopicValue} (hTopic : s.topics[id]? = some topic)
    (topic' : TopicValue) : (s.setTopic id topic').topics[id]? = some topic' := by
  show (s.topics.set id topic')[id]? = some topic'
  rw [List.getElem?_set_self (List.getElem?_eq_some_iff.mp hTopic).1]

theorem setTopic_dirs {id : Nat} {topic topic' : TopicValue} (hTopic : s.topics[id]? = some topic)
    (hDirs : topic'.dirs = topic.dirs) :
    (s.setTopic id topic').topics.map TopicValue.dirs = s.topics.map TopicValue.dirs :=
  map_set_of_getElem? hTopic hDirs

theorem setWriter_dirs {id k : Nat} {topic : TopicValue} {w w' : WriterTask}
    (hTopic : s.topics[id]? = some topic) (hWriter : topic.writers[k]? = some w)
    (hDir : w'.place.dir = w.place.dir) :
    (s.setWriter id topic k w').topics.map TopicValue.dirs = s.topics.map TopicValue.dirs :=
  setTopic_dirs hTopic (topic.dirs_set hWriter hDir)

theorem setTopic_keeps {id : Nat} {topic topic' : TopicValue}
    (hTopic : s.topics[id]? = some topic) (hDirs : topic'.dirs = topic.dirs) :
    Keeps s (s.setTopic id topic') :=
  ⟨rfl, rfl, setTopic_dirs hTopic hDirs, fun _ => Iff.rfl⟩

theorem setWriter_keeps {id k : Nat} {topic : TopicValue} {w w' : WriterTask} {t : DirTree FileName}
    (hTopic : s.topics[id]? = some topic) (hWriter : topic.writers[k]? = some w)
    (hDir : w'.place.dir = w.place.dir) (hMem : ∀ q, q ∈ t ↔ q ∈ s.tree) :
    Keeps s { s.setWriter id topic k w' with tree := t } :=
  ⟨rfl, rfl, setWriter_dirs hTopic hWriter hDir, hMem⟩

/-- Handles and writers change neither the entry nor any directory. -/
theorem step_keeps {a : ContestStep} (hOther : ∀ i env removal, a ≠ .call i env removal)
    (hStep : s.step X root name a = some s') : Keeps s s' := by
  cases a with
  | call i env removal => exact absurd rfl (hOther i env removal)
  | acquire =>
    obtain ⟨id, -, hStep⟩ := Option.bind_eq_some_iff.mp hStep
    obtain ⟨topic, hTopic, hStep⟩ := Option.bind_eq_some_iff.mp hStep
    cases hStep
    exact setTopic_keeps hTopic rfl
  | share id =>
    obtain ⟨topic, hTopic, hStep⟩ := Option.bind_eq_some_iff.mp hStep
    obtain ⟨-, -, hStep⟩ := Option.bind_eq_some_iff.mp hStep
    cases hStep
    exact setTopic_keeps hTopic rfl
  | release id =>
    obtain ⟨topic, hTopic, hStep⟩ := Option.bind_eq_some_iff.mp hStep
    obtain ⟨-, -, hStep⟩ := Option.bind_eq_some_iff.mp hStep
    cases hStep
    exact setTopic_keeps hTopic rfl
  | lend id k =>
    obtain ⟨topic, hTopic, hStep⟩ := Option.bind_eq_some_iff.mp hStep
    obtain ⟨w, hWriter, hStep⟩ := Option.bind_eq_some_iff.mp hStep
    obtain ⟨-, -, hStep⟩ := Option.bind_eq_some_iff.mp hStep
    cases hStep
    exact setWriter_keeps hTopic hWriter rfl fun _ => Iff.rfl
  | giveBack id k =>
    obtain ⟨topic, hTopic, hStep⟩ := Option.bind_eq_some_iff.mp hStep
    obtain ⟨w, hWriter, hStep⟩ := Option.bind_eq_some_iff.mp hStep
    obtain ⟨-, -, hStep⟩ := Option.bind_eq_some_iff.mp hStep
    cases hStep
    exact setWriter_keeps hTopic hWriter rfl fun _ => Iff.rfl
  | operate id k op env =>
    obtain ⟨topic, hTopic, hStep⟩ := Option.bind_eq_some_iff.mp hStep
    obtain ⟨w, hWriter, hStep⟩ := Option.bind_eq_some_iff.mp hStep
    obtain ⟨-, -, hStep⟩ := Option.bind_eq_some_iff.mp hStep
    have hDir := w.place.operate_dir (X := X) op env s.tree
    have hMem := w.place.mem_operate (X := X) op env s.tree
    rcases hRun : w.place.operate X op env s.tree with ⟨stopped, p, t⟩
    rw [hRun] at hStep hDir hMem
    cases stopped with
    | true => cases hStep
    | false =>
      cases hStep
      exact setWriter_keeps hTopic hWriter hDir hMem
  | exit id k env =>
    obtain ⟨topic, hTopic, hStep⟩ := Option.bind_eq_some_iff.mp hStep
    obtain ⟨w, hWriter, hStep⟩ := Option.bind_eq_some_iff.mp hStep
    obtain ⟨-, -, hStep⟩ := Option.bind_eq_some_iff.mp hStep
    have hMem := w.place.mem_operate (X := X) .sync env s.tree
    rcases hRun : w.place.operate X .sync env s.tree with ⟨stopped, p, t⟩
    rw [hRun] at hStep hMem
    cases stopped with
    | true => cases hStep
    | false =>
      cases hStep
      exact setWriter_keeps hTopic hWriter rfl hMem

end Contest

/-! ## Directories that are made -/

section

variable {X : Crates} {config : LogConfig} {env : Env FileName} {way : List DirPath}
  {dir q : DirPath} {t t' : DirTree FileName} {r : Res KafkoError PlacedLog} {p : PlacedLog}

theorem openPartition_kept (hRun : openPartition X config env way dir t = (r, t')) (hq : q ∈ t) :
    q ∈ t' := by
  have hTree : (openPartition X config env way dir t).2 = t' := congrArg Prod.snd hRun
  rw [← hTree]
  exact mem_openPartition (Or.inl hq)

/-- A partition that was opened has its directory. -/
theorem openPartition_made (hRun : openPartition X config env way dir t = (.ok p, t')) :
    p.dir = dir ∧ ∀ q ∈ way, q ∈ t' := by
  have hTree : (openPartition X config env way dir t).2 = t' := congrArg Prod.snd hRun
  have hResult := congrArg Prod.fst hRun
  rw [openPartition_eq] at hResult
  obtain ⟨log, hLog, hPlaced⟩ := Res.bind_eq_ok.mp hResult
  rcases hOpen : Log.open_ X config env () ⟨t.filesAt dir, 0⟩ with ⟨r, u, w⟩
  rw [hOpen] at hLog
  obtain rfl : r = .ok log := hLog
  have hMade : dirsMade env way = way := dirsMade_of_ok hOpen
  cases hPlaced
  refine ⟨rfl, ?_⟩
  intro q hq
  rw [← hTree]
  exact mem_openPartition (Or.inr (hMade.symm ▸ hq))

/-- Nothing is made beside the way. -/
theorem mem_of_openPartition (hRun : openPartition X config env way dir t = (r, t'))
    (hDir : dir ∈ way) (hq : q ∈ t') : q ∈ t ∨ q ∈ way := by
  by_cases hEq : q = dir
  · exact Or.inr (hEq ▸ hDir)
  · have hFrame : (openPartition X config env way dir t).2.lookup q = t.lookup q ∨
        q ∈ way ∧ (openPartition X config env way dir t).2.lookup q = some (t.filesAt q) :=
      openPartition_frame hEq
    rw [hRun] at hFrame
    rcases hFrame with hSame | ⟨hWay, -⟩
    · rw [DirTree.mem_iff, hSame, ← DirTree.mem_iff] at hq
      exact Or.inl hq
    · exact Or.inr hWay

end

end Kafko
