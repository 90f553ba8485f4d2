import Kafko.Disk.Tree
import Kafko.Storage.Sessions
import Kafko.Topic.Producer
import Mathlib.Data.String.Basic

/-!
# Topics as directories

`create_topic_inner`, `delete_topic` and `open_with_config` of `broker.rs` with
`Topic::create` and `Topic::open` of `topic.rs`, one call at a time. Creating a topic joins
its name to the data directory and opens the partitions in subdirectories `0`, `1`, ..., one
after the other; opening a broker goes the other way and takes every directory in the data
directory for a topic and its numeric subdirectories for partitions.

The environment decides how far `create_dir_all` gets. Whether a file stands in its way (the
lock file, a segment) is left to the environment as well, which may make it fail.
-/

namespace Kafko

open Disk

/-- A partition with its writer: where it lies and the log the writer owns. -/
structure PlacedLog where
  dir : DirPath
  log : Log

/-- The registry: the partitions of every topic. -/
abbrev Registry := AList fun _ : String => List PlacedLog

/-! ## Partitions -/

/-- The digits after an optional sign. -/
def dropSign : List Char → List Char
  | '+' :: digits => digits
  | digits => digits

/-- `str::parse::<u32>`. -/
def parseU32 (s : String) : Option Nat :=
  let digits := dropSign s.toList
  if digits ≠ [] ∧ digits.all Char.isDigit ∧ Nat.ofDigitChars 10 digits 0 < 2 ^ 32 then
    some (Nat.ofDigitChars 10 digits 0)
  else none

/-- How much of the way `create_dir_all` makes. -/
def dirsMade (env : Env FileName) (way : List DirPath) : List DirPath :=
  match env.outcome 0 .mkdir with
  | .fail _ k | .crash k => way.take k
  | _ => way

/-- `Partition::open_with_wake`. -/
def openPartition (X : Crates) (config : LogConfig) (env : Env FileName) (way : List DirPath)
    (dir : DirPath) (t : DirTree FileName) : Res KafkoError PlacedLog × DirTree FileName :=
  let t := t.createDirs (dirsMade env way)
  match Log.open_ X config env () ⟨t.filesAt dir, 0⟩ with
  | (r, _, w) => (r >>= fun log => .ok ⟨dir, log⟩, t.setFiles dir w.store)

/-- The loop of `Topic::create` and of `Topic::open`: opens the partitions with the given
indices and stops at the first that fails, leaving the directories of the others. -/
def openPartitions (X : Crates) (config : LogConfig) (envs : Nat → Env FileName)
    (way : List DirPath) (topicDir : DirPath) :
    List Nat → DirTree FileName → Res KafkoError (List PlacedLog) × DirTree FileName
  | [], t => (.ok [], t)
  | i :: is, t =>
    let dir := topicDir.join (toString i)
    match openPartition X config (envs i) (way ++ [dir]) dir t with
    | (.ok p, t) =>
      match openPartitions X config envs way topicDir is t with
      | (.ok ps, t) => (.ok (p :: ps), t)
      | r => r
    | (.err e, t) => (.err e, t)
    | (.panic m, t) => (.panic m, t)
    | (.crash, t) => (.crash, t)

/-- The writer of a partition performs an operation; `true` if the machine stops in it.
Files that were removed behind the writer are out of reach. -/
def PlacedLog.operate (X : Crates) (op : LogOp) (env : Env FileName) (p : PlacedLog)
    (t : DirTree FileName) : Bool × PlacedLog × DirTree FileName :=
  match t.lookup p.dir with
  | none => (false, p, t)
  | some d =>
    match op.exec X env p.log ⟨d, 0⟩ with
    | (r, log, w) => (r = .crash, { p with log := log }, t.setFiles p.dir w.store)

/-! ## Topics -/

namespace Topic

/-- `Topic::create`, on the directory that `name` leads to. -/
def create (X : Crates) (config : LogConfig) (envs : Nat → Env FileName) (root : DirPath)
    (name : String) (partitionCount : UInt32) (t : DirTree FileName) :
    Res KafkoError (List PlacedLog) × DirTree FileName :=
  if partitionCount = 0 then (.err (.invalidPartitionCount 0), t)
  else openPartitions X config envs (root.wayTo name) (root.join name)
    (List.range partitionCount.toNat) t

def discoverPartitionIndices (t : DirTree FileName) (topicDir : DirPath) : List Nat :=
  (t.children topicDir).filterMap parseU32

/-- The first index that is not the expected one. -/
def firstGap : Nat → List Nat → Option (Nat × Nat)
  | _, [] => none
  | expected, actual :: indices =>
    if expected % 2 ^ 32 ≠ actual then some (expected, actual) else firstGap (expected + 1) indices

/-- `Topic::open`. -/
def open_ (X : Crates) (config : LogConfig) (envs : Nat → Env FileName) (topicDir : DirPath)
    (name : String) (t : DirTree FileName) :
    Res KafkoError (List PlacedLog) × DirTree FileName :=
  let indices := (discoverPartitionIndices t topicDir).insertionSort (· ≤ ·)
  if indices = [] then
    (.err (.invalidTopicLayout name
      ("no partition subdirectories found (a data directory written by kafko <= 0.2 is not " ++
        "compatible with the partitioned 0.3 layout)")), t)
  else match firstGap 0 indices with
    | some (expected, actual) =>
      (.err (.invalidTopicLayout name
        ("partition indices are not contiguous from 0 (expected " ++ toString expected ++
          ", found " ++ toString actual ++ ")")), t)
    | none => openPartitions X config envs topicDir.inits topicDir indices t

/-- `Topic::shutdown` of a topic nobody else holds: every writer syncs its log and ends,
whatever the sync returns. `true` if the machine stops in between. -/
def shutdown (X : Crates) (envs : Nat → Env FileName) :
    Nat → List PlacedLog → DirTree FileName → Bool × DirTree FileName
  | _, [], t => (false, t)
  | i, p :: ps, t =>
    match p.operate X .sync (envs i) t with
    | (true, _, t) => (true, t)
    | (false, _, t) => shutdown X envs (i + 1) ps t

end Topic

/-! ## The broker -/

/-- What the environment does with `remove_dir_all`: an interrupted call leaves some of the
directories behind. -/
inductive Removal
  | done
  | fails (kind : ErrorKind) (left : DirPath → Bool)
  | stops (left : DirPath → Bool)

namespace Removal

def result : Removal → Res KafkoError Unit
  | done => .ok ()
  | fails kind _ => .err (.io kind)
  | stops _ => .crash

def left : Removal → DirPath → Bool
  | done => fun _ => false
  | fails _ left => left
  | stops left => left

end Removal

/-- A call of the broker: how it ends, the registry and the directories after it. -/
abbrev Called := Res KafkoError Unit × Registry × DirTree FileName

def createTopicInner (X : Crates) (root : DirPath) (name : String) (config : LogConfig)
    (partitions : UInt32) (envs : Nat → Env FileName) (topics : Registry) (t : DirTree FileName) :
    Called :=
  if partitions = 0 then (.err (.invalidPartitionCount 0), topics, t)
  else if name ∈ topics then (.err (.topicAlreadyExists name), topics, t)
  else match Topic.create X config envs root name partitions t with
    | (.ok topic, t) =>
      if name ∈ topics then (.err (.topicAlreadyExists name), topics, t)
      else (.ok (), topics.insert name topic, t)
    | (.err e, t) => (.err e, topics, t)
    | (.panic m, t) => (.panic m, topics, t)
    | (.crash, t) => (.crash, topics, t)

/-- `delete_topic`; `inUse` tells whether the topic is held elsewhere. -/
def deleteTopic (X : Crates) (root : DirPath) (name : String) (inUse : Bool)
    (envs : Nat → Env FileName) (removal : Removal) (topics : Registry) (t : DirTree FileName) :
    Called :=
  match topics.lookup name with
  | none => (.err (.topicNotFound name), topics, t)
  | some topic =>
    if inUse then (.err (.topicInUse name), (topics.erase name).insert name topic, t)
    else
      let topicDir := root.join name
      match Topic.shutdown X envs 0 topic t with
      | (true, t) => (.crash, topics.erase name, t)
      | (false, t) =>
        if topicDir ∉ t then (.err (.io .notFound), topics.erase name, t)
        else (removal.result, topics.erase name, t.removeDirAll topicDir removal.left)

/-- `list_topics`. -/
def listTopics (topics : Registry) : List String := topics.keys.insertionSort (· ≤ ·)

/-- The loop of `open_with_config` over the directories it finds. -/
def openTopics (X : Crates) (config : LogConfig) (envs : String → Nat → Env FileName)
    (root : DirPath) : List String → Registry → DirTree FileName → Called
  | [], topics, t => (.ok (), topics, t)
  | name :: names, topics, t =>
    match Topic.open_ X config (envs name) (root ++ [name]) name t with
    | (.ok topic, t) => openTopics X config envs root names (topics.insert name topic) t
    | (.err e, t) => (.err e, topics, t)
    | (.panic m, t) => (.panic m, topics, t)
    | (.crash, t) => (.crash, topics, t)

/-- `open_with_config`, the lock being free. -/
def openWithConfig (X : Crates) (root : DirPath) (config : LogConfig)
    (envs : String → Nat → Env FileName) (t : DirTree FileName) : Called :=
  let t := t.createDirs root.inits
  openTopics X config envs root (t.children root) ∅ t

/-- `shutdown`, nobody else holding a topic. `true` if the machine stops in between. -/
def shutdownTopics (X : Crates) (envs : String → Nat → Env FileName) (topics : Registry) :
    List String → DirTree FileName → Bool × DirTree FileName
  | [], t => (false, t)
  | name :: names, t =>
    match Topic.shutdown X (envs name) 0 ((topics.lookup name).getD []) t with
    | (true, t) => (true, t)
    | (false, t) => shutdownTopics X envs topics names t

/-! ## A data directory through the lives of its brokers -/

structure Site where
  tree : DirTree FileName
  /-- The registry of the broker that is running, if there is one. -/
  topics : Option Registry

inductive BrokerAct
  | create (name : String) (config : LogConfig) (partitions : UInt32) (envs : Nat → Env FileName)
  | delete (name : String) (inUse : Bool) (envs : Nat → Env FileName) (removal : Removal)
  /-- The writer of a partition performs an operation. -/
  | operate (name : String) (i : Nat) (op : LogOp) (env : Env FileName)
  | shutdown (envs : String → Nat → Env FileName)
  | openBroker (config : LogConfig) (envs : String → Nat → Env FileName)
  /-- The machine stops between two calls. -/
  | stop

namespace Site

/-- After a call the broker runs on, unless the machine has stopped in it. -/
def after : Called → Res KafkoError Unit × Site
  | (.crash, _, t) => (.crash, ⟨t, none⟩)
  | (r, topics, t) => (r, ⟨t, some topics⟩)

/-- A failing `Kafko::open` leaves no broker. -/
def opened : Called → Res KafkoError Unit × Site
  | (.ok (), topics, t) => (.ok (), ⟨t, some topics⟩)
  | (r, _, t) => (r, ⟨t, none⟩)

/-- A broker that ends, or a machine that stops in the middle of it. -/
def ended : Bool × DirTree FileName → Res KafkoError Unit × Site
  | (true, t) => (.crash, ⟨t, none⟩)
  | (false, t) => (.ok (), ⟨t, none⟩)

def act (X : Crates) (root : DirPath) (s : Site) : BrokerAct → Option (Res KafkoError Unit × Site)
  | .create name config partitions envs => do
    let topics ← s.topics
    pure (after (createTopicInner X root name config partitions envs topics s.tree))
  | .delete name inUse envs removal => do
    let topics ← s.topics
    pure (after (deleteTopic X root name inUse envs removal topics s.tree))
  | .operate name i op env => do
    let topics ← s.topics
    let topic ← topics.lookup name
    let p ← topic[i]?
    match p.operate X op env s.tree with
    | (true, _, t) => pure (.crash, ⟨t, none⟩)
    | (false, p, t) => pure (.ok (), ⟨t, some (topics.insert name (topic.set i p))⟩)
  | .shutdown envs => do
    let topics ← s.topics
    pure (ended (shutdownTopics X envs topics topics.keys s.tree))
  | .openBroker config envs => do
    guard s.topics.isNone
    pure (opened (openWithConfig X root config envs s.tree))
  | .stop => some (.crash, ⟨s.tree, none⟩)

/-- The broker is shut down, if one is running, and another one is opened. -/
def reopen (X : Crates) (root : DirPath) (s : Site) (closing : String → Nat → Env FileName)
    (config : LogConfig) (envs : String → Nat → Env FileName) :
    Option (Res KafkoError Unit × Site) :=
  match s.topics with
  | none => s.act X root (.openBroker config envs)
  | some _ => do
    let (r, s') ← s.act X root (.shutdown closing)
    match r with
    | .ok _ => s'.act X root (.openBroker config envs)
    | r => pure (r, s')

end Site

/-- What a machine that stops leaves of the files. -/
structure Wreck where
  left : DirPath → Store FileName → Store FileName
  survives : ∀ (p : DirPath) (d : Store FileName), d.Survives (left p d)

/-- A call, and the loss of unsynced bytes if the machine stops in it. -/
def Site.step (X : Crates) (root : DirPath) (s : Site) (a : BrokerAct) (wreck : Wreck) :
    Option (Res KafkoError Unit × Site) := do
  let (r, s') ← s.act X root a
  match r with
  | .crash => pure (.crash, { s' with tree := s'.tree.mapFiles wreck.left })
  | r => pure (r, s')

/-! ## What an operation changes -/

variable {X : Crates}

@[simp] theorem PlacedLog.operate_dir (op : LogOp) (env : Env FileName) (p : PlacedLog)
    (t : DirTree FileName) : (p.operate X op env t).2.1.dir = p.dir := by
  unfold operate
  split <;> rfl

theorem PlacedLog.operate_lookup (op : LogOp) (env : Env FileName) (p : PlacedLog)
    (t : DirTree FileName) {q : DirPath} (h : q ≠ p.dir) :
    (p.operate X op env t).2.2.lookup q = t.lookup q := by
  unfold operate
  split
  · rfl
  · exact DirTree.lookup_setFiles_ne t h _

theorem PlacedLog.mem_operate (op : LogOp) (env : Env FileName) (p : PlacedLog)
    (t : DirTree FileName) (q : DirPath) : q ∈ (p.operate X op env t).2.2 ↔ q ∈ t := by
  unfold operate
  split
  · rfl
  · next d hd =>
    rw [DirTree.mem_iff, DirTree.mem_iff, DirTree.lookup_setFiles]
    split
    · next hDir =>
      rw [hDir.1, hd]
      exact iff_of_true ⟨_, rfl⟩ ⟨d, rfl⟩
    · rfl

/-- A topic that is shut down changes files in its own partitions only. -/
theorem Topic.shutdown_lookup (envs : Nat → Env FileName) (i : Nat) (ps : List PlacedLog)
    (t : DirTree FileName) {q : DirPath} (h : ∀ p ∈ ps, q ≠ p.dir) :
    (Topic.shutdown X envs i ps t).2.lookup q = t.lookup q := by
  induction ps generalizing i t with
  | nil => rfl
  | cons p ps ih =>
    have hHead := p.operate_lookup (X := X) .sync (envs i) t (h p List.mem_cons_self)
    rw [shutdown]
    rcases hRun : p.operate X .sync (envs i) t with ⟨stopped, p', t'⟩
    rw [hRun] at hHead
    cases stopped with
    | true => exact hHead
    | false =>
      have hTail := ih (i + 1) t' fun p' hp' => h p' (List.mem_cons_of_mem _ hp')
      exact hTail.trans hHead

theorem Topic.mem_shutdown (envs : Nat → Env FileName) (i : Nat) (ps : List PlacedLog)
    (t : DirTree FileName) (q : DirPath) : q ∈ (Topic.shutdown X envs i ps t).2 ↔ q ∈ t := by
  induction ps generalizing i t with
  | nil => rfl
  | cons p ps ih =>
    have hHead := p.mem_operate (X := X) .sync (envs i) t q
    rw [shutdown]
    rcases hRun : p.operate X .sync (envs i) t with ⟨stopped, p', t'⟩
    rw [hRun] at hHead
    cases stopped with
    | true => exact hHead
    | false => exact (ih (i + 1) t').trans hHead

/-- How a deletion can end. -/
inductive Deletion (X : Crates) (root : DirPath) (name : String) (inUse : Bool)
    (envs : Nat → Env FileName) (removal : Removal) (topics : Registry) (t : DirTree FileName) :
    Called → Prop
  | unknown (hNone : topics.lookup name = none) :
      Deletion X root name inUse envs removal topics t (.err (.topicNotFound name), topics, t)
  | held {ps : List PlacedLog} (hTopic : topics.lookup name = some ps) (hUse : inUse = true) :
      Deletion X root name inUse envs removal topics t
        (.err (.topicInUse name), (topics.erase name).insert name ps, t)
  | stopped {ps : List PlacedLog} {t' : DirTree FileName} (hTopic : topics.lookup name = some ps)
      (hUse : inUse = false) (hShut : Topic.shutdown X envs 0 ps t = (true, t')) :
      Deletion X root name inUse envs removal topics t (.crash, topics.erase name, t')
  | missing {ps : List PlacedLog} {t' : DirTree FileName} (hTopic : topics.lookup name = some ps)
      (hUse : inUse = false) (hShut : Topic.shutdown X envs 0 ps t = (false, t'))
      (hDir : root.join name ∉ t') :
      Deletion X root name inUse envs removal topics t
        (.err (.io .notFound), topics.erase name, t')
  | removed {ps : List PlacedLog} {t' : DirTree FileName} (hTopic : topics.lookup name = some ps)
      (hUse : inUse = false) (hShut : Topic.shutdown X envs 0 ps t = (false, t'))
      (hDir : root.join name ∈ t') :
      Deletion X root name inUse envs removal topics t
        (removal.result, topics.erase name, t'.removeDirAll (root.join name) removal.left)

theorem deleteTopic_cases {root : DirPath} {name : String} {inUse : Bool}
    {envs : Nat → Env FileName} {removal : Removal} {topics : Registry} {t : DirTree FileName}
    {c : Called} (hRun : deleteTopic X root name inUse envs removal topics t = c) :
    Deletion X root name inUse envs removal topics t c := by
  rw [← hRun]
  unfold deleteTopic
  cases hTopic : topics.lookup name with
  | none => exact .unknown hTopic
  | some ps =>
    cases inUse with
    | true => exact .held hTopic rfl
    | false =>
      dsimp only [Bool.false_eq_true, if_false]
      rcases hShut : Topic.shutdown X envs 0 ps t with ⟨stopped, t'⟩
      cases stopped with
      | true => exact .stopped hTopic rfl hShut
      | false =>
        dsimp only
        by_cases hDir : root.join name ∈ t'
        · rw [if_neg (not_not.mpr hDir)]
          exact .removed hTopic rfl hShut hDir
        · rw [if_pos hDir]
          exact .missing hTopic rfl hShut hDir

/-- Deleting a topic changes its partitions and what lies in its directory. -/
theorem deleteTopic_lookup {root : DirPath} {name : String} {inUse : Bool}
    {envs : Nat → Env FileName} {removal : Removal} {topics : Registry} {t : DirTree FileName}
    {q : DirPath} (hOwn : ∀ ps, topics.lookup name = some ps → ∀ p ∈ ps, q ≠ p.dir)
    (hDir : ¬ root.join name <+: q) :
    (deleteTopic X root name inUse envs removal topics t).2.2.lookup q = t.lookup q := by
  have hShutdown : ∀ {ps stopped t'}, topics.lookup name = some ps →
      Topic.shutdown X envs 0 ps t = (stopped, t') → t'.lookup q = t.lookup q := by
    intro ps stopped t' hTopic hShut
    have hKept := Topic.shutdown_lookup (X := X) envs 0 ps t (hOwn ps hTopic)
    rwa [hShut] at hKept
  generalize hRun : deleteTopic X root name inUse envs removal topics t = c
  cases deleteTopic_cases hRun with
  | unknown _ => rfl
  | held _ _ => rfl
  | stopped hTopic _ hShut => exact hShutdown hTopic hShut
  | missing hTopic _ hShut _ => exact hShutdown hTopic hShut
  | removed hTopic _ hShut _ =>
    rw [DirTree.lookup_removeDirAll, if_pos (Or.inr hDir)]
    exact hShutdown hTopic hShut

/-- The partitions that were opened lie where they were asked for. -/
theorem openPartitions_dirs {config : LogConfig} {envs : Nat → Env FileName} {way : List DirPath}
    {topicDir : DirPath} {is : List Nat} {t t' : DirTree FileName} {ps : List PlacedLog}
    (h : openPartitions X config envs way topicDir is t = (.ok ps, t')) :
    ps.map PlacedLog.dir = is.map fun i => topicDir ++ [toString i] := by
  induction is generalizing t ps with
  | nil =>
    cases h
    rfl
  | cons i is ih =>
    rw [openPartitions, (PlainName.toString i).join] at h
    rcases hOne : openPartition X config (envs i) (way ++ [topicDir ++ [toString i]])
      (topicDir ++ [toString i]) t with ⟨r, t₁⟩
    rw [hOne] at h
    cases r with
    | err e => cases h
    | panic m => cases h
    | crash => cases h
    | ok p =>
      have hDir : p.dir = topicDir ++ [toString i] := by
        obtain ⟨log, -, hPlaced⟩ := Res.bind_eq_ok.mp (congrArg Prod.fst hOne)
        cases hPlaced
        rfl
      dsimp only at h
      rcases hRest : openPartitions X config envs way topicDir is t₁ with ⟨r', t₂⟩
      rw [hRest] at h
      cases r' with
      | err e => cases h
      | panic m => cases h
      | crash => cases h
      | ok ps' =>
        cases h
        rw [List.map_cons, List.map_cons, hDir, ih hRest]

/-! ## What a call does to the registry -/

variable {root : DirPath} {name : String} {topics : Registry} {t : DirTree FileName}

theorem Topic.create_dirs {config : LogConfig} {envs : Nat → Env FileName} {name : String}
    {partitions : UInt32} {t t' : DirTree FileName} {ps : List PlacedLog}
    (h : Topic.create X config envs root name partitions t = (.ok ps, t')) :
    ps.map PlacedLog.dir =
      (List.range partitions.toNat).map fun i => root.join name ++ [toString i] := by
  unfold Topic.create at h
  split at h
  · cases h
  · exact openPartitions_dirs h

/-- What creating a topic does to the registry. -/
theorem createTopicInner_registry {config : LogConfig} {partitions : UInt32}
    {envs : Nat → Env FileName} {c : Called}
    (h : createTopicInner X root name config partitions envs topics t = c) :
    (c.1 ≠ .ok () ∧ c.2.1 = topics) ∨
      (c.1 = .ok () ∧ 0 < partitions.toNat ∧ name ∉ topics ∧ ∃ ps, c.2.1 = topics.insert name ps ∧
        Topic.create X config envs root name partitions t = (.ok ps, c.2.2)) := by
  unfold createTopicInner at h
  by_cases hZero : partitions = 0
  · rw [if_pos hZero] at h
    subst h
    exact Or.inl ⟨by simp, rfl⟩
  rw [if_neg hZero] at h
  by_cases hMem : name ∈ topics
  · rw [if_pos hMem] at h
    subst h
    exact Or.inl ⟨by simp, rfl⟩
  rw [if_neg hMem] at h
  have hPositive : 0 < partitions.toNat := by
    apply Nat.pos_of_ne_zero
    intro hNat
    exact hZero (UInt32.toNat_inj.mp hNat)
  rcases hCreate : Topic.create X config envs root name partitions t with ⟨r', t'⟩
  rw [hCreate] at h
  cases r' with
  | ok ps =>
    dsimp only at h
    rw [if_neg hMem] at h
    subst h
    exact Or.inr ⟨rfl, hPositive, hMem, ps, rfl, rfl⟩
  | err e =>
    subst h
    exact Or.inl ⟨by simp, rfl⟩
  | panic m =>
    subst h
    exact Or.inl ⟨by simp, rfl⟩
  | crash =>
    subst h
    exact Or.inl ⟨by simp, rfl⟩

/-- Deleting a topic adds nothing to the registry. -/
theorem deleteTopic_registry {inUse : Bool} {envs : Nat → Env FileName} {removal : Removal}
    {n : String} {ps : List PlacedLog}
    (h : (deleteTopic X root name inUse envs removal topics t).2.1.lookup n = some ps) :
    topics.lookup n = some ps := by
  have hErase : (topics.erase name).lookup n = some ps → topics.lookup n = some ps := by
    intro hLookup
    by_cases hEq : n = name
    · rw [hEq, AList.lookup_erase] at hLookup
      cases hLookup
    · rwa [AList.lookup_erase_ne hEq] at hLookup
  generalize hRun : deleteTopic X root name inUse envs removal topics t = c at h
  cases deleteTopic_cases hRun with
  | unknown _ => exact h
  | held hTopic _ =>
    by_cases hEq : n = name
    · rw [hEq, AList.lookup_insert] at h
      rw [hEq, hTopic, h]
    · rw [AList.lookup_insert_ne hEq] at h
      exact hErase h
  | stopped _ _ _ => exact hErase h
  | missing _ _ _ _ => exact hErase h
  | removed _ _ _ _ => exact hErase h

namespace Site

variable {s' : Site} {r : Res KafkoError Unit}

theorem after_eq {c : Called} (h : after c = (r, s')) :
    s'.tree = c.2.2 ∧ c.1 = r ∧ ∀ topics, s'.topics = some topics → topics = c.2.1 := by
  obtain ⟨r', topics', t'⟩ := c
  cases r' <;> cases h <;> refine ⟨rfl, rfl, ?_⟩ <;> intro topics hTopics <;> cases hTopics <;> rfl

theorem ended_eq {e : Bool × DirTree FileName} (h : ended e = (r, s')) :
    s'.topics = none ∧ s'.tree = e.2 ∧ r = if e.1 then .crash else .ok () := by
  obtain ⟨stopped, t'⟩ := e
  cases stopped <;> cases h <;> exact ⟨rfl, rfl, rfl⟩

end Site

end Kafko
