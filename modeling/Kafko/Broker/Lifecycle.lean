import Mathlib.Data.List.Basic
import Mathlib.Data.Option.Basic
import Mathlib.Tactic.Common

/-!
# Brokers, locks and writers of one data directory

`Kafko::open` takes the lock of the data directory and spawns a writer for each partition it
finds; the lock is released when the `Kafko` value is gone. A writer ends when its inbox is
closed, that is when the last `Arc` of its partition is gone. Partitions are held by their
topic, and topics by the registry and by producers, consumers and callers, so the two
lifetimes are not tied to each other.

The state keeps all brokers ever opened on the directory, all topics they ever held and the
tasks that let go of topics in the background. `DataDir.step` is one event, in any order the
tasks of the program may take.
-/

namespace Kafko

structure PartitionCell where
  /-- `Arc`s of the partition held outside its topic. -/
  handles : Nat
  /-- The `Arc` in the topic's vector. -/
  inTopic : Bool
  /-- The writer task runs. -/
  running : Bool
  deriving DecidableEq, Repr

/-- A partition whose writer was just spawned. -/
def PartitionCell.spawned : PartitionCell := ⟨0, true, true⟩

structure TopicCell where
  broker : Nat
  name : String
  /-- The `Arc` in the broker's map. -/
  registered : Bool
  /-- `Arc`s of the topic in producers, consumers and elsewhere. -/
  handles : Nat
  partitions : List PartitionCell
  deriving DecidableEq, Repr

/-- What `shutdown_topics` and `Topic::shutdown` have left to do: take a topic out of its
`Arc`, take a partition out of its `Arc`, wait for a writer. -/
inductive Task
  | topic (t : Nat)
  | partition (t p : Nat)
  | await (t p : Nat)
  deriving DecidableEq, Repr

/-- A broker: recovering its topics, in use, in `shutdown` or a blocking drop, or gone. The
lock is held in the first three phases. -/
inductive Phase
  | opening
  | serving
  | closing (work : List Task)
  | gone
  deriving DecidableEq, Repr

inductive Runtime
  | multiThread
  | currentThread
  | unreachable
  deriving DecidableEq, Repr

structure DataDir where
  brokers : List Phase
  topics : List TopicCell
  /-- Cleanups that no broker waits for: detached ones and those of `delete_topic`. -/
  loose : List (List Task)
  deriving DecidableEq, Repr

namespace TopicCell

def setPartition (c : TopicCell) (p : Nat) (cell : PartitionCell) : TopicCell :=
  { c with partitions := c.partitions.set p cell }

/-- The topic is dropped, and its vector of partitions with it. -/
def dropPartitions (c : TopicCell) : TopicCell :=
  { c with partitions := c.partitions.map fun cell => { cell with inTopic := false } }

/-- Drops the topic if that was its last `Arc`. -/
def release (c : TopicCell) : TopicCell :=
  if c.registered = false ∧ c.handles = 0 then c.dropPartitions else c

/-- The map entry is dropped. -/
def unregister (c : TopicCell) : TopicCell := { c with registered := false }.release

end TopicCell

/-- What happens to one topic. -/
inductive TopicEvent
  /-- `producer_for`, `consumer_for`, `topic`, or the clone of a handle. -/
  | hold
  | letGo
  /-- A clone of an `Arc<Partition>`. -/
  | holdPartition (p : Nat)
  | letGoPartition (p : Nat)
  /-- A send through a handle. -/
  | send (p : Nat)
  /-- The writer finds its inbox closed and empty, syncs and ends. -/
  | exit (p : Nat)
  | panic (p : Nat)
  deriving DecidableEq, Repr

/-- Whether the topic can be reached through the registry or a handle. -/
def TopicCell.Reachable (phase : Phase) (c : TopicCell) : Prop :=
  0 < c.handles ∨ c.registered = true ∧ phase = .serving

instance (phase : Phase) (c : TopicCell) : Decidable (c.Reachable phase) :=
  inferInstanceAs (Decidable (_ ∨ _))

def TopicCell.act (phase : Phase) (c : TopicCell) : TopicEvent → Option TopicCell
  | .hold => do
    guard (c.Reachable phase)
    pure { c with handles := c.handles + 1 }
  | .letGo => do
    guard (0 < c.handles)
    pure { c with handles := c.handles - 1 }.release
  | .holdPartition p => do
    let cell ← c.partitions[p]?
    guard (0 < cell.handles ∨ cell.inTopic = true ∧ c.Reachable phase)
    pure (c.setPartition p { cell with handles := cell.handles + 1 })
  | .letGoPartition p => do
    let cell ← c.partitions[p]?
    guard (0 < cell.handles)
    pure (c.setPartition p { cell with handles := cell.handles - 1 })
  | .send p => do
    let cell ← c.partitions[p]?
    guard (0 < cell.handles ∨ 0 < c.handles)
    pure c
  | .exit p => do
    let cell ← c.partitions[p]?
    guard (cell.running = true ∧ cell.inTopic = false ∧ cell.handles = 0)
    pure (c.setPartition p { cell with running := false })
  | .panic p => do
    let cell ← c.partitions[p]?
    guard (cell.running = true)
    pure (c.setPartition p { cell with running := false })

inductive DirEvent
  /-- `acquire_dir_lock` succeeds. -/
  | lock
  /-- The broker being opened recovers a topic of `count` partitions. -/
  | recover (b : Nat) (name : String) (count : Nat)
  /-- `Kafko::open` fails, the topic at fault having `count` partitions open. -/
  | openFails (b : Nat) (name : String) (count : Nat)
  /-- `Kafko::open` returns. -/
  | opened (b : Nat)
  /-- `create_topic` registers a new topic. -/
  | create (b : Nat) (name : String) (count : Nat)
  /-- `create_topic` fails and drops the `count` partitions it has opened. -/
  | createFails (b : Nat) (name : String) (count : Nat)
  /-- `delete_topic` takes the topic out of the registry and shuts it down. -/
  | delete (b t : Nat)
  | topic (t : Nat) (event : TopicEvent)
  | shutdown (b : Nat)
  | drop (b : Nat) (runtime : Runtime)
  /-- A closing broker does its next task, or is done and releases the lock. -/
  | close (b : Nat)
  /-- The future of `shutdown` is dropped. -/
  | abandon (b : Nat)
  /-- A loose cleanup does its next task. -/
  | clean (k : Nat)
  /-- The future of a loose cleanup is dropped. -/
  | cancel (k : Nat)
  deriving DecidableEq, Repr

namespace DataDir

def empty : DataDir := ⟨[], [], []⟩

def phase (s : DataDir) (b : Nat) : Phase := (s.brokers[b]?).getD .gone

def setPhase (s : DataDir) (b : Nat) (phase : Phase) : DataDir :=
  { s with brokers := s.brokers.set b phase }

/-- Whether a broker holds the lock of the directory. -/
def holdsLock (s : DataDir) (b : Nat) : Bool :=
  match s.phase b with
  | .gone => false
  | _ => true

/-- `std::mem::take` of the registry: its topics, in the order of the map. -/
def registry (s : DataDir) (b : Nat) : List Task :=
  ((List.range s.topics.length).filter fun t =>
    s.topics[t]?.any fun c => c.broker = b && c.registered).map Task.topic

/-- The map of a broker is dropped. -/
def unregisterAll (s : DataDir) (b : Nat) : DataDir :=
  { s with topics := s.topics.map fun c => if c.broker = b then c.unregister else c }

def spawn (s : DataDir) (b : Nat) (name : String) (count : Nat) : DataDir :=
  { s with topics := s.topics ++ [⟨b, name, true, 0, List.replicate count .spawned⟩] }

/-- Partitions that are dropped right after they were opened. -/
def orphan (s : DataDir) (b : Nat) (name : String) (count : Nat) : DataDir :=
  { s with topics := s.topics ++ [⟨b, name, false, 0, List.replicate count ⟨0, false, true⟩⟩] }

/-- One task of a cleanup; it may leave further ones. -/
def perform (s : DataDir) : Task → Option (DataDir × List Task)
  | .topic t => do
    let c ← s.topics[t]?
    let s' := { s with topics := s.topics.set t { c with registered := false } }
    if c.handles = 0 then
      pure (s', (List.range c.partitions.length).map (Task.partition t))
    else pure (s', [])
  | .partition t p => do
    let c ← s.topics[t]?
    let cell ← c.partitions[p]?
    let s' := { s with topics := s.topics.set t (c.setPartition p { cell with inTopic := false }) }
    if cell.handles = 0 then pure (s', [.await t p]) else pure (s', [])
  | .await t p => do
    let c ← s.topics[t]?
    let cell ← c.partitions[p]?
    guard (cell.running = false)
    pure (s, [])

/-- A task that is dropped instead of being performed. -/
def forgo (s : DataDir) : Task → DataDir
  | .topic t => { s with topics := s.topics.modify t TopicCell.unregister }
  | .partition t p =>
    { s with topics := s.topics.modify t fun c =>
        { c with partitions := c.partitions.modify p fun cell => { cell with inTopic := false } } }
  | .await _ _ => s

def step (s : DataDir) : DirEvent → Option DataDir
  | .lock => do
    guard (∀ b ∈ List.range s.brokers.length, s.holdsLock b = false)
    pure { s with brokers := s.brokers ++ [.opening] }
  | .recover b name count => do
    guard (s.phase b = .opening)
    pure (s.spawn b name count)
  | .openFails b name count => do
    guard (s.phase b = .opening)
    pure (((s.orphan b name count).unregisterAll b).setPhase b .gone)
  | .opened b => do
    guard (s.phase b = .opening)
    pure (s.setPhase b .serving)
  | .create b name count => do
    guard (s.phase b = .serving)
    pure (s.spawn b name count)
  | .createFails b name count => do
    guard (s.phase b = .serving)
    pure (s.orphan b name count)
  | .delete b t => do
    let c ← s.topics[t]?
    guard (s.phase b = .serving ∧ c.broker = b ∧ c.registered = true ∧ c.handles = 0)
    pure { s with
      topics := s.topics.set t { c with registered := false }
      loose := s.loose ++ [(List.range c.partitions.length).map (Task.partition t)] }
  | .topic t event => do
    let c ← s.topics[t]?
    let c' ← c.act (s.phase c.broker) event
    pure { s with topics := s.topics.set t c' }
  | .shutdown b | .drop b .multiThread => do
    guard (s.phase b = .serving)
    pure (s.setPhase b (.closing (s.registry b)))
  | .drop b .currentThread => do
    guard (s.phase b = .serving)
    pure ({ s with loose := s.loose ++ [s.registry b] }.setPhase b .gone)
  | .drop b .unreachable => do
    guard (s.phase b = .serving)
    pure ((s.unregisterAll b).setPhase b .gone)
  | .close b =>
    match s.phase b with
    | .closing [] => some (s.setPhase b .gone)
    | .closing (task :: work) => do
      let (s', more) ← s.perform task
      pure (s'.setPhase b (.closing (more ++ work)))
    | _ => none
  | .abandon b =>
    match s.phase b with
    | .closing work => some ((work.foldl forgo s).setPhase b .gone)
    | _ => none
  | .clean k =>
    match s.loose[k]? with
    | some (task :: work) => do
      let (s', more) ← s.perform task
      pure { s' with loose := s'.loose.set k (more ++ work) }
    | _ => none
  | .cancel k => do
    let work ← s.loose[k]?
    pure { work.foldl forgo s with loose := s.loose.set k [] }

def run (s : DataDir) : List DirEvent → Option DataDir
  | [] => some s
  | event :: events => do
    let s' ← s.step event
    s'.run events

/-- The writer of partition `p` of topic `t` runs. -/
structure Runs (s : DataDir) (t p : Nat) (c : TopicCell) (cell : PartitionCell) : Prop where
  topic : s.topics[t]? = some c
  partition : c.partitions[p]? = some cell
  running : cell.running = true

/-! ## Orderly runs -/

/-- No writer of the broker runs. -/
def Idle (s : DataDir) (b : Nat) : Prop :=
  ∀ c ∈ s.topics, c.broker = b → ∀ cell ∈ c.partitions, cell.running = false

/-- Every running writer of the broker belongs to a topic of its registry, and nobody else
holds the topic or the partition. -/
def Unshared (s : DataDir) (b : Nat) : Prop :=
  ∀ c ∈ s.topics, c.broker = b → ∀ cell ∈ c.partitions, cell.running = true →
    c.registered = true ∧ c.handles = 0 ∧ cell.handles = 0

/-- The lock is given up at once only if no writer runs, and a shutdown begins only if nobody
else holds what it has to shut down. -/
def Orderly (s : DataDir) : DirEvent → Prop
  | .shutdown b => s.Unshared b
  | .drop b .multiThread => s.Unshared b
  | .drop b .currentThread => s.Idle b
  | .drop b .unreachable => s.Idle b
  | .abandon b => s.Idle b
  | .openFails b _ count => s.Idle b ∧ count = 0
  | _ => True

instance (s : DataDir) (b : Nat) : Decidable (s.Idle b) :=
  inferInstanceAs (Decidable (∀ c ∈ s.topics, c.broker = b → ∀ cell ∈ c.partitions, _))

instance (s : DataDir) (b : Nat) : Decidable (s.Unshared b) :=
  inferInstanceAs (Decidable (∀ c ∈ s.topics, c.broker = b → ∀ cell ∈ c.partitions, _ → _))

instance (s : DataDir) (event : DirEvent) : Decidable (s.Orderly event) := by
  unfold Orderly
  split <;> infer_instance

def RunsOrderly (s : DataDir) : List DirEvent → Prop
  | [] => True
  | event :: events => s.Orderly event ∧ ∀ s' ∈ s.step event, s'.RunsOrderly events

instance decidableRunsOrderly (s : DataDir) :
    (events : List DirEvent) → Decidable (s.RunsOrderly events)
  | [] => inferInstanceAs (Decidable True)
  | _ :: events =>
    have (s' : DataDir) := decidableRunsOrderly s' events
    inferInstanceAs (Decidable (_ ∧ _))

end DataDir

end Kafko
