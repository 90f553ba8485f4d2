import Kafko.Partition.Answers
import Kafko.Topic.Producer

/-!
# A topic at work

The tasks of a topic: the writers of its partitions, any number of consumers and the calls of any
number of producers. They share the inboxes of the writers, the replies, the counter of parked
consumers and the `Notify` behind it (`Wakeup` in `topic.rs`). `Hub.step` is one event, in any
order the tasks of the program may take; between two events everything is at rest.

A partition is kept as the list its log refines (`History.respondAll`): the replies and the next
state of a writer after a wake-up are those of `PartitionWriter.takeTurn`, by
`PartitionWriter.takeTurn_responds`. A wake-up is one event, because nobody else sees the log
while it lasts; the signal that follows is two, the load of the counter and `notify_waiters`.

A consumer is followed through `next_with_position` from one await point or shared access to the
next (`Stage`), and a call of a producer through its buckets.
-/

namespace Kafko

open Disk

/-! ## Partitions -/

/-- `INBOX_CAPACITY`. -/
def inboxCapacity : Nat := 1024

/-- What the writer task is about to do: wait in its `select!`, load the counter of parked
consumers, call `notify_waiters`, or nothing any more. The last pulse comes before the end. -/
inductive WriterPhase
  | serving
  | signalling (last : Bool)
  | notifying (last : Bool)
  | ended
  deriving DecidableEq

/-- Where a writer goes after a pulse. -/
def WriterPhase.resume (last : Bool) : WriterPhase := if last then ended else serving

structure Host where
  history : History Record
  inbox : List PartitionCommand
  sent : List (Nat × Except KafkoError Reply)
  phase : WriterPhase
  /-- All senders of the inbox are gone. -/
  closed : Bool
  panicked : Option String
  /-- How many records there were at the last signal. -/
  signalled : Nat

/-- What happens inside of one partition. -/
inductive HostEvent
  /-- A wake-up that takes as many commands as there are faults. -/
  | turn (faults : List (Option KafkoError))
  /-- A wake-up in which the writer panics, after it has answered some appends. -/
  | panic (faults : List (Option KafkoError)) (message : String)
  | retention (oldest : Nat)
  | close
  /-- The inbox is closed and drained; the log is synced. -/
  | finish

namespace Host

/-- A partition that was just opened. -/
def start (history : History Record) : Host :=
  ⟨history, [], [], .serving, false, none, history.next⟩

/-- Whether a send to the inbox succeeds. -/
def accepts (host : Host) : Bool := !host.closed && host.phase ≠ .ended

def push (host : Host) (command : PartitionCommand) : Host :=
  { host with inbox := host.inbox ++ [command] }

/-- What the owner of a reply channel finds in it. -/
def reply? (host : Host) (reply : Nat) : Option (Except KafkoError Reply) :=
  (host.sent.find? fun e => e.1 = reply).map Prod.snd

/-- `writer_death_error`. -/
def deathError (host : Host) : KafkoError :=
  match host.panicked with
  | some payload => .partitionPanicked payload
  | none => .closed

/-- The partition after the first commands of its inbox were answered. -/
def answer (host : Host) (faults : List (Option KafkoError)) : Host :=
  let (answers, history) := host.history.respondAll faults (host.inbox.take faults.length)
  { host with
    history := history
    inbox := host.inbox.drop faults.length
    sent := host.sent ++ answers }

def act (host : Host) : HostEvent → Option Host
  | .turn faults => do
    guard (host.phase = .serving ∧ faults.length ≤ host.inbox.length ∧
      Wakeable (host.inbox.take faults.length))
    pure { host.answer faults with phase := .signalling false }
  | .panic faults message => do
    guard (host.phase = .serving ∧ faults.length < host.inbox.length ∧
      ∀ command ∈ host.inbox.take faults.length, command.isAppend = true)
    pure { host.answer faults with inbox := [], phase := .ended, panicked := some message }
  | .retention oldest => do
    guard (host.phase = .serving ∧ host.history.oldest ≤ oldest ∧ oldest ≤ host.history.next)
    pure { host with history := host.history.retire oldest }
  | .close => some { host with closed := true }
  | .finish => do
    guard (host.phase = .serving ∧ host.closed = true ∧ host.inbox = [])
    pure { host with phase := .signalling true }

/-- The writer has yet to signal what it did last. -/
def Pending (host : Host) : Prop :=
  ∃ last, host.phase = .signalling last ∨ host.phase = .notifying last

end Host

/-! ## Consumers -/

/-- Where a consumer is in `next_with_position`. In the second scan `again` is true. -/
inductive Stage
  | idle
  /-- About to send the question to the `i`-th partition of the scan. -/
  | asking (again : Bool) (i : Nat)
  | awaiting (again : Bool) (i reply : Nat)
  /-- The first scan found nothing; about to call `mark_parked`. -/
  | caughtUp
  /-- About to enable the `Notified` future. -/
  | marked
  /-- In `notified.await`. -/
  | waiting
  /-- About to call `unmark_parked`, and then to go round again or to return. -/
  | unmarking (loop : Bool)
  deriving DecidableEq

structure Reader where
  consumer : Consumer
  stage : Stage
  /-- The enabled `Notified` future, and whether it was notified. -/
  future : Option Bool
  /-- The cursors the consumer was built with. -/
  start : List Nat
  delivered : List (RecordPosition × Record)

inductive ReaderEvent
  | next
  | ask
  | receive
  | park
  | enable
  | wake
  | unmark
  /-- The future of the call is dropped at an await point. -/
  | cancel
  deriving DecidableEq

namespace Reader

/-- Goes on with the `i`-th partition of the scan, or past its end. -/
def stageAt (r : Reader) (again : Bool) (i : Nat) : Stage :=
  if i < r.consumer.cursors.length then .asking again i
  else if again then .waiting else .caughtUp

/-- `next_with_position` is about to return from a scan. -/
def leave (r : Reader) (again : Bool) : Reader :=
  { r with stage := if again then .unmarking false else .idle, future := none }

/-- A record was found: the cursor and the rotation move, and the record is returned. -/
def take (r : Reader) (again : Bool) (p : Nat) (record : Record) : Reader :=
  { r.leave again with
    consumer := ⟨r.consumer.cursors.set p (r.consumer.position p + 1),
      (p + 1) % r.consumer.cursors.length⟩
    delivered := r.delivered ++ [(⟨p, r.consumer.position p⟩, record)] }

def atAwait (r : Reader) : Bool :=
  match r.stage with
  | .asking _ _ | .awaiting _ _ _ | .waiting => true
  | _ => false

/-- Between `mark_parked` and `unmark_parked`. -/
def isParked (r : Reader) : Bool :=
  match r.stage with
  | .asking again _ | .awaiting again _ _ => again
  | .marked | .waiting | .unmarking _ => true
  | .idle | .caughtUp => false

end Reader

/-! ## Calls of producers -/

inductive CallStatus
  | running
  | returned (result : Except KafkoError (List RecordPosition))
  /-- The future of the call was dropped. -/
  | abandoned

structure SendCall where
  /-- `send` or `send_record`; otherwise one of the batch calls. -/
  single : Bool
  records : List Record
  todo : List (Nat × Bucket)
  /-- The bucket that was sent last, with its partition and reply channel, until it is settled. -/
  pending : Option (Nat × Nat × Bucket)
  /-- All buckets that were sent. -/
  issued : List (Nat × Nat × Bucket)
  positions : List RecordPosition
  status : CallStatus
  /-- How many records each partition had when the call began. -/
  begun : List Nat

inductive CallEvent
  | issue
  | settle
  | abandon
  deriving DecidableEq

/-- The command that writes a bucket. -/
def SendCall.command (call : SendCall) (bucket : Bucket) (reply : Nat) : PartitionCommand :=
  match call.single, bucket with
  | true, (_, record) :: _ => .append record reply
  | _, _ => .appendBatch (bucket.map Prod.snd) reply

/-! ## The topic -/

structure Hub where
  hosts : List Host
  parked : Nat
  readers : List Reader
  calls : List SendCall
  roundRobin : UInt64
  /-- The number of the next reply channel. -/
  nextReply : Nat

inductive HubEvent
  /-- A consumer is built with these cursors. -/
  | join (cursors : List Nat)
  | send (record : Record)
  | sendBatch (records : List Record)
  /-- `send` on one of several threads: the counter stood at `drawn` when the record was routed,
  and stands at `roundRobin` when the call has its partition. -/
  | sendAmong (record : Record) (drawn roundRobin : UInt64)
  /-- A batch whose routing loop other threads have interrupted, with the counter at the turn of
  each record. -/
  | sendBatchAmong (drawn : List (Record × UInt64)) (roundRobin : UInt64)
  | reader (c : Nat) (event : ReaderEvent)
  | call (k : Nat) (event : CallEvent)
  /-- Anybody sends a command to a partition. -/
  | command (p : Nat) (command : PartitionCommand)
  | host (p : Nat) (event : HostEvent)
  /-- The writer loads the counter of parked consumers. -/
  | signal (p : Nat)
  /-- The writer calls `notify_waiters`. -/
  | notify (p : Nat)

namespace Hub

/-- A topic whose partitions were just opened. -/
def start (histories : List (History Record)) : Hub :=
  ⟨histories.map Host.start, 0, [], [], 0, 0⟩

def setHost (s : Hub) (p : Nat) (host : Host) : Hub := { s with hosts := s.hosts.set p host }

def setReader (s : Hub) (c : Nat) (r : Reader) : Hub := { s with readers := s.readers.set c r }

def setCall (s : Hub) (k : Nat) (call : SendCall) : Hub := { s with calls := s.calls.set k call }

/-- Puts a command that uses the next reply channel into an inbox, if there is room. -/
def enqueue (s : Hub) (p : Nat) (host : Host) (command : PartitionCommand) : Option Hub := do
  guard (host.inbox.length < inboxCapacity)
  pure { s.setHost p (host.push command) with nextReply := s.nextReply + 1 }

def readerStep (s : Hub) (c : Nat) (r : Reader) : ReaderEvent → Option Hub
  | .next => do
    guard (r.stage = .idle)
    pure (s.setReader c { r with stage := r.stageAt false 0 })
  | .ask =>
    match r.stage with
    | .asking again i => do
      let p := r.consumer.scanIndex i
      let host ← s.hosts[p]?
      if host.accepts then do
        let s' ← s.enqueue p host (.readAt (r.consumer.position p) s.nextReply)
        pure (s'.setReader c { r with stage := .awaiting again i s.nextReply })
      else pure (s.setReader c (r.leave again))
    | _ => none
  | .receive =>
    match r.stage with
    | .awaiting again i reply => do
      let p := r.consumer.scanIndex i
      let host ← s.hosts[p]?
      match host.reply? reply with
      | some (.ok (.record (some record))) => pure (s.setReader c (r.take again p record))
      | some (.ok _) => pure (s.setReader c { r with stage := r.stageAt again (i + 1) })
      | some (.error _) => pure (s.setReader c (r.leave again))
      | none => do
        guard (host.phase = .ended)
        pure (s.setReader c (r.leave again))
    | _ => none
  | .park => do
    guard (r.stage = .caughtUp)
    pure { s.setReader c { r with stage := .marked } with parked := s.parked + 1 }
  | .enable => do
    guard (r.stage = .marked)
    pure (s.setReader c { r with stage := r.stageAt true 0, future := some false })
  | .wake => do
    guard (r.stage = .waiting ∧ r.future = some true)
    pure (s.setReader c { r with stage := .unmarking true, future := none })
  | .unmark =>
    match r.stage with
    | .unmarking loop =>
      some { s.setReader c { r with stage := if loop then r.stageAt false 0 else .idle } with
        parked := s.parked - 1 }
    | _ => none
  | .cancel => do
    guard (r.atAwait = true)
    pure (s.setReader c { r with stage := .idle, future := none })

def callStep (s : Hub) (k : Nat) (call : SendCall) : CallEvent → Option Hub
  | .issue =>
    match call.status, call.pending with
    | .running, none =>
      match call.todo with
      | [] => some (s.setCall k { call with status := .returned (.ok call.positions) })
      | (p, bucket) :: todo => do
        let host ← s.hosts[p]?
        if host.accepts then do
          let s' ← s.enqueue p host (call.command bucket s.nextReply)
          pure (s'.setCall k { call with
            todo := todo
            pending := some (p, s.nextReply, bucket)
            issued := call.issued ++ [(p, s.nextReply, bucket)] })
        else pure (s.setCall k { call with status := .returned (.error host.deathError) })
    | _, _ => none
  | .settle =>
    match call.status, call.pending with
    | .running, some (p, reply, bucket) => do
      let host ← s.hosts[p]?
      match host.reply? reply with
      | some (.ok (.offset offset)) =>
        pure (s.setCall k { call with
          pending := none, positions := scatter p call.positions bucket [offset] })
      | some (.ok (.offsets offsets)) =>
        pure (s.setCall k { call with
          pending := none, positions := scatter p call.positions bucket offsets })
      | some (.ok _) => none
      | some (.error e) => pure (s.setCall k { call with status := .returned (.error e) })
      | none => do
        guard (host.phase = .ended)
        pure (s.setCall k { call with status := .returned (.error host.deathError) })
    | _, _ => none
  | .abandon =>
    match call.status with
    | .running => some (s.setCall k { call with status := .abandoned })
    | _ => none

/-- A call that has been routed. -/
def begin (s : Hub) (single : Bool) (records : List Record) (todo : List (Nat × Bucket))
    (roundRobin : UInt64) : Hub :=
  { s with
    calls := s.calls ++ [⟨single, records, todo, none, [], List.replicate records.length ⟨0, 0⟩,
      .running, s.hosts.map fun host => host.history.next⟩]
    roundRobin := roundRobin }

def step (s : Hub) : HubEvent → Option Hub
  | .join cursors => do
    guard (cursors.length = s.hosts.length)
    pure { s with readers := s.readers ++ [⟨⟨cursors, 0⟩, .idle, none, cursors, []⟩] }
  | .send record =>
    let (p, roundRobin) := route s.hosts.length s.roundRobin record.key
    some (s.begin true [record] [(p, [(0, record)])] roundRobin)
  | .sendBatch records =>
    let (buckets, roundRobin) := fillBuckets s.hosts.length 0 s.roundRobin
      (List.replicate s.hosts.length []) records
    some (s.begin false records (sentBuckets buckets) roundRobin)
  | .sendAmong record drawn roundRobin =>
    let (p, _) := route s.hosts.length drawn record.key
    some (s.begin true [record] [(p, [(0, record)])] roundRobin)
  | .sendBatchAmong drawn roundRobin =>
    let buckets := fillBucketsAmong s.hosts.length 0 (List.replicate s.hosts.length []) drawn
    some (s.begin false (drawn.map Prod.fst) (sentBuckets buckets) roundRobin)
  | .reader c event => do
    let r ← s.readers[c]?
    s.readerStep c r event
  | .call k event => do
    let call ← s.calls[k]?
    s.callStep k call event
  | .command p command => do
    let host ← s.hosts[p]?
    guard (host.accepts = true ∧ ∀ reply, command.channel = some reply → reply = s.nextReply)
    s.enqueue p host command
  | .host p event => do
    let host ← s.hosts[p]?
    let host' ← host.act event
    pure (s.setHost p host')
  | .signal p => do
    let host ← s.hosts[p]?
    match host.phase with
    | .signalling last =>
      if 0 < s.parked then pure (s.setHost p { host with phase := .notifying last })
      else pure (s.setHost p
        { host with phase := .resume last, signalled := host.history.next })
    | _ => none
  | .notify p => do
    let host ← s.hosts[p]?
    match host.phase with
    | .notifying last =>
      pure { s.setHost p { host with phase := .resume last, signalled := host.history.next } with
        readers := s.readers.map fun r => { r with future := r.future.map fun _ => true } }
    | _ => none

def run (s : Hub) : List HubEvent → Option Hub
  | [] => some s
  | event :: events => do
    let s' ← s.step event
    s'.run events

end Hub

end Kafko
