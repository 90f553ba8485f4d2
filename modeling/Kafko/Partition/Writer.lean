import Kafko.Storage.Sessions

/-!
# The writer task of a partition

`partition.rs`. Producers and consumers talk to a partition through its inbox; one task takes
commands off it, calls the log and answers. A reply channel is the number of the call that
waits on it, and everything that was sent is kept in order in `sent`. What others can see of
the task, values of the high-water mark and replies, is kept in `emitted`.

The task wakes up for the first command in the inbox and, if that is an append, takes further
appends along as long as `try_recv` finds some. What `try_recv` finds depends on how far the
senders have got: each wake-up comes with the list of its answers (`ready`), and a list that
is used up stands for an empty inbox.
-/

namespace Kafko

open Disk

inductive PartitionCommand
  | append (record : Record) (reply : Nat)
  | appendBatch (records : List Record) (reply : Nat)
  | readAt (offset : Nat) (reply : Nat)
  | sync (reply : Nat)
  | poison
  | failNextAppend (kind : ErrorKind)
  deriving DecidableEq

/-- A value sent on the watch channel of the high-water mark, or a reply. -/
inductive Emitted
  | mark (value : Nat)
  | reply (reply : Nat) (result : Except KafkoError Reply)
  deriving DecidableEq

/-- The local variables of the writer task and the two ends it talks to. -/
structure PartitionWriter where
  log : Log
  hwm : Nat
  failNextKind : Option ErrorKind
  inbox : List PartitionCommand
  sent : List (Nat × Except KafkoError Reply)
  emitted : List Emitted

/-- What `try_recv` hands over during one wake-up: the appends, the command that ended the
batch, if one did, and the rest of the inbox. -/
structure Drained where
  records : List Record
  replies : List Nat
  other : Option PartitionCommand
  inbox : List PartitionCommand

/-- The loop of `process_with_batching`. -/
def drainAppends (batchMaxRecords batchMaxBytes : Nat) : (ready : List Bool) →
    (inbox : List PartitionCommand) → List Record → List Nat → (batchBytes : Nat) → Drained
  | true :: ready, .append record reply :: inbox, records, replies, batchBytes =>
    if records.length < batchMaxRecords ∧ batchBytes < batchMaxBytes then
      drainAppends batchMaxRecords batchMaxBytes ready inbox (records ++ [record])
        (replies ++ [reply]) (batchBytes + record.wireSize)
    else ⟨records, replies, none, .append record reply :: inbox⟩
  | true :: _, other :: inbox, records, replies, batchBytes =>
    if records.length < batchMaxRecords ∧ batchBytes < batchMaxBytes then
      ⟨records, replies, some other, inbox⟩
    else ⟨records, replies, none, other :: inbox⟩
  | _, inbox, records, replies, _ => ⟨records, replies, none, inbox⟩

namespace PartitionWriter

variable {α : Type}

def onLog (m : LogIO Log α) : LogIO PartitionWriter α :=
  Fx.zoom PartitionWriter.log (fun s log => { s with log := log }) m

def send (reply : Nat) (result : Except KafkoError Reply) : LogIO PartitionWriter Unit :=
  Fx.modify fun s => { s with
    sent := s.sent ++ [(reply, result)]
    emitted := s.emitted ++ [.reply reply result] }

/-- `hwm_tx.send(last + 1)`. -/
def publish (last : Nat) : LogIO PartitionWriter Unit :=
  Fx.modify fun s => { s with hwm := last + 1, emitted := s.emitted ++ [.mark (last + 1)] }

/-- Sends the results of a batch to the callers, in order. -/
def sendAll (results : List (Nat × Except KafkoError Reply)) : LogIO PartitionWriter Unit :=
  Fx.modify fun s => { s with
    sent := s.sent ++ results
    emitted := s.emitted ++ results.map fun (reply, result) => .reply reply result }

/-- `fail_next_kind.take()`. -/
def takeFailNextKind : LogIO PartitionWriter (Option ErrorKind) := do
  let s ← Fx.get
  Fx.modify fun s => { s with failNextKind := none }
  pure s.failNextKind

def flushAppendBatch (X : Crates) (records : List Record) (replies : List Nat) :
    LogIO PartitionWriter Unit :=
  if records.isEmpty then pure ()
  else do
    match ← takeFailNextKind with
    | some kind => sendAll (replies.map fun reply => (reply, .error (.io kind)))
    | none =>
      match ← Fx.attempt (onLog (Log.appendBatch X records)) with
      | .ok offsets => do
        match offsets.getLast? with
        | some last => publish last
        | none => pure ()
        sendAll ((offsets.zip replies).map fun (offset, reply) => (reply, .ok (.offset offset)))
      | .error e => sendAll (replies.map fun reply => (reply, .error e))

def flushExplicitBatch (X : Crates) (records : List Record) (reply : Nat) :
    LogIO PartitionWriter Unit := do
  match ← takeFailNextKind with
  | some kind => send reply (.error (.io kind))
  | none =>
    match ← Fx.attempt (onLog (Log.appendBatch X records)) with
    | .ok offsets => do
      match offsets.getLast? with
      | some last => publish last
      | none => pure ()
      send reply (.ok (.offsets offsets))
    | .error e => send reply (.error e)

def handleSingleCommand (X : Crates) : PartitionCommand → LogIO PartitionWriter Unit
  | .append record reply => do
    match ← takeFailNextKind with
    | some kind => send reply (.error (.io kind))
    | none =>
      match ← Fx.attempt (onLog (Log.append X record)) with
      | .ok offset => do
        publish offset
        send reply (.ok (.offset offset))
      | .error e => send reply (.error e)
  | .appendBatch records reply => flushExplicitBatch X records reply
  | .readAt offset reply => do
    match ← Fx.attempt (onLog (Log.readRecordAt X offset)) with
    | .ok record => send reply (.ok (.record record))
    | .error e => send reply (.error e)
  | .sync reply => do
    match ← Fx.attempt (onLog Log.sync) with
    | .ok _ => send reply (.ok .done)
    | .error e => send reply (.error e)
  | .poison => Fx.panic "intentional panic from poison command (test-only)"
  | .failNextAppend kind => Fx.modify fun s => { s with failNextKind := some kind }

/-- One wake-up for `first`; `ready` are the answers of `try_recv`. -/
def processWithBatching (X : Crates) (ready : List Bool) :
    PartitionCommand → LogIO PartitionWriter Unit
  | .append record reply => do
    let s ← Fx.get
    let drained := drainAppends s.log.config.batchMaxRecords s.log.config.batchMaxBytes ready
      s.inbox [record] [reply] record.wireSize
    Fx.modify fun s => { s with inbox := drained.inbox }
    flushAppendBatch X drained.records drained.replies
    match drained.other with
    | some other => handleSingleCommand X other
    | none => pure ()
  | other => handleSingleCommand X other

/-- The branches of the `select!` in the writer loop. A `recv` on an empty inbox waits. -/
inductive Turn
  | recv (ready : List Bool)
  | retentionTick
  deriving DecidableEq

def takeTurn (X : Crates) : Turn → LogIO PartitionWriter Unit
  | .recv ready => do
    let s ← Fx.get
    match s.inbox with
    | [] => pure ()
    | first :: inbox => do
      Fx.modify fun s => { s with inbox := inbox }
      processWithBatching X ready first
  | .retentionTick => do
    let _ ← Fx.attempt (onLog Log.applyRetention)
    pure ()

/-- The loop, for the turns it takes. -/
def writerLoop (X : Crates) : List Turn → LogIO PartitionWriter Unit
  | [] => pure ()
  | turn :: turns => do
    takeTurn X turn
    writerLoop X turns

/-- What the task does once its inbox is closed and drained; the result of the sync is
dropped. -/
def finish : LogIO PartitionWriter Unit := do
  let _ ← Fx.attempt (onLog Log.sync)
  pure ()

/-- The writer of a partition that was just opened; the watch channel starts with the next
offset. -/
def start (log : Log) (inbox : List PartitionCommand) : PartitionWriter :=
  ⟨log, log.nextOffset, none, inbox, [], [.mark log.nextOffset]⟩

/-- Handles commands one at a time. -/
def handleEach (X : Crates) : List PartitionCommand → LogIO PartitionWriter Unit
  | [] => pure ()
  | command :: commands => do
    handleSingleCommand X command
    handleEach X commands

end PartitionWriter

end Kafko
