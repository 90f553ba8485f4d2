import Kafko.Systems.Simulation
import Kafko.Topic.Replies

/-!
# A topic on its disks

In the `Hub` a partition is a list. Here it is the writer task of `partition.rs` with its log and
its files: a wake-up runs `takeTurn`, file system and all. Consumers, producers and the handles
of the partitions are those of the `Hub`; they never look into the lists (`forget_step`), so the
lists can be taken away from them and kept in the files. The files then always hold what the lists
would (`topic_refines_hub`).
-/

namespace Kafko

open Disk Systems

/-! ## The hub without its lists -/

def Host.forget (host : Host) : Host := { host with history := .empty, signalled := 0 }

def SendCall.forget (call : SendCall) : SendCall :=
  { call with begun := call.begun.map fun _ => 0 }

/-- Everything of a topic but what the partitions hold. -/
def Hub.forget (s : Hub) : Hub :=
  { s with hosts := s.hosts.map .forget, calls := s.calls.map .forget }

/-- Events that run no code of a writer between its inbox and its log. -/
def HubEvent.OnFloor : HubEvent → Prop
  | .host _ event => event = .close
  | _ => True

namespace Hub

variable {s s' : Hub} {host : Host} {event : HubEvent}

theorem forget_getElem? (s : Hub) (p : Nat) :
    s.forget.hosts[p]? = (s.hosts[p]?).map Host.forget := List.getElem?_map

theorem forget_setHost (s : Hub) (p : Nat) (host : Host) :
    (s.setHost p host).forget = s.forget.setHost p host.forget := by
  simp [forget, setHost, List.map_set]

theorem forget_setReader (s : Hub) (c : Nat) (r : Reader) :
    (s.setReader c r).forget = s.forget.setReader c r := rfl

theorem forget_setCall (s : Hub) (k : Nat) (call : SendCall) :
    (s.setCall k call).forget = s.forget.setCall k call.forget := by
  simp [forget, setCall, List.map_set]

theorem forget_enqueue (s : Hub) (p : Nat) (host : Host) (command : PartitionCommand) :
    s.forget.enqueue p host.forget command = (s.enqueue p host command).map forget := by
  by_cases hRoom : host.inbox.length < inboxCapacity
  · have hRoom' : host.forget.inbox.length < inboxCapacity := hRoom
    simp only [enqueue, guard, hRoom, hRoom', if_true]
    simp [forget, setHost, List.map_set, Host.push, Host.forget]
  · have hRoom' : ¬ host.forget.inbox.length < inboxCapacity := hRoom
    simp [enqueue, guard, hRoom, hRoom']

theorem forget_readerStep (s : Hub) (c : Nat) (r : Reader) (event : ReaderEvent) :
    s.forget.readerStep c r event = (s.readerStep c r event).map forget := by
  cases event with
  | next =>
    by_cases hIdle : r.stage = .idle <;> simp [readerStep, guard, hIdle, forget_setReader]
  | ask =>
    cases hStage : r.stage with
    | asking again i =>
      simp only [readerStep, hStage, forget_getElem?]
      cases s.hosts[r.consumer.scanIndex i]? with
      | none => rfl
      | some host =>
        have hAccepts : host.forget.accepts = host.accepts := rfl
        simp only [Option.map_some, Option.bind_eq_bind, Option.bind_some, hAccepts]
        cases host.accepts with
        | true =>
          have hEnqueue := s.forget_enqueue (r.consumer.scanIndex i) host
            (.readAt (r.consumer.position (r.consumer.scanIndex i)) s.nextReply)
          have hNext : s.forget.nextReply = s.nextReply := rfl
          simp only [if_true, hNext, hEnqueue]
          cases s.enqueue (r.consumer.scanIndex i) host
            (.readAt (r.consumer.position (r.consumer.scanIndex i)) s.nextReply) <;> rfl
        | false => rfl
    | _ => simp [readerStep, hStage]
  | receive =>
    cases hStage : r.stage with
    | awaiting again i reply =>
      simp only [readerStep, hStage, forget_getElem?]
      cases s.hosts[r.consumer.scanIndex i]? with
      | none => rfl
      | some host =>
        have hReply : host.forget.reply? reply = host.reply? reply := rfl
        have hPhase : host.forget.phase = host.phase := rfl
        simp only [Option.map_some, Option.bind_eq_bind, Option.bind_some, hReply, hPhase]
        cases host.reply? reply with
        | none => by_cases hEnded : host.phase = .ended <;> simp [guard, hEnded, forget_setReader]
        | some result =>
          cases result with
          | error e => rfl
          | ok answer =>
            cases answer with
            | record found => cases found <;> rfl
            | _ => rfl
    | _ => simp [readerStep, hStage]
  | park =>
    by_cases hStage : r.stage = .caughtUp <;> simp [readerStep, guard, hStage, forget, setReader]
  | enable =>
    by_cases hStage : r.stage = .marked <;> simp [readerStep, guard, hStage, forget_setReader]
  | wake =>
    by_cases hStage : r.stage = .waiting ∧ r.future = some true <;>
      simp [readerStep, guard, hStage, forget_setReader]
  | unmark =>
    cases hStage : r.stage <;> simp [readerStep, hStage, forget, setReader]
  | cancel =>
    by_cases hAwait : r.atAwait = true <;> simp [readerStep, guard, hAwait, forget_setReader]

theorem forget_callStep (s : Hub) (k : Nat) (call : SendCall) (event : CallEvent) :
    s.forget.callStep k call.forget event = (s.callStep k call event).map forget := by
  have hStatus : call.forget.status = call.status := rfl
  have hPending : call.forget.pending = call.pending := rfl
  cases event with
  | issue =>
    have hTodo : call.forget.todo = call.todo := rfl
    simp only [callStep, hStatus, hPending, hTodo]
    cases hRunning : call.status with
    | running =>
      cases hNone : call.pending with
      | some x => rfl
      | none =>
        cases hList : call.todo with
        | nil =>
          dsimp only
          rw [Option.map_some, forget_setCall]
          rfl
        | cons first todo =>
          obtain ⟨p, bucket⟩ := first
          simp only [forget_getElem?]
          cases s.hosts[p]? with
          | none => rfl
          | some host =>
            have hAccepts : host.forget.accepts = host.accepts := rfl
            simp only [Option.map_some, Option.bind_eq_bind, Option.bind_some, hAccepts]
            cases host.accepts with
            | true =>
              have hEnqueue := s.forget_enqueue p host (call.command bucket s.nextReply)
              have hNext : s.forget.nextReply = s.nextReply := rfl
              have hCommand : call.forget.command bucket s.nextReply =
                call.command bucket s.nextReply := rfl
              simp only [if_true, hNext, hCommand, hEnqueue]
              cases s.enqueue p host (call.command bucket s.nextReply) with
              | none => rfl
              | some s' => simp [forget_setCall, SendCall.forget]
            | false => simp [forget_setCall, SendCall.forget, Host.forget, Host.deathError]
    | _ => rfl
  | settle =>
    simp only [callStep, hStatus, hPending]
    cases hRunning : call.status with
    | running =>
      cases hSome : call.pending with
      | none => rfl
      | some x =>
        obtain ⟨p, reply, bucket⟩ := x
        simp only [forget_getElem?]
        cases s.hosts[p]? with
        | none => rfl
        | some host =>
          have hReply : host.forget.reply? reply = host.reply? reply := rfl
          have hPhase : host.forget.phase = host.phase := rfl
          have hDeath : host.forget.deathError = host.deathError := rfl
          simp only [Option.map_some, Option.bind_eq_bind, Option.bind_some, hReply, hPhase, hDeath]
          cases host.reply? reply with
          | none =>
            by_cases hEnded : host.phase = .ended <;>
              simp [guard, hEnded, forget_setCall, SendCall.forget]
          | some result =>
            cases result with
            | error e => simp [forget_setCall, SendCall.forget]
            | ok answer => cases answer <;> simp [forget_setCall, SendCall.forget]
    | _ => rfl
  | abandon =>
    simp only [callStep, hStatus]
    cases hRunning : call.status <;> simp [forget_setCall, SendCall.forget]

theorem forget_begin (s : Hub) (single : Bool) (records : List Record) (todo : List (Nat × Bucket))
    (roundRobin : UInt64) :
    s.forget.begin single records todo roundRobin = (s.begin single records todo roundRobin).forget := by
  simp [begin, forget, SendCall.forget, Host.forget, History.next, History.empty, Function.comp_def]

/-- What happens outside of the writers does not depend on what the partitions hold. -/
theorem forget_step (s : Hub) {event : HubEvent} (hFloor : event.OnFloor) :
    s.forget.step event = (s.step event).map forget := by
  have hCount : s.forget.hosts.length = s.hosts.length := by simp [forget]
  cases event with
  | join cursors =>
    by_cases hLen : cursors.length = s.hosts.length <;> simp [step, guard, hLen, forget]
  | send record =>
    simp only [step, hCount, Option.map_some, ← forget_begin]
    rfl
  | sendBatch records =>
    simp only [step, hCount, Option.map_some, ← forget_begin]
    rfl
  | sendAmong record drawn roundRobin =>
    simp only [step, hCount, Option.map_some, ← forget_begin]
  | sendBatchAmong drawn roundRobin =>
    simp only [step, hCount, Option.map_some, ← forget_begin]
  | reader c event =>
    have hReaders : s.forget.readers = s.readers := rfl
    simp only [step, hReaders]
    cases s.readers[c]? with
    | none => rfl
    | some r => exact s.forget_readerStep c r event
  | call k event =>
    have hCalls : s.forget.calls[k]? = (s.calls[k]?).map SendCall.forget := List.getElem?_map
    simp only [step, hCalls]
    cases s.calls[k]? with
    | none => rfl
    | some call => exact s.forget_callStep k call event
  | command p command =>
    simp only [step, forget_getElem?]
    cases s.hosts[p]? with
    | none => rfl
    | some host =>
      have hAccepts : host.forget.accepts = host.accepts := rfl
      have hNext : s.forget.nextReply = s.nextReply := rfl
      simp only [Option.map_some, Option.bind_eq_bind, Option.bind_some, hAccepts, hNext,
        forget_enqueue]
      by_cases hGuard : host.accepts = true ∧
        ∀ reply, command.channel = some reply → reply = s.nextReply <;> simp [guard, hGuard]
  | host p event =>
    obtain rfl : event = .close := hFloor
    simp only [step, forget_getElem?]
    cases s.hosts[p]? with
    | none => rfl
    | some host => simp [Host.act, forget_setHost, Host.forget]
  | signal p =>
    simp only [step, forget_getElem?]
    cases s.hosts[p]? with
    | none => rfl
    | some host =>
      have hPhase : host.forget.phase = host.phase := rfl
      have hParked : s.forget.parked = s.parked := rfl
      simp only [Option.map_some, Option.bind_eq_bind, Option.bind_some, hPhase, hParked]
      cases hCase : host.phase with
      | signalling last =>
        by_cases hSome : 0 < s.parked <;>
          simp [hSome, forget_setHost, Host.forget, History.next, History.empty]
      | _ => rfl
  | notify p =>
    simp only [step, forget_getElem?]
    cases s.hosts[p]? with
    | none => rfl
    | some host =>
      have hPhase : host.forget.phase = host.phase := rfl
      simp only [Option.map_some, Option.bind_eq_bind, Option.bind_some, hPhase]
      cases hCase : host.phase with
      | notifying last =>
        simp [forget, setHost, List.map_set, Host.forget, History.next, History.empty]
      | _ => rfl

def histories (s : Hub) : List (History Record) := s.hosts.map Host.history

theorem histories_setHost (s : Hub) (p : Nat) (host : Host) :
    (s.setHost p host).histories = s.histories.set p host.history := List.map_set

theorem histories_kept {p : Nat} {host' : Host} (hHost : s.hosts[p]? = some host)
    (hSame : host'.history = host.history) : (s.setHost p host').histories = s.histories := by
  obtain ⟨hp, rfl⟩ := List.getElem?_eq_some_iff.mp hHost
  have hp' : p < s.histories.length := by
    rw [histories, List.length_map]
    exact hp
  have hGet : s.histories[p] = s.hosts[p].history := List.getElem_map _
  rw [histories_setHost, hSame, ← hGet, List.set_getElem_self]

theorem histories_reader {c : Nat} {r r' : Reader} {effect : Effect} (h : r.Steps s effect r') :
    ((s.applied effect).setReader c r').histories = s.histories := by
  cases h with
  | ask _ hHost _ => exact histories_kept hHost rfl
  | _ => rfl

theorem histories_call {k : Nat} {call call' : SendCall} {effect : Effect}
    (h : call.Steps s effect call') : ((s.applied effect).setCall k call').histories = s.histories := by
  cases h with
  | issue _ _ _ hHost _ => exact histories_kept hHost rfl
  | _ => rfl

/-- Only the writers write. -/
theorem histories_step (hFloor : event.OnFloor) (h : s.step event = some s') :
    s'.histories = s.histories := by
  cases event with
  | join cursors =>
    obtain ⟨_, -, hEq⟩ := Option.bind_eq_some_iff.mp h
    cases hEq
    rfl
  | send record =>
    cases h
    rfl
  | sendBatch records =>
    cases h
    rfl
  | sendAmong record drawn roundRobin =>
    cases h
    rfl
  | sendBatchAmong drawn roundRobin =>
    cases h
    rfl
  | reader c event =>
    obtain ⟨r, -, hStep⟩ := Option.bind_eq_some_iff.mp h
    obtain ⟨effect, r', hSteps, rfl, -⟩ := readerStep_cases hStep
    exact histories_reader hSteps
  | call k event =>
    obtain ⟨call, -, hStep⟩ := Option.bind_eq_some_iff.mp h
    obtain ⟨effect, call', hSteps, rfl, -⟩ := callStep_cases hStep
    exact histories_call hSteps
  | command p command =>
    obtain ⟨host, hHost, -, rfl⟩ := command_cases h
    exact histories_kept hHost rfl
  | host p event =>
    obtain rfl : event = .close := hFloor
    obtain ⟨host, host', hHost, hAct, rfl⟩ := host_cases h
    cases hAct
    exact histories_kept hHost rfl
  | signal p =>
    obtain ⟨host, last, hHost, -, ⟨-, rfl⟩ | ⟨-, rfl⟩⟩ := signal_cases h
    · exact histories_kept hHost rfl
    · exact histories_kept hHost rfl
  | notify p =>
    obtain ⟨host, last, hHost, -, rfl⟩ := notify_cases h
    exact histories_kept hHost rfl

/-- The hub with the choices of its writers left open. -/
def system (histories : List (History Record)) : System Hub (Option HubEvent) where
  starts s := s = start histories
  step s event s' :=
    match event with
    | some event => event.OnFloor ∧ s.step event = some s'
    | none => ∃ p event, s.step (.host p event) = some s'

end Hub

/-! ## Writers that panic -/

namespace PartitionWriter

variable {X : Crates} {env : Env FileName} {s s' : PartitionWriter} {w w' : World FileName}
  {h : History Record} {n : Nat} {α : Type} {message : String}

def calmPost (α : Type) : Post FileName KafkoError PartitionWriter α where
  ok := fun _ _ _ => True
  err := fun _ _ _ => True
  panic := fun _ _ _ => False
  crash := fun _ _ => True

/-- A call of the log whose specification has no panic. -/
theorem wp_onLog_calm {m : LogIO Log α} {k : Except KafkoError α → LogIO PartitionWriter Unit}
    {P : Post FileName KafkoError Log α} (hm : wp env m P s.log w)
    (hPanic : ∀ p log' w', ¬ P.panic p log' w')
    (hk : ∀ r s' w', wp env (k r) (calmPost Unit) s' w') :
    wp env (Fx.attempt (onLog m) >>= k) (calmPost Unit) s w := by
  rw [wp_bind, wp_attempt, onLog, wp_zoom]
  exact wp_mono hm (fun a _ _ _ => hk (.ok a) _ _) (fun e _ _ _ => hk (.error e) _ _)
    (fun p log' w' hP => (hPanic p log' w' hP).elim) (fun _ _ _ => trivial)

theorem flushAppendBatch_calm (ts : List Nat) (hX : X.Lawful) (hClean : Clean env)
    (hRef : Refines X s.log w.store h n) {rs : List Record} (hNe : rs ≠ [])
    (hOp : LogOp.Admissible X s.log (.appendBatch rs)) :
    wp env (flushAppendBatch X rs ts) (calmPost Unit) s w := by
  have hEmpty : rs.isEmpty = false := by simpa using hNe
  rw [flushAppendBatch, hEmpty]
  change wp env (takeFailNextKind >>= _) _ s w
  rw [wp_bind]
  change wp env _ _ { s with failNextKind := none } w
  cases s.failNextKind with
  | some kind => trivial
  | none =>
    refine wp_onLog_calm (exec_appendBatch hX hClean hRef hOp hNe) (fun _ _ _ hP => hP) ?_
    intro r s' w'
    cases r with
    | error e => trivial
    | ok offsets => cases hLast : offsets.getLast? <;> simp only [hLast] <;> trivial

/-- Only the poisoned command panics. -/
theorem handleSingleCommand_calm (hX : X.Lawful) (hClean : Clean env)
    (hRef : Refines X s.log w.store h n) {command : PartitionCommand} (hAlone : command ≠ .poison)
    (hOp : ∀ op, command.op = some op → op.Admissible X s.log) :
    wp env (handleSingleCommand X command) (calmPost Unit) s w := by
  cases command with
  | append r t =>
    change wp env (takeFailNextKind >>= _) _ s w
    rw [wp_bind]
    change wp env _ _ { s with failNextKind := none } w
    cases s.failNextKind with
    | some kind => trivial
    | none =>
      refine wp_onLog_calm (exec_append hX hClean hRef (hOp _ rfl)) (fun _ _ _ hP => hP) ?_
      intro r s' w'
      cases r <;> trivial
  | appendBatch rs t =>
    change wp env (takeFailNextKind >>= _) _ s w
    rw [wp_bind]
    change wp env _ _ { s with failNextKind := none } w
    cases s.failNextKind with
    | some kind => trivial
    | none =>
      by_cases hNil : rs = []
      · subst hNil
        trivial
      · refine wp_onLog_calm (exec_appendBatch hX hClean hRef (hOp _ rfl) hNil)
          (fun _ _ _ hP => hP) ?_
        intro r s' w'
        cases r with
        | error e => trivial
        | ok offsets => cases hLast : offsets.getLast? <;> simp only [hLast] <;> trivial
  | readAt offset t =>
    refine wp_onLog_calm (exec_readRecordAt hClean.fullReads hRef offset) (fun _ _ _ hP => hP) ?_
    intro r s' w'
    cases r <;> trivial
  | sync t =>
    refine wp_onLog_calm (exec_sync hRef) (fun _ _ _ hP => hP) ?_
    intro r s' w'
    cases r <;> trivial
  | poison => exact absurd rfl hAlone
  | failNextAppend kind => trivial

/-- What a wake-up that ends in a panic has done: it answered some appends. -/
structure Panicked (X : Crates) (s : PartitionWriter) (h : History Record)
    (taken : List PartitionCommand) (faults : List (Option KafkoError)) (s' : PartitionWriter)
    (w' : World FileName) : Prop where
  appends : ∀ command ∈ taken, command.isAppend = true
  matched : faults.length = taken.length
  inbox : s.inbox = taken ++ .poison :: s'.inbox
  sent : s'.sent = s.sent ++ (h.respondAll faults taken).1
  refines : ∃ n', Refines X s'.log w'.store (h.respondAll faults taken).2 n'

theorem flushDrained_panics (hX : X.Lawful) (hClean : Clean env)
    (hRef : Refines X s.log w.store h n) {drained : Drained} (hNe : drained.records ≠ [])
    (hLen : drained.records.length = drained.replies.length)
    (hBatch : LogOp.Admissible X s.log (.appendBatch drained.records))
    (hOther : ∀ other, drained.other = some other → ∀ op, other.op = some op → ∀ s₁ w₁,
      flushAppendBatch X drained.records drained.replies env s w = (.ok (), s₁, w₁) →
        op.Admissible X s₁.log)
    (hRun : flushDrained X drained env s w = (.panic message, s', w')) :
    drained.other = some .poison ∧
      Responds X s h (List.zipWith .append drained.records drained.replies) s' w' := by
  have hCalm := flushAppendBatch_calm drained.replies hX hClean hRef hNe hBatch
  rcases Fx.bind_eq_panic hRun with hFirst | ⟨_, s₁, w₁, hFlush, hRest⟩
  · exact (panic_of_wp hCalm hFirst).elim
  · have hFlushed := ok_of_wp (flushAppendBatch_responds hX hClean hRef hNe hLen hBatch) hFlush
    cases hOpt : drained.other with
    | none =>
      rw [hOpt] at hRest
      cases hRest
    | some other =>
      rw [hOpt] at hRest
      by_cases hPoison : other = .poison
      · subst hPoison
        cases hRest
        exact ⟨rfl, hFlushed⟩
      · obtain ⟨faults, n₁, -, -, -, hRef₁⟩ := hFlushed
        have hQuiet := handleSingleCommand_calm hX hClean hRef₁ hPoison
          (fun op hOp => hOther other hOpt op hOp s₁ w₁ hFlush)
        exact (panic_of_wp hQuiet hRest).elim

/-- A wake-up that panics has met the poisoned command, after it had answered the appends it took
along. -/
theorem takeTurn_panics (hX : X.Lawful) (hClean : Clean env)
    (hRef : Refines X s.log w.store h n) {ready : List Bool} (hInbox : s.inbox ≠ [])
    (hOps : AdmissibleTurn X env ready s w)
    (hRun : takeTurn X (.recv ready) env s w = (.panic message, s', w')) :
    ∃ taken faults, Panicked X s h taken faults s' w' := by
  obtain ⟨first, inbox, hCons⟩ := List.exists_cons_of_ne_nil hInbox
  rw [run_recv_cons hCons] at hRun
  have hRef' : Refines X { s with inbox := inbox }.log w.store h n := hRef
  unfold AdmissibleTurn at hOps
  rw [hCons] at hOps
  have hAlone : first ≠ .poison → (∀ op, first.op = some op → op.Admissible X s.log) →
      handleSingleCommand X first env { s with inbox := inbox } w ≠ (.panic message, s', w') := by
    intro hFirst hOp hHandle
    exact panic_of_wp (handleSingleCommand_calm hX hClean hRef' hFirst hOp) hHandle
  cases first with
  | append r t =>
    rw [run_process_append rfl] at hRun
    obtain ⟨hLen, hPrefix, hSplit⟩ := drainAppends_split s.log.config.batchMaxRecords
      s.log.config.batchMaxBytes ready inbox [r] [t] r.wireSize rfl
    dsimp only at hRun hOps
    generalize hDrained : drainAppends s.log.config.batchMaxRecords s.log.config.batchMaxBytes ready
      inbox [r] [t] r.wireSize = drained at hLen hPrefix hSplit hOps hRun
    have hNe : drained.records ≠ [] := by
      intro hNil
      rw [hNil] at hPrefix
      simp at hPrefix
    have hRef'' : Refines X { s with inbox := drained.inbox }.log w.store h n := hRef
    obtain ⟨hPoison, faults, n', hFaults, hRest, hSent, hRef₁⟩ :=
      flushDrained_panics hX hClean hRef'' hNe hLen hOps.1 hOps.2 hRun
    refine ⟨_, faults, ?_, hFaults, ?_, hSent, n', hRef₁⟩
    · intro command hMem
      obtain ⟨r, t, rfl⟩ := zipWith_append_isAppend hMem
      rfl
    · rw [hRest, hCons]
      rw [hPoison, Option.toList_some, List.append_assoc] at hSplit
      exact hSplit.symm
  | poison =>
    cases hRun
    exact ⟨[], [], by simp, rfl, hCons, (List.append_nil _).symm, n, hRef⟩
  | appendBatch rs t => exact absurd hRun (hAlone (by simp) hOps)
  | readAt offset t => exact absurd hRun (hAlone (by simp) hOps)
  | sync t => exact absurd hRun (hAlone (by simp) hOps)
  | failNextAppend kind => exact absurd hRun (hAlone (by simp) hOps)

end PartitionWriter

/-! ## The plant -/

/-- A topic with the tasks and files of its partitions. -/
structure Plant where
  /-- The consumers, the calls and the two ends of every partition; its lists stay empty. -/
  floor : Hub
  writers : List (PartitionWriter × World FileName)

inductive PlantEvent
  /-- A consumer, a producer, a signal of a writer, or the end of a handle. -/
  | floor (event : HubEvent)
  /-- The writer answers some commands. -/
  | turn (p : Nat)
  /-- The writer panics in a wake-up. -/
  | panic (p : Nat)
  | retentionTick (p : Nat)
  /-- The writer syncs its log and leaves its loop. -/
  | finish (p : Nat)

/-- What is seen of an event outside of the writers. -/
def PlantEvent.seen : PlantEvent → Option HubEvent
  | floor event => some event
  | _ => none

/-- The writer task as it finds its inbox. -/
def Host.load (host : Host) (s : PartitionWriter) : PartitionWriter :=
  { s with inbox := host.inbox, sent := host.sent }

namespace Plant

/-- A topic whose logs were just opened. -/
def start (logs : List (Log × World FileName)) : Plant :=
  ⟨.start (logs.map fun _ => .empty), logs.map fun (log, w) => (.start log [], w)⟩

/-- The writer of a partition is in its `select!`. -/
structure Serves (t : Plant) (p : Nat) (host : Host) (s : PartitionWriter) (w : World FileName) :
    Prop where
  here : t.floor.hosts[p]? = some host
  writer : t.writers[p]? = some (s, w)
  serving : host.phase = .serving

def put (t : Plant) (p : Nat) (host : Host) (s : PartitionWriter) (w : World FileName) : Plant :=
  ⟨t.floor.setHost p host, t.writers.set p (s, w)⟩

inductive Step (X : Crates) : Plant → PlantEvent → Plant → Prop
  | floor {t : Plant} {event : HubEvent} {floor : Hub} (hFloor : event.OnFloor)
      (hStep : t.floor.step event = some floor) : Step X t (.floor event) { t with floor := floor }
  | recv {t : Plant} {p : Nat} {host : Host} {s s' : PartitionWriter} {w w' : World FileName}
      {env : Env FileName} {ready : List Bool} (hServes : t.Serves p host s w)
      (hInbox : host.inbox ≠ []) (hClean : Clean env)
      (hOps : PartitionWriter.AdmissibleTurn X env ready (host.load s) w)
      (hRun : PartitionWriter.takeTurn X (.recv ready) env (host.load s) w = (.ok (), s', w')) :
      Step X t (.turn p) (t.put p
        { host with inbox := s'.inbox, sent := s'.sent, phase := .signalling false } s' w')
  | panic {t : Plant} {p : Nat} {host : Host} {s s' : PartitionWriter} {w w' : World FileName}
      {env : Env FileName} {ready : List Bool} {message : String} (hServes : t.Serves p host s w)
      (hInbox : host.inbox ≠ []) (hClean : Clean env)
      (hOps : PartitionWriter.AdmissibleTurn X env ready (host.load s) w)
      (hRun : PartitionWriter.takeTurn X (.recv ready) env (host.load s) w =
        (.panic message, s', w')) :
      Step X t (.panic p) (t.put p { host with
        inbox := [], sent := s'.sent, phase := .ended, panicked := some message } s' w')
  | retentionTick {t : Plant} {p : Nat} {host : Host} {s s' : PartitionWriter}
      {w w' : World FileName} {env : Env FileName} (hServes : t.Serves p host s w)
      (hClean : Clean env)
      (hRun : PartitionWriter.takeTurn X .retentionTick env (host.load s) w = (.ok (), s', w')) :
      Step X t (.retentionTick p) (t.put p host s' w')
  /-- The inbox is closed and drained. -/
  | finish {t : Plant} {p : Nat} {host : Host} {s s' : PartitionWriter} {w w' : World FileName}
      {env : Env FileName} (hServes : t.Serves p host s w) (hClosed : host.closed = true)
      (hInbox : host.inbox = [])
      (hRun : PartitionWriter.finish env (host.load s) w = (.ok (), s', w')) :
      Step X t (.finish p) (t.put p { host with phase := .signalling true } s' w')

/-- The topic as it is seen outside of the writers. -/
def system (X : Crates) (logs : List (Log × World FileName)) : System Plant (Option HubEvent) :=
  ⟨fun t => t = start logs, fun t seen t' => ∃ event, event.seen = seen ∧ Step X t event t'⟩

/-- The files hold the lists of the hub. -/
structure Mirrors (X : Crates) (t : Plant) (s : Hub) : Prop where
  floor : t.floor = s.forget
  count : t.writers.length = s.hosts.length
  refines : ∀ (p : Nat) (h : History Record) (writer : PartitionWriter) (w : World FileName),
    s.histories[p]? = some h → t.writers[p]? = some (writer, w) →
      ∃ n, Refines X writer.log w.store h n

/-- Nobody has been answered with an error. -/
def Faultless (t : Plant) : Prop :=
  ∀ (p : Nat) (host : Host), t.floor.hosts[p]? = some host →
    ∀ reply error, (reply, .error error) ∉ host.sent

/-- What the hub does while the plant takes a step to `t'`. -/
inductive Shows (t' : Plant) : PlantEvent → HubEvent → Prop
  | floor {event : HubEvent} (hFloor : event.OnFloor) : Shows t' (.floor event) event
  | turn {p : Nat} {faults : List (Option KafkoError)}
      (hNone : t'.Faultless → ∀ fault ∈ faults, fault = none) :
      Shows t' (.turn p) (.host p (.turn faults))
  | panic {p : Nat} {faults : List (Option KafkoError)} {message : String} :
      Shows t' (.panic p) (.host p (.panic faults message))
  | retentionTick {p oldest : Nat} : Shows t' (.retentionTick p) (.host p (.retention oldest))
  | finish {p : Nat} : Shows t' (.finish p) (.host p .finish)

theorem Shows.seen {t' : Plant} {event : PlantEvent} {shown : HubEvent} (h : Shows t' event shown) :
    event.seen = some shown ∧ shown.OnFloor ∨
      event.seen = none ∧ ∃ p inner, shown = .host p inner := by
  cases h with
  | floor hFloor => exact Or.inl ⟨rfl, hFloor⟩
  | turn => exact Or.inr ⟨rfl, _, _, rfl⟩
  | panic => exact Or.inr ⟨rfl, _, _, rfl⟩
  | retentionTick => exact Or.inr ⟨rfl, _, _, rfl⟩
  | finish => exact Or.inr ⟨rfl, _, _, rfl⟩

variable {X : Crates} {t t' : Plant} {s : Hub}

/-- A writer has moved, and its list with it. -/
theorem Mirrors.put (hMirrors : Mirrors X t s) {p n : Nat} {host host' : Host}
    {writer : PartitionWriter} {w : World FileName} (hHost : s.hosts[p]? = some host)
    (hRef : Refines X writer.log w.store host'.history n) :
    Mirrors X (t.put p host'.forget writer w) (s.setHost p host') where
  floor := by rw [Hub.forget_setHost, ← hMirrors.floor, Plant.put]
  count := by
    rw [Plant.put, List.length_set, Hub.setHost, List.length_set]
    exact hMirrors.count
  refines q h writer' w' hHistory hWriter := by
    rw [Hub.histories_setHost] at hHistory
    change (t.writers.set p (writer, w))[q]? = some (writer', w') at hWriter
    by_cases hq : p = q
    · subst hq
      have hp : p < s.hosts.length := (List.getElem?_eq_some_iff.mp hHost).1
      rw [List.getElem?_set_self (by rw [hMirrors.count]; exact hp)] at hWriter
      rw [List.getElem?_set_self (by rw [Hub.histories, List.length_map]; exact hp)] at hHistory
      cases hWriter
      cases hHistory
      exact ⟨n, hRef⟩
    · rw [List.getElem?_set_ne hq] at hHistory hWriter
      exact hMirrors.refines q h writer' w' hHistory hWriter

/-- The list of a writer that serves. -/
theorem Mirrors.at (hMirrors : Mirrors X t s) {p : Nat} {host : Host} {writer : PartitionWriter}
    {w : World FileName} (hServes : t.Serves p host writer w) :
    ∃ full n, s.hosts[p]? = some full ∧ host = full.forget ∧
      Refines X (host.load writer).log w.store full.history n := by
  have hHost := hServes.here
  rw [hMirrors.floor, Hub.forget_getElem?] at hHost
  obtain ⟨full, hFull, rfl⟩ := Option.map_eq_some_iff.mp hHost
  have hHistory : s.histories[p]? = some full.history := by
    rw [Hub.histories, List.getElem?_map, hFull]
    rfl
  obtain ⟨n, hRef⟩ := hMirrors.refines p _ _ _ hHistory hServes.writer
  exact ⟨full, n, hFull, rfl, hRef⟩

/-- The first commands of an inbox. -/
theorem take_of_inbox (host : Host) {taken rest : List PartitionCommand}
    {faults : List (Option KafkoError)} (hInbox : host.inbox = taken ++ rest)
    (hLen : faults.length = taken.length) :
    host.inbox.take faults.length = taken ∧ host.inbox.drop faults.length = rest := by
  rw [hInbox, hLen]
  exact ⟨List.take_left' rfl, List.drop_left' rfl⟩

theorem hub_host {p : Nat} {host host' : Host} {event : HostEvent} (hHost : s.hosts[p]? = some host)
    (hAct : host.act event = some host') : s.step (.host p event) = some (s.setHost p host') := by
  simp [Hub.step, hHost, hAct]

/-- Every step of the plant is an event of the hub. -/
theorem Mirrors.step (hX : X.Lawful) (hMirrors : Mirrors X t s) {event : PlantEvent}
    (hStep : Step X t event t') :
    ∃ shown s', Shows t' event shown ∧ s.step shown = some s' ∧ Mirrors X t' s' := by
  cases hStep with
  | @floor event floor hFloor hStep =>
    rw [hMirrors.floor, Hub.forget_step s hFloor] at hStep
    obtain ⟨s', hStep', rfl⟩ := Option.map_eq_some_iff.mp hStep
    have hSame := Hub.histories_step hFloor hStep'
    refine ⟨event, s', .floor hFloor, hStep', rfl, ?_, ?_⟩
    · have hCount := congrArg List.length hSame
      rw [Hub.histories, Hub.histories, List.length_map, List.length_map] at hCount
      rw [hCount]
      exact hMirrors.count
    · rw [hSame]
      exact hMirrors.refines
  | @recv p host w₁ w₂ d d' env ready hServes hInbox hClean hOps hRun =>
    obtain ⟨full, n, hFull, rfl, hRef⟩ := hMirrors.at hServes
    obtain ⟨taken, met, hWakeable, hMet, hTaken, hSent, n', hRef'⟩ :=
      PartitionWriter.takeTurn_responds hX hClean hRef hInbox hOps hRun
    obtain ⟨faults, hLen, hSame, hTold⟩ := full.history.exists_told hMet
    rw [← hSame] at hSent hRef'
    obtain ⟨hTake, hDrop⟩ := take_of_inbox full hTaken hLen
    have hAct : full.act (.turn faults) =
        some { full.answer faults with phase := .signalling false } := by
      have hFits : faults.length ≤ full.inbox.length := by
        change full.inbox = taken ++ w₂.inbox at hTaken
        rw [hTaken, hLen, List.length_append]
        exact Nat.le_add_right _ _
      have hGuard : full.phase = .serving ∧ faults.length ≤ full.inbox.length ∧
          Wakeable (full.inbox.take faults.length) := by
        rw [hTake]
        exact ⟨hServes.serving, hFits, hWakeable⟩
      simp [Host.act, guard, hGuard]
    have hForget : ({ full.answer faults with phase := .signalling false } : Host).forget =
        { full.forget with inbox := w₂.inbox, sent := w₂.sent, phase := .signalling false } := by
      simp only [Host.forget, Host.answer, hTake, hDrop, hSent]
      rfl
    refine ⟨.host p (.turn faults), _, .turn ?_, hub_host hFull hAct, ?_⟩
    · intro hFaultless
      refine hTold fun reply error hMem => ?_
      have hp : p < t.floor.hosts.length := (List.getElem?_eq_some_iff.mp hServes.here).1
      refine hFaultless p _ (List.getElem?_set_self hp) reply error ?_
      change (reply, .error error) ∈ w₂.sent
      rw [hSent, hSame]
      exact List.mem_append_right _ hMem
    rw [← hForget]
    apply hMirrors.put hFull (n := n')
    rw [Host.answer, hTake]
    exact hRef'
  | @panic p host w₁ w₂ d d' env ready message hServes hInbox hClean hOps hRun =>
    obtain ⟨full, n, hFull, rfl, hRef⟩ := hMirrors.at hServes
    obtain ⟨taken, faults, hAppends, hLen, hTaken, hSent, n', hRef'⟩ :=
      PartitionWriter.takeTurn_panics hX hClean hRef hInbox hOps hRun
    obtain ⟨hTake, -⟩ := take_of_inbox full hTaken hLen
    have hAct : full.act (.panic faults message) = some { full.answer faults with
        inbox := [], phase := .ended, panicked := some message } := by
      have hFits : faults.length < full.inbox.length := by
        change full.inbox = taken ++ .poison :: w₂.inbox at hTaken
        rw [hTaken, hLen, List.length_append, List.length_cons]
        omega
      have hGuard : full.phase = .serving ∧ faults.length < full.inbox.length ∧
          ∀ command ∈ full.inbox.take faults.length, command.isAppend = true := by
        rw [hTake]
        exact ⟨hServes.serving, hFits, hAppends⟩
      simp only [Host.act, guard]
      rw [if_pos hGuard]
      rfl
    have hForget : ({ full.answer faults with
        inbox := [], phase := .ended, panicked := some message } : Host).forget =
        { full.forget with
          inbox := [], sent := w₂.sent, phase := .ended, panicked := some message } := by
      simp only [Host.forget, Host.answer, hTake, hSent]
      rfl
    refine ⟨.host p (.panic faults message), _, .panic, hub_host hFull hAct, ?_⟩
    rw [← hForget]
    apply hMirrors.put hFull (n := n')
    rw [Host.answer, hTake]
    exact hRef'
  | @retentionTick p host w₁ w₂ d d' env hServes hClean hRun =>
    obtain ⟨full, n, hFull, rfl, hRef⟩ := hMirrors.at hServes
    obtain ⟨oldest, hLe, hNext, hRef', -⟩ :=
      PartitionWriter.retentionTick_retires hClean hRef hRun
    have hAct : full.act (.retention oldest) =
        some { full with history := full.history.retire oldest } := by
      have hGuard : full.phase = .serving ∧ full.history.oldest ≤ oldest ∧
          oldest ≤ full.history.next := ⟨hServes.serving, hLe, hNext⟩
      simp [Host.act, guard, hGuard]
    have hPut : Mirrors X
        (t.put p (Host.forget { full with history := full.history.retire oldest }) w₂ d')
        (s.setHost p { full with history := full.history.retire oldest }) :=
      hMirrors.put hFull hRef'
    exact ⟨.host p (.retention oldest), _, .retentionTick, hub_host hFull hAct, hPut⟩
  | @finish p host w₁ w₂ d d' env hServes hClosed hInbox hRun =>
    obtain ⟨full, n, hFull, rfl, hRef⟩ := hMirrors.at hServes
    obtain ⟨n', hRef'⟩ := PartitionWriter.finish_keeps hRef hRun
    have hAct : full.act .finish = some { full with phase := .signalling true } := by
      have hGuard : full.phase = .serving ∧ full.closed = true ∧ full.inbox = [] :=
        ⟨hServes.serving, hClosed, hInbox⟩
      simp [Host.act, guard, hGuard]
    have hPut : Mirrors X (t.put p (Host.forget { full with phase := .signalling true }) w₂ d')
        (s.setHost p { full with phase := .signalling true }) := hMirrors.put hFull hRef'
    exact ⟨.host p .finish, _, .finish, hub_host hFull hAct, hPut⟩

/-- The lists that logs which were just opened hold. -/
def opened (logs : List (Log × World FileName)) (records : List (List Record)) :
    List (History Record) :=
  logs.zipWith (fun l rs => ⟨rs, l.1.oldestBase⟩) records

variable {logs : List (Log × World FileName)} {records : List (List Record)}

theorem opened_refines (hX : X.Lawful)
    (hLogs : List.Forall₂ (fun (l : Log × World FileName) rs => Reached X l.1 l.2 rs) logs records) :
    List.Forall₂ (fun (l : Log × World FileName) (h : History Record) =>
      ∃ n, Refines X l.1 l.2.store h n) logs (opened logs records) := by
  induction hLogs with
  | nil => exact .nil
  | @cons l rs logs records hFirst hRest ih =>
    obtain ⟨oldest, n, hRef⟩ := Reached.refines hX hFirst
    obtain rfl : oldest = l.1.oldestBase := hRef.oldestBase.symm
    exact .cons ⟨n, hRef⟩ ih

theorem Mirrors.starts {histories : List (History Record)}
    (hLogs : List.Forall₂ (fun (l : Log × World FileName) (h : History Record) =>
      ∃ n, Refines X l.1 l.2.store h n) logs histories) :
    Mirrors X (start logs) (.start histories) where
  floor := by
    simp [start, Hub.start, Hub.forget, Host.start, Host.forget, Function.comp_def, History.next,
      History.empty, hLogs.length_eq]
  count := by simp [start, Hub.start, hLogs.length_eq]
  refines p h writer w hHistory hWriter := by
    have hHere : histories[p]? = some h := by
      simpa [Hub.histories, Hub.start, Function.comp_def, Host.start] using hHistory
    obtain ⟨⟨log, w₀⟩, hLog, hEq⟩ := Option.map_eq_some_iff.mp
      (List.getElem?_map.symm.trans hWriter)
    cases hEq
    obtain ⟨hp, hAt⟩ := List.getElem?_eq_some_iff.mp hLog
    obtain ⟨hp', hAt'⟩ := List.getElem?_eq_some_iff.mp hHere
    have hRef := (List.forall₂_iff_get.mp hLogs).2 p hp hp'
    rw [List.get_eq_getElem, List.get_eq_getElem, hAt, hAt'] at hRef
    exact hRef

/-- What the log of a partition reads back is what its list holds. -/
theorem Mirrors.files (hMirrors : Mirrors X t s) {p : Nat} {host : Host} {writer : PartitionWriter}
    {w : World FileName} (hHost : s.hosts[p]? = some host)
    (hWriter : t.writers[p]? = some (writer, w)) :
    ∃ n, Refines X writer.log w.store host.history n := by
  have hHistory : s.histories[p]? = some host.history := by
    rw [Hub.histories, List.getElem?_map, hHost]
    rfl
  exact hMirrors.refines p _ _ _ hHistory hWriter

end Plant

end Kafko
