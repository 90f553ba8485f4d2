import Kafko.Topic.Hub

/-!
# What a step of a topic can do

`Hub.Steps` says once what each event can do, and the invariants of the following modules are
derived from it. The second half is about reply channels: a channel is used by one command, so
whatever arrives in it answers that command (`Host.Owes`), and it stays true of the list of the
partition however that list grows.
-/

namespace Kafko

open Disk

/-! ## Steps -/

/-- What a task does to the rest of the topic: nothing, or to the counter of parked consumers, or
to an inbox. -/
inductive Effect
  | none
  | marks
  | unmarks
  | sends (p : Nat) (host : Host) (command : PartitionCommand)

def Hub.applied (s : Hub) : Effect → Hub
  | .none => s
  | .marks => { s with parked := s.parked + 1 }
  | .unmarks => { s with parked := s.parked - 1 }
  | .sends p host command =>
    { s.setHost p (host.push command) with nextReply := s.nextReply + 1 }

/-- The command of an effect, with its partition. -/
def Effect.sent : Effect → List (Nat × PartitionCommand)
  | .sends p _ command => [(p, command)]
  | _ => []

/-- The question a consumer sends. -/
def Reader.sends (s : Hub) (r : Reader) : ReaderEvent → List (Nat × PartitionCommand)
  | .ask =>
    match r.stage with
    | .asking _ i =>
      let p := r.consumer.scanIndex i
      if s.hosts[p]?.any Host.accepts then [(p, .readAt (r.consumer.position p) s.nextReply)]
      else []
    | _ => []
  | _ => []

/-- The bucket a call sends. -/
def SendCall.sends (s : Hub) (call : SendCall) : CallEvent → List (Nat × PartitionCommand)
  | .issue =>
    match call.todo with
    | (p, bucket) :: _ =>
      if s.hosts[p]?.any Host.accepts then [(p, call.command bucket s.nextReply)] else []
    | [] => []
  | _ => []

/-- The command that an event puts into an inbox. -/
def Hub.sends (s : Hub) : HubEvent → List (Nat × PartitionCommand)
  | .reader c event => s.readers[c]?.elim [] fun r => r.sends s event
  | .call k event => s.calls[k]?.elim [] fun call => call.sends s event
  | .command p command => [(p, command)]
  | _ => []

/-- The commands that a run puts into the inboxes, in order. -/
def Hub.sentBy (s : Hub) : List HubEvent → List (Nat × PartitionCommand)
  | [] => []
  | event :: events => s.sends event ++ (s.step event).elim [] fun s' => s'.sentBy events

inductive Reader.Steps (s : Hub) (r : Reader) : Effect → Reader → Prop
  | next (hStage : r.stage = .idle) : Steps s r .none { r with stage := r.stageAt false 0 }
  | ask {again : Bool} {i : Nat} {host : Host} (hStage : r.stage = .asking again i)
    (hHost : s.hosts[r.consumer.scanIndex i]? = some host) (hAccepts : host.accepts = true) :
    Steps s r (.sends (r.consumer.scanIndex i) host
        (.readAt (r.consumer.position (r.consumer.scanIndex i)) s.nextReply))
      { r with stage := .awaiting again i s.nextReply }
  | leave {again : Bool} (hStage : (∃ i, r.stage = .asking again i) ∨
      ∃ i reply, r.stage = .awaiting again i reply) : Steps s r .none (r.leave again)
  | take {again : Bool} {i reply : Nat} {host : Host} {record : Record}
    (hStage : r.stage = .awaiting again i reply)
    (hHost : s.hosts[r.consumer.scanIndex i]? = some host)
    (hReply : (reply, .ok (.record (some record))) ∈ host.sent) :
    Steps s r .none (r.take again (r.consumer.scanIndex i) record)
  | miss {again : Bool} {i reply : Nat} {host : Host} {result : Reply}
    (hStage : r.stage = .awaiting again i reply)
    (hHost : s.hosts[r.consumer.scanIndex i]? = some host)
    (hReply : (reply, .ok result) ∈ host.sent)
    (hMiss : ∀ record, result ≠ .record (some record)) :
    Steps s r .none { r with stage := r.stageAt again (i + 1) }
  | park (hStage : r.stage = .caughtUp) : Steps s r .marks { r with stage := .marked }
  | enable (hStage : r.stage = .marked) :
    Steps s r .none { r with stage := r.stageAt true 0, future := some false }
  | wake (hStage : r.stage = .waiting) (hFuture : r.future = some true) :
    Steps s r .none { r with stage := .unmarking true, future := none }
  | unmark {loop : Bool} (hStage : r.stage = .unmarking loop) :
    Steps s r .unmarks { r with stage := if loop then r.stageAt false 0 else .idle }
  | cancel (hStage : r.atAwait = true) :
    Steps s r .none { r with stage := .idle, future := none }

inductive SendCall.Steps (s : Hub) (call : SendCall) : Effect → SendCall → Prop
  | finish (hStatus : call.status = .running) (hPending : call.pending = none)
    (hTodo : call.todo = []) :
    Steps s call .none { call with status := .returned (.ok call.positions) }
  | issue {p : Nat} {bucket : Bucket} {todo : List (Nat × Bucket)} {host : Host}
    (hStatus : call.status = .running) (hPending : call.pending = none)
    (hTodo : call.todo = (p, bucket) :: todo) (hHost : s.hosts[p]? = some host)
    (hAccepts : host.accepts = true) :
    Steps s call (.sends p host (call.command bucket s.nextReply))
      { call with
        todo := todo
        pending := some (p, s.nextReply, bucket)
        issued := call.issued ++ [(p, s.nextReply, bucket)] }
  | settle {p reply : Nat} {bucket : Bucket} {host : Host} {result : Reply} {offsets : List Nat}
    (hStatus : call.status = .running) (hPending : call.pending = some (p, reply, bucket))
    (hHost : s.hosts[p]? = some host) (hReply : (reply, .ok result) ∈ host.sent)
    (hResult : (∃ offset, result = .offset offset ∧ offsets = [offset]) ∨
      result = .offsets offsets) :
    Steps s call .none
      { call with pending := none, positions := scatter p call.positions bucket offsets }
  | fail {e : KafkoError} (hStatus : call.status = .running) :
    Steps s call .none { call with status := .returned (.error e) }
  | abandon (hStatus : call.status = .running) :
    Steps s call .none { call with status := .abandoned }

/-- The buckets of a call that has just been routed. -/
inductive Routes (s : Hub) : Bool → List Record → List (Nat × Bucket) → Prop
  | single (record : Record) (roundRobin : UInt64) :
    Routes s true [record] [((route s.hosts.length roundRobin record.key).1, [(0, record)])]
  | batch (drawn : List (Record × UInt64)) :
    Routes s false (drawn.map Prod.fst) (sentBuckets (fillBucketsAmong s.hosts.length 0
      (List.replicate s.hosts.length []) drawn))

inductive Hub.Steps (s : Hub) : Hub → Prop
  | join (cursors : List Nat) (hLen : cursors.length = s.hosts.length) :
    Steps s { s with readers := s.readers ++ [⟨⟨cursors, 0⟩, .idle, none, cursors, []⟩] }
  | begin {single : Bool} {records : List Record} {todo : List (Nat × Bucket)}
    (hRoutes : Routes s single records todo) (roundRobin : UInt64) :
    Steps s (s.begin single records todo roundRobin)
  | reader {c : Nat} {r r' : Reader} {effect : Effect} (hr : s.readers[c]? = some r)
    (hStep : r.Steps s effect r') : Steps s ((s.applied effect).setReader c r')
  | call {k : Nat} {call call' : SendCall} {effect : Effect} (hCall : s.calls[k]? = some call)
    (hStep : call.Steps s effect call') : Steps s ((s.applied effect).setCall k call')
  | command {p : Nat} {host : Host} {command : PartitionCommand} (hHost : s.hosts[p]? = some host)
    (hFresh : ∀ reply, command.channel = some reply → reply = s.nextReply) :
    Steps s (s.applied (.sends p host command))
  | host {p : Nat} {host host' : Host} {event : HostEvent} (hHost : s.hosts[p]? = some host)
    (hAct : host.act event = some host') : Steps s (s.setHost p host')
  | load {p : Nat} {host : Host} {last : Bool} (hHost : s.hosts[p]? = some host)
    (hPhase : host.phase = .signalling last) (hParked : 0 < s.parked) :
    Steps s (s.setHost p { host with phase := .notifying last })
  | pass {p : Nat} {host : Host} {last : Bool} (hHost : s.hosts[p]? = some host)
    (hPhase : host.phase = .signalling last) (hParked : s.parked = 0) :
    Steps s (s.setHost p { host with phase := .resume last, signalled := host.history.next })
  | notify {p : Nat} {host : Host} {last : Bool} (hHost : s.hosts[p]? = some host)
    (hPhase : host.phase = .notifying last) :
    Steps s { s.setHost p { host with phase := .resume last, signalled := host.history.next } with
      readers := s.readers.map fun r => { r with future := r.future.map fun _ => true } }

namespace Host

variable {host : Host}

theorem mem_sent_of_reply {reply : Nat} {result : Except KafkoError Reply}
    (h : host.reply? reply = some result) : (reply, result) ∈ host.sent := by
  obtain ⟨⟨t, res⟩, hFind, rfl⟩ := Option.map_eq_some_iff.mp h
  have hEq : t = reply := by simpa using List.find?_some hFind
  rw [← hEq]
  exact List.mem_of_find?_eq_some hFind

end Host

namespace Hub

variable {s s' : Hub}

theorem enqueue_eq {p : Nat} {host : Host} {command : PartitionCommand}
    (h : s.enqueue p host command = some s') : s' = s.applied (.sends p host command) := by
  simp only [enqueue, Option.bind_eq_bind, Option.bind_eq_some_iff, Option.guard_eq_some',
    Option.pure_def, Option.some.injEq] at h
  obtain ⟨_, -, rfl⟩ := h
  rfl

theorem readerStep_cases {c : Nat} {r : Reader} {event : ReaderEvent}
    (h : s.readerStep c r event = some s') :
    ∃ effect r', r.Steps s effect r' ∧ s' = (s.applied effect).setReader c r' ∧
      effect.sent = r.sends s event := by
  cases event with
  | next =>
    simp only [readerStep, Option.bind_eq_bind, Option.bind_eq_some_iff, Option.guard_eq_some',
      Option.pure_def, Option.some.injEq] at h
    obtain ⟨_, hStage, rfl⟩ := h
    exact ⟨.none, _, .next hStage, rfl, rfl⟩
  | ask =>
    rw [readerStep] at h
    split at h
    · next again i hStage =>
      dsimp only at h
      obtain ⟨host, hHost, hRest⟩ := Option.bind_eq_some_iff.mp h
      split at hRest
      · next hAccepts =>
        obtain ⟨s₁, hSend, hEq⟩ := Option.bind_eq_some_iff.mp hRest
        cases hEq
        refine ⟨_, _, .ask hStage hHost hAccepts, by rw [enqueue_eq hSend], ?_⟩
        simp [Reader.sends, Effect.sent, hStage, hHost, hAccepts]
      · next hRefuses =>
        cases hRest
        refine ⟨.none, _, .leave (Or.inl ⟨i, hStage⟩), rfl, ?_⟩
        simp [Reader.sends, Effect.sent, hStage, hHost, hRefuses]
    · cases h
  | receive =>
    rw [readerStep] at h
    split at h
    · next again i reply hStage =>
      dsimp only at h
      obtain ⟨host, hHost, hRest⟩ := Option.bind_eq_some_iff.mp h
      split at hRest
      · next record hReply =>
        cases hRest
        exact ⟨.none, _, .take hStage hHost (Host.mem_sent_of_reply hReply), rfl, rfl⟩
      · next result hMiss hReply =>
        cases hRest
        exact ⟨.none, _, .miss hStage hHost (Host.mem_sent_of_reply hReply)
          (fun record hEq => hMiss record (by rw [hEq])), rfl, rfl⟩
      · cases hRest
        exact ⟨.none, _, .leave (Or.inr ⟨i, reply, hStage⟩), rfl, rfl⟩
      · obtain ⟨_, -, hEq⟩ := Option.bind_eq_some_iff.mp hRest
        cases hEq
        exact ⟨.none, _, .leave (Or.inr ⟨i, reply, hStage⟩), rfl, rfl⟩
    · cases h
  | park =>
    simp only [readerStep, Option.bind_eq_bind, Option.bind_eq_some_iff, Option.guard_eq_some',
      Option.pure_def, Option.some.injEq] at h
    obtain ⟨_, hStage, rfl⟩ := h
    exact ⟨.marks, _, .park hStage, rfl, rfl⟩
  | enable =>
    simp only [readerStep, Option.bind_eq_bind, Option.bind_eq_some_iff, Option.guard_eq_some',
      Option.pure_def, Option.some.injEq] at h
    obtain ⟨_, hStage, rfl⟩ := h
    exact ⟨.none, _, .enable hStage, rfl, rfl⟩
  | wake =>
    simp only [readerStep, Option.bind_eq_bind, Option.bind_eq_some_iff, Option.guard_eq_some',
      Option.pure_def, Option.some.injEq] at h
    obtain ⟨_, ⟨hStage, hFuture⟩, rfl⟩ := h
    exact ⟨.none, _, .wake hStage hFuture, rfl, rfl⟩
  | unmark =>
    rw [readerStep] at h
    split at h
    · next loop hStage =>
      cases h
      exact ⟨.unmarks, _, .unmark hStage, rfl, rfl⟩
    · cases h
  | cancel =>
    simp only [readerStep, Option.bind_eq_bind, Option.bind_eq_some_iff, Option.guard_eq_some',
      Option.pure_def, Option.some.injEq] at h
    obtain ⟨_, hStage, rfl⟩ := h
    exact ⟨.none, _, .cancel hStage, rfl, rfl⟩

theorem callStep_cases {k : Nat} {call : SendCall} {event : CallEvent}
    (h : s.callStep k call event = some s') :
    ∃ effect call', call.Steps s effect call' ∧ s' = (s.applied effect).setCall k call' ∧
      effect.sent = call.sends s event := by
  cases event with
  | issue =>
    rw [callStep] at h
    split at h
    · next hStatus hPending =>
      split at h
      · next hTodo =>
        cases h
        refine ⟨.none, _, .finish hStatus hPending hTodo, rfl, ?_⟩
        simp [SendCall.sends, Effect.sent, hTodo]
      · next p bucket todo hTodo =>
        obtain ⟨host, hHost, hRest⟩ := Option.bind_eq_some_iff.mp h
        split at hRest
        · next hAccepts =>
          obtain ⟨s₁, hSend, hEq⟩ := Option.bind_eq_some_iff.mp hRest
          cases hEq
          refine ⟨_, _, .issue hStatus hPending hTodo hHost hAccepts, by rw [enqueue_eq hSend], ?_⟩
          simp [SendCall.sends, Effect.sent, hTodo, hHost, hAccepts]
        · next hRefuses =>
          cases hRest
          refine ⟨.none, _, .fail hStatus, rfl, ?_⟩
          simp [SendCall.sends, Effect.sent, hTodo, hHost, hRefuses]
    · cases h
  | settle =>
    rw [callStep] at h
    split at h
    · next p reply bucket hStatus hPending =>
      obtain ⟨host, hHost, hRest⟩ := Option.bind_eq_some_iff.mp h
      split at hRest
      · next offset hReply =>
        cases hRest
        exact ⟨.none, _, .settle hStatus hPending hHost (Host.mem_sent_of_reply hReply)
          (Or.inl ⟨offset, rfl, rfl⟩), rfl, rfl⟩
      · next offsets hReply =>
        cases hRest
        exact ⟨.none, _, .settle hStatus hPending hHost (Host.mem_sent_of_reply hReply)
          (Or.inr rfl), rfl, rfl⟩
      · cases hRest
      · cases hRest
        exact ⟨.none, _, .fail hStatus, rfl, rfl⟩
      · obtain ⟨_, -, hEq⟩ := Option.bind_eq_some_iff.mp hRest
        cases hEq
        exact ⟨.none, _, .fail hStatus, rfl, rfl⟩
    · cases h
  | abandon =>
    rw [callStep] at h
    split at h
    · next hStatus =>
      cases h
      exact ⟨.none, _, .abandon hStatus, rfl, rfl⟩
    · cases h

theorem join_cases {cursors : List Nat} (h : s.step (.join cursors) = some s') :
    cursors.length = s.hosts.length ∧
      s' = { s with readers := s.readers ++ [⟨⟨cursors, 0⟩, .idle, none, cursors, []⟩] } := by
  simp only [step, Option.bind_eq_bind, Option.bind_eq_some_iff, Option.guard_eq_some',
    Option.pure_def, Option.some.injEq] at h
  obtain ⟨_, hLen, rfl⟩ := h
  exact ⟨hLen, rfl⟩

theorem command_cases {p : Nat} {command : PartitionCommand}
    (h : s.step (.command p command) = some s') :
    ∃ host, s.hosts[p]? = some host ∧
      (∀ reply, command.channel = some reply → reply = s.nextReply) ∧
      s' = s.applied (.sends p host command) := by
  simp only [step, Option.bind_eq_bind, Option.bind_eq_some_iff, Option.guard_eq_some'] at h
  obtain ⟨host, hHost, _, ⟨-, hFresh⟩, hSend⟩ := h
  exact ⟨host, hHost, hFresh, enqueue_eq hSend⟩

theorem host_cases {p : Nat} {event : HostEvent} (h : s.step (.host p event) = some s') :
    ∃ host host', s.hosts[p]? = some host ∧ host.act event = some host' ∧
      s' = s.setHost p host' := by
  simp only [step, Option.bind_eq_bind, Option.bind_eq_some_iff, Option.pure_def,
    Option.some.injEq] at h
  obtain ⟨host, hHost, host', hAct, rfl⟩ := h
  exact ⟨host, host', hHost, hAct, rfl⟩

theorem signal_cases {p : Nat} (h : s.step (.signal p) = some s') :
    ∃ host last, s.hosts[p]? = some host ∧ host.phase = .signalling last ∧
      (0 < s.parked ∧ s' = s.setHost p { host with phase := .notifying last } ∨
        s.parked = 0 ∧
          s' = s.setHost p { host with phase := .resume last, signalled := host.history.next }) := by
  obtain ⟨host, hHost, hRest⟩ := Option.bind_eq_some_iff.mp h
  split at hRest
  · next last hPhase =>
    refine ⟨host, last, hHost, hPhase, ?_⟩
    split at hRest
    · next hParked =>
      cases hRest
      exact Or.inl ⟨hParked, rfl⟩
    · next hParked =>
      cases hRest
      exact Or.inr ⟨Nat.eq_zero_of_not_pos hParked, rfl⟩
  · cases hRest

theorem notify_cases {p : Nat} (h : s.step (.notify p) = some s') :
    ∃ host last, s.hosts[p]? = some host ∧ host.phase = .notifying last ∧
      s' = { s.setHost p { host with phase := .resume last, signalled := host.history.next } with
        readers := s.readers.map fun r => { r with future := r.future.map fun _ => true } } := by
  obtain ⟨host, hHost, hRest⟩ := Option.bind_eq_some_iff.mp h
  split at hRest
  · next last hPhase =>
    cases hRest
    exact ⟨host, last, hHost, hPhase, rfl⟩
  · cases hRest

/-- Every event is one of the steps. -/
theorem step_cases {event : HubEvent} (h : s.step event = some s') : s.Steps s' := by
  cases event with
  | join cursors =>
    obtain ⟨hLen, rfl⟩ := join_cases h
    exact .join cursors hLen
  | send record =>
    cases h
    exact .begin (.single record s.roundRobin) _
  | sendBatch records =>
    cases h
    have hRoutes := Routes.batch (s := s) (drawing s.hosts.length s.roundRobin records)
    rw [map_fst_drawing, ← fillBuckets_fst] at hRoutes
    exact .begin hRoutes _
  | sendAmong record drawn roundRobin =>
    cases h
    exact .begin (.single record drawn) _
  | sendBatchAmong drawn roundRobin =>
    cases h
    exact .begin (.batch drawn) _
  | reader c event =>
    obtain ⟨r, hr, hStep⟩ := Option.bind_eq_some_iff.mp h
    obtain ⟨effect, r', hSteps, rfl, -⟩ := readerStep_cases hStep
    exact .reader hr hSteps
  | call k event =>
    obtain ⟨call, hCall, hStep⟩ := Option.bind_eq_some_iff.mp h
    obtain ⟨effect, call', hSteps, rfl, -⟩ := callStep_cases hStep
    exact .call hCall hSteps
  | command p command =>
    obtain ⟨host, hHost, hFresh, rfl⟩ := command_cases h
    exact .command hHost hFresh
  | host p event =>
    obtain ⟨host, host', hHost, hAct, rfl⟩ := host_cases h
    exact .host hHost hAct
  | signal p =>
    obtain ⟨host, last, hHost, hPhase, ⟨hParked, rfl⟩ | ⟨hParked, rfl⟩⟩ := signal_cases h
    · exact .load hHost hPhase hParked
    · exact .pass hHost hPhase hParked
  | notify p =>
    obtain ⟨host, last, hHost, hPhase, rfl⟩ := notify_cases h
    exact .notify hHost hPhase

/-- Induction over runs. -/
theorem run_induction {P : Hub → Prop} (hStep : ∀ s s', s.Steps s' → P s → P s')
    {events : List HubEvent} (h : P s) (hRun : s.run events = some s') : P s' := by
  induction events generalizing s with
  | nil =>
    cases hRun
    exact h
  | cons event events ih =>
    obtain ⟨s₁, hFirst, hRest⟩ := Option.bind_eq_some_iff.mp hRun
    exact ih (hStep s s₁ (step_cases hFirst) h) hRest

end Hub

/-! ## What can happen to a partition -/

/-- What an event inside of a partition can do to it. -/
inductive Host.Acts (host : Host) : Host → Prop
  | turn (faults : List (Option KafkoError)) (hPhase : host.phase = .serving)
    (hWake : Wakeable (host.inbox.take faults.length)) :
    Acts host { host.answer faults with phase := .signalling false }
  | panic (faults : List (Option KafkoError)) (message : String) (hPhase : host.phase = .serving)
    (hAppends : ∀ command ∈ host.inbox.take faults.length, command.isAppend = true) :
    Acts host { host.answer faults with inbox := [], phase := .ended, panicked := some message }
  | retention (oldest : Nat) (hPhase : host.phase = .serving)
    (hLe : oldest ≤ host.history.next) :
    Acts host { host with history := host.history.retire oldest }
  | close : Acts host { host with closed := true }
  | finish (hPhase : host.phase = .serving) : Acts host { host with phase := .signalling true }

/-- What a step of the topic can do to a partition. -/
inductive Host.Moves (s s' : Hub) (host : Host) : Host → Prop
  | push (command : PartitionCommand)
    (hFresh : ∀ reply, command.channel = some reply → reply = s.nextReply)
    (hNext : s'.nextReply = s.nextReply + 1) : Moves s s' host (host.push command)
  | act {host' : Host} (hActs : host.Acts host') : Moves s s' host host'
  | load {last : Bool} (hPhase : host.phase = .signalling last) (hParked : 0 < s.parked) :
    Moves s s' host { host with phase := .notifying last }
  | pass {last : Bool} (hPhase : host.phase = .signalling last) (hParked : s.parked = 0) :
    Moves s s' host { host with phase := .resume last, signalled := host.history.next }
  | pulse {last : Bool} (hPhase : host.phase = .notifying last)
    (hTold : ∀ r ∈ s'.readers, r.future ≠ some false) :
    Moves s s' host { host with phase := .resume last, signalled := host.history.next }

namespace Host

theorem act_cases {host host' : Host} {event : HostEvent} (h : host.act event = some host') :
    host.Acts host' := by
  cases event with
  | turn faults =>
    simp only [act, Option.bind_eq_bind, Option.bind_eq_some_iff, Option.guard_eq_some',
      Option.pure_def, Option.some.injEq] at h
    obtain ⟨_, ⟨hPhase, -, hWake⟩, rfl⟩ := h
    exact .turn faults hPhase hWake
  | panic faults message =>
    simp only [act, Option.bind_eq_bind, Option.bind_eq_some_iff, Option.guard_eq_some',
      Option.pure_def, Option.some.injEq] at h
    obtain ⟨_, ⟨hPhase, -, hAppends⟩, rfl⟩ := h
    exact .panic faults message hPhase hAppends
  | retention oldest =>
    simp only [act, Option.bind_eq_bind, Option.bind_eq_some_iff, Option.guard_eq_some',
      Option.pure_def, Option.some.injEq] at h
    obtain ⟨_, ⟨hPhase, -, hLe⟩, rfl⟩ := h
    exact .retention oldest hPhase hLe
  | close =>
    cases h
    exact .close
  | finish =>
    simp only [act, Option.bind_eq_bind, Option.bind_eq_some_iff, Option.guard_eq_some',
      Option.pure_def, Option.some.injEq] at h
    obtain ⟨_, ⟨hPhase, -⟩, rfl⟩ := h
    exact .finish hPhase

end Host

theorem SendCall.Steps.begun {s : Hub} {call call' : SendCall} {effect : Effect}
    (h : call.Steps s effect call') : call'.begun = call.begun := by
  cases h <;> rfl

theorem SendCall.command_channel (call : SendCall) (bucket : Bucket) (reply : Nat) :
    (call.command bucket reply).channel = some reply := by
  unfold command
  split <;> rfl

namespace Hub

variable {s s' : Hub} {p : Nat} {host : Host}

/-- A step that replaces one partition moves it, and leaves the others alone. -/
theorem moves_of_set {q : Nat} {host₀ host₁ : Host} (hHosts : s'.hosts = s.hosts.set q host₁)
    (hq : s.hosts[q]? = some host₀) (hMoves : host₀.Moves s s' host₁)
    (hHost : s.hosts[p]? = some host) :
    ∃ host', s'.hosts[p]? = some host' ∧ (host' = host ∨ host.Moves s s' host') := by
  rw [hHosts]
  by_cases hEq : q = p
  · subst hEq
    obtain rfl : host₀ = host := Option.some.inj (hq.symm.trans hHost)
    have hLt : q < s.hosts.length := (List.getElem?_eq_some_iff.mp hq).1
    exact ⟨host₁, List.getElem?_set_self hLt, Or.inr hMoves⟩
  · exact ⟨host, by rw [List.getElem?_set_ne hEq, hHost], Or.inl rfl⟩

/-- What a task does to the rest of the topic, seen from a partition. -/
theorem applied_moves {effect : Effect}
    (hEffect : ∀ q host₀ command, effect = .sends q host₀ command → s.hosts[q]? = some host₀ ∧
      ∀ reply, command.channel = some reply → reply = s.nextReply)
    (hHosts : s'.hosts = (s.applied effect).hosts)
    (hNext : s'.nextReply = (s.applied effect).nextReply) (hHost : s.hosts[p]? = some host) :
    ∃ host', s'.hosts[p]? = some host' ∧ (host' = host ∨ host.Moves s s' host') := by
  cases effect with
  | none => exact ⟨host, by rw [hHosts]; exact hHost, Or.inl rfl⟩
  | marks => exact ⟨host, by rw [hHosts]; exact hHost, Or.inl rfl⟩
  | unmarks => exact ⟨host, by rw [hHosts]; exact hHost, Or.inl rfl⟩
  | sends q host₀ command =>
    obtain ⟨hq, hFresh⟩ := hEffect q host₀ command rfl
    exact moves_of_set hHosts hq (.push command hFresh hNext) hHost

theorem readerSteps_sends {r r' : Reader} {q : Nat} {host₀ : Host} {command : PartitionCommand}
    (h : r.Steps s (.sends q host₀ command) r') : s.hosts[q]? = some host₀ ∧
      ∀ reply, command.channel = some reply → reply = s.nextReply := by
  cases h with
  | ask hStage hHost hAccepts =>
    refine ⟨hHost, ?_⟩
    intro reply hChannel
    exact (Option.some.inj hChannel).symm

theorem callSteps_sends {call call' : SendCall} {q : Nat} {host₀ : Host}
    {command : PartitionCommand} (h : call.Steps s (.sends q host₀ command) call') :
    s.hosts[q]? = some host₀ ∧ ∀ reply, command.channel = some reply → reply = s.nextReply := by
  cases h with
  | issue hStatus hPending hTodo hHost hAccepts =>
    refine ⟨hHost, ?_⟩
    intro reply hChannel
    rw [SendCall.command_channel] at hChannel
    exact (Option.some.inj hChannel).symm

/-- Every step is a move of every partition, or leaves it alone. -/
theorem Steps.moves (h : s.Steps s') (hHost : s.hosts[p]? = some host) :
    ∃ host', s'.hosts[p]? = some host' ∧ (host' = host ∨ host.Moves s s' host') := by
  cases h with
  | join cursors hLen => exact ⟨host, hHost, Or.inl rfl⟩
  | begin hRoutes roundRobin => exact ⟨host, hHost, Or.inl rfl⟩
  | reader hr hStep =>
    exact applied_moves (fun q host₀ command hEq => readerSteps_sends (hEq ▸ hStep)) rfl rfl hHost
  | call hCall hStep =>
    exact applied_moves (fun q host₀ command hEq => callSteps_sends (hEq ▸ hStep)) rfl rfl hHost
  | command hq hFresh => exact moves_of_set rfl hq (.push _ hFresh rfl) hHost
  | host hq hAct => exact moves_of_set rfl hq (.act (Host.act_cases hAct)) hHost
  | load hq hPhase hParked => exact moves_of_set rfl hq (.load hPhase hParked) hHost
  | pass hq hPhase hParked => exact moves_of_set rfl hq (.pass hPhase hParked) hHost
  | notify hq hPhase =>
    refine moves_of_set rfl hq (.pulse hPhase ?_) hHost
    intro r hr
    obtain ⟨r₀, -, rfl⟩ := List.mem_map.mp hr
    cases r₀.future <;> simp

theorem applied_nextReply_le (effect : Effect) : s.nextReply ≤ (s.applied effect).nextReply := by
  cases effect with
  | sends q host₀ command => exact Nat.le_succ _
  | _ => exact Nat.le_refl _

theorem Steps.nextReply_le (h : s.Steps s') : s.nextReply ≤ s'.nextReply := by
  cases h with
  | reader hr hStep => exact applied_nextReply_le _
  | call hCall hStep => exact applied_nextReply_le _
  | command hq hFresh => exact applied_nextReply_le (.sends _ _ _)
  | _ => exact Nat.le_refl _

theorem applied_hosts_length (effect : Effect) :
    (s.applied effect).hosts.length = s.hosts.length := by
  cases effect with
  | sends q host₀ command => exact List.length_set
  | _ => rfl

/-- The number of partitions is fixed. -/
theorem Steps.hosts_length (h : s.Steps s') : s'.hosts.length = s.hosts.length := by
  cases h with
  | join cursors hLen => rfl
  | begin hRoutes roundRobin => rfl
  | reader hr hStep => exact applied_hosts_length _
  | call hCall hStep => exact applied_hosts_length _
  | command hq hFresh => exact applied_hosts_length (.sends _ _ _)
  | _ => exact List.length_set

theorem applied_readers (effect : Effect) : (s.applied effect).readers = s.readers := by
  cases effect <;> rfl

theorem applied_calls (effect : Effect) : (s.applied effect).calls = s.calls := by
  cases effect <;> rfl

/-- Where a consumer comes from: it has just joined, it made the step, or it took no part in the
step, except that it may have been notified. -/
theorem Steps.reader_origin (h : s.Steps s') {r' : Reader} (hr' : r' ∈ s'.readers) :
    (∃ cursors, cursors.length = s.hosts.length ∧ r' = ⟨⟨cursors, 0⟩, .idle, none, cursors, []⟩) ∨
      (∃ r ∈ s.readers, ∃ effect, r.Steps s effect r' ∧ s'.hosts = (s.applied effect).hosts ∧
        s'.nextReply = (s.applied effect).nextReply) ∨
      r' ∈ s.readers ∨ ∃ r ∈ s.readers, r' = { r with future := r.future.map fun _ => true } := by
  cases h with
  | join cursors hLen =>
    rcases List.mem_append.mp hr' with hOld | hNew
    · exact Or.inr (Or.inr (Or.inl hOld))
    · exact Or.inl ⟨cursors, hLen, List.mem_singleton.mp hNew⟩
  | reader hr hStep =>
    rcases List.mem_or_eq_of_mem_set hr' with hOld | rfl
    · rw [applied_readers] at hOld
      exact Or.inr (Or.inr (Or.inl hOld))
    · exact Or.inr (Or.inl ⟨_, List.mem_of_getElem? hr, _, hStep, rfl, rfl⟩)
  | call hCall hStep =>
    have hOld : r' ∈ (s.applied _).readers := hr'
    rw [applied_readers] at hOld
    exact Or.inr (Or.inr (Or.inl hOld))
  | notify hq hPhase =>
    obtain ⟨r, hr, rfl⟩ := List.mem_map.mp hr'
    exact Or.inr (Or.inr (Or.inr ⟨r, hr, rfl⟩))
  | _ => exact Or.inr (Or.inr (Or.inl hr'))

/-- Where a call comes from: it was there before and made the step or took no part in it, or it has
just been routed. -/
theorem Steps.call_origin (h : s.Steps s') {k : Nat} {call' : SendCall}
    (hCall' : s'.calls[k]? = some call') :
    (∃ call, s.calls[k]? = some call ∧ (call' = call ∨
      ∃ effect, call.Steps s effect call' ∧ s'.hosts = (s.applied effect).hosts ∧
        s'.nextReply = (s.applied effect).nextReply)) ∨
      ∃ single records todo, s.calls.length ≤ k ∧ Routes s single records todo ∧
        call' = ⟨single, records, todo, none, [], List.replicate records.length ⟨0, 0⟩, .running,
          s.hosts.map fun host => host.history.next⟩ := by
  cases h with
  | begin hRoutes roundRobin =>
    have hAppend : (s.calls ++ [_])[k]? = some call' := hCall'
    rw [List.getElem?_append] at hAppend
    split at hAppend
    · exact Or.inl ⟨call', hAppend, Or.inl rfl⟩
    · next hLater =>
      have hNew := List.mem_singleton.mp (List.mem_of_getElem? hAppend)
      exact Or.inr ⟨_, _, _, Nat.le_of_not_lt hLater, hRoutes, hNew⟩
  | reader hr hStep =>
    have hOld : (s.applied _).calls[k]? = some call' := hCall'
    rw [applied_calls] at hOld
    exact Or.inl ⟨call', hOld, Or.inl rfl⟩
  | call hCall hStep =>
    rename_i k₀ call call₁ effect
    have hSet : ((s.applied effect).calls.set k₀ call₁)[k]? = some call' := hCall'
    rw [applied_calls, List.getElem?_set] at hSet
    split at hSet
    · next hEq =>
      subst hEq
      split at hSet
      · obtain rfl := Option.some.inj hSet
        exact Or.inl ⟨call, hCall, Or.inr ⟨effect, hStep, rfl, rfl⟩⟩
      · cases hSet
    · exact Or.inl ⟨call', hSet, Or.inl rfl⟩
  | _ => exact Or.inl ⟨call', hCall', Or.inl rfl⟩

/-- The state of a partition before a step. -/
theorem Steps.moved (h : s.Steps s') {host' : Host} (hHost' : s'.hosts[p]? = some host') :
    ∃ host, s.hosts[p]? = some host ∧ (host' = host ∨ host.Moves s s' host') := by
  have hLt : p < s.hosts.length := by
    rw [← h.hosts_length]
    exact (List.getElem?_eq_some_iff.mp hHost').1
  have hHost : s.hosts[p]? = some s.hosts[p] := List.getElem?_eq_getElem hLt
  obtain ⟨host₁, hHost₁, hCase⟩ := h.moves hHost
  obtain rfl : host₁ = host' := Option.some.inj (hHost₁.symm.trans hHost')
  exact ⟨s.hosts[p], hHost, hCase⟩

end Hub

/-! ## Reply channels -/

namespace Host

variable {s s' : Hub} {host host' : Host}

/-- Every reply channel in use has a number below `fresh`. The commands in the inbox have different
channels, in which nothing has been sent. -/
structure Channels (fresh : Nat) (host : Host) : Prop where
  inbox : ∀ command ∈ host.inbox, ∀ reply, command.channel = some reply → reply < fresh
  sent : ∀ e ∈ host.sent, e.1 < fresh
  distinct : (host.inbox.filterMap PartitionCommand.channel).Nodup
  unsent : ∀ e ∈ host.sent, e.1 ∉ host.inbox.filterMap PartitionCommand.channel

/-- What was sent after a wake-up was sent before, or answers one of its commands. -/
theorem mem_sent_answer {faults : List (Option KafkoError)} {reply : Nat}
    {result : Except KafkoError Reply} (h : (reply, result) ∈ (host.answer faults).sent) :
    (reply, result) ∈ host.sent ∨
      ∃ before command after fault added added', command ∈ host.inbox.take faults.length ∧
        host.inbox.take faults.length = before ++ command :: after ∧
        (reply, result) ∈ ((host.history.append added).respond fault command).1 ∧
        (host.answer faults).history =
          ((host.history.append added).respond fault command).2.append added' ∧
        (after = [] → added' = []) := by
  rcases List.mem_append.mp h with hOld | hNew
  · exact Or.inl hOld
  · obtain ⟨before, command, after, fault, added, added', hTaken, hRest⟩ :=
      History.respondAll_answer hNew
    refine Or.inr ⟨before, command, after, fault, added, added', ?_, hTaken, hRest⟩
    rw [hTaken]
    exact List.mem_append_right _ List.mem_cons_self

theorem answer_history (faults : List (Option KafkoError)) :
    ∃ added, (host.answer faults).history = host.history.append added :=
  History.respondAll_history _ _

theorem answer_oldest (faults : List (Option KafkoError)) :
    (host.answer faults).history.oldest = host.history.oldest := by
  obtain ⟨added, hAdded⟩ := host.answer_history faults
  rw [hAdded]
  rfl

theorem Channels.answer {fresh : Nat} (h : host.Channels fresh)
    (faults : List (Option KafkoError)) : (host.answer faults).Channels fresh := by
  have hSplit : host.inbox.filterMap PartitionCommand.channel =
      (host.inbox.take faults.length).filterMap PartitionCommand.channel ++
        (host.inbox.drop faults.length).filterMap PartitionCommand.channel := by
    rw [← List.filterMap_append, List.take_append_drop]
  have hDistinct := h.distinct
  rw [hSplit, List.nodup_append'] at hDistinct
  refine ⟨?_, ?_, hDistinct.2.1, ?_⟩
  · intro command hMem
    exact h.inbox command (List.mem_of_mem_drop hMem)
  · intro ⟨reply, result⟩ hMem
    rcases mem_sent_answer hMem with hOld | ⟨_, command, _, _, _, _, hIn, -, hAnswer, -, -⟩
    · exact h.sent _ hOld
    · exact h.inbox command (List.mem_of_mem_take hIn) reply (History.respond_channel hAnswer)
  · intro ⟨reply, result⟩ hMem hLeft
    rcases mem_sent_answer hMem with hOld | ⟨_, command, _, _, _, _, hIn, -, hAnswer, -, -⟩
    · apply h.unsent _ hOld
      rw [hSplit]
      exact List.mem_append_right _ hLeft
    · exact hDistinct.2.2 (List.mem_filterMap.mpr ⟨command, hIn, History.respond_channel hAnswer⟩)
        hLeft

theorem Channels.mono {fresh fresh' : Nat} (h : host.Channels fresh) (hLe : fresh ≤ fresh') :
    host.Channels fresh' :=
  ⟨fun command hMem reply hReply => (h.inbox command hMem reply hReply).trans_le hLe,
    fun e he => (h.sent e he).trans_le hLe, h.distinct, h.unsent⟩

theorem Channels.push {fresh : Nat} (h : host.Channels fresh) {command : PartitionCommand}
    (hFresh : ∀ reply, command.channel = some reply → reply = fresh) :
    (host.push command).Channels (fresh + 1) := by
  have hNew : fresh ∉ host.inbox.filterMap PartitionCommand.channel := by
    intro hMem
    obtain ⟨c, hc, hChannel⟩ := List.mem_filterMap.mp hMem
    exact Nat.lt_irrefl _ (h.inbox c hc fresh hChannel)
  refine ⟨?_, (h.mono (Nat.le_succ _)).sent, ?_, ?_⟩
  · intro c hMem reply hReply
    rcases List.mem_append.mp hMem with hOld | hLast
    · exact Nat.lt_succ_of_lt (h.inbox c hOld reply hReply)
    · rw [List.mem_singleton.mp hLast] at hReply
      exact Nat.lt_succ_of_le (hFresh reply hReply).le
  · show ((host.inbox ++ [command]).filterMap PartitionCommand.channel).Nodup
    rw [List.filterMap_append, List.nodup_append']
    cases hChannel : command.channel with
    | none => simpa [hChannel] using h.distinct
    | some reply =>
      obtain rfl := hFresh reply hChannel
      simpa [hChannel, h.distinct] using hNew
  · intro e he hMem
    change e.1 ∈ (host.inbox ++ [command]).filterMap PartitionCommand.channel at hMem
    rw [List.filterMap_append, List.mem_append] at hMem
    rcases hMem with hOld | hLast
    · exact h.unsent e he hOld
    · obtain ⟨c, hc, hChannel⟩ := List.mem_filterMap.mp hLast
      rw [List.mem_singleton.mp hc] at hChannel
      exact Nat.ne_of_lt (h.sent e he) (hFresh _ hChannel)

theorem Channels.moves (h : host.Channels s.nextReply) (hMoves : host.Moves s s' host')
    (hLe : s.nextReply ≤ s'.nextReply) : host'.Channels s'.nextReply := by
  have hSame := h.mono hLe
  cases hMoves with
  | push command hFresh hNext =>
    rw [hNext]
    exact h.push hFresh
  | act hActs =>
    cases hActs with
    | turn faults hPhase hWake =>
      have hAfter := (h.answer faults).mono hLe
      exact ⟨hAfter.inbox, hAfter.sent, hAfter.distinct, hAfter.unsent⟩
    | panic faults message hPhase hAppends =>
      have hAfter := (h.answer faults).mono hLe
      exact ⟨fun command hMem => (List.not_mem_nil hMem).elim, hAfter.sent, List.nodup_nil,
        fun e _ hMem => (List.not_mem_nil hMem).elim⟩
    | _ => exact ⟨hSame.inbox, hSame.sent, hSame.distinct, hSame.unsent⟩
  | _ => exact ⟨hSame.inbox, hSame.sent, hSame.distinct, hSame.unsent⟩

/-- A command has been sent to the partition with a reply channel of its own: it waits in the
inbox, or its answer satisfied `Q` when it was given and still does. -/
structure Owes (host : Host) (reply : Nat) (command : PartitionCommand) (floor : Nat)
    (Q : History Record → Except KafkoError Reply → Prop) : Prop where
  asked : ∀ c ∈ host.inbox, c.channel = some reply → c = command
  told : ∀ result, (reply, result) ∈ host.sent → Q host.history result
  floor : floor ≤ host.history.next

end Host

/-- The answers to a command satisfy `Q`, for a list with at least `floor` records and for
whatever becomes of that list. -/
structure Answered (command : PartitionCommand) (floor : Nat)
    (Q : History Record → Except KafkoError Reply → Prop) : Prop where
  sound : ∀ (h : History Record) (fault : Option KafkoError) (reply : Nat)
    (result : Except KafkoError Reply), floor ≤ h.next →
    (reply, result) ∈ (h.respond fault command).1 → Q (h.respond fault command).2 result
  append : ∀ h added result, Q h result → Q (History.append h added) result
  retire : ∀ h oldest result, Q h result → Q (History.retire h oldest) result

namespace Host

variable {s s' : Hub} {host host' : Host} {reply floor : Nat} {command : PartitionCommand}
  {Q : History Record → Except KafkoError Reply → Prop}

theorem Owes.answer (h : host.Owes reply command floor Q) (hQ : Answered command floor Q)
    (faults : List (Option KafkoError)) : (host.answer faults).Owes reply command floor Q := by
  obtain ⟨grown, hGrown⟩ := host.answer_history faults
  refine ⟨?_, ?_, ?_⟩
  · intro c hMem
    exact h.asked c (List.mem_of_mem_drop hMem)
  · intro result hMem
    rcases mem_sent_answer hMem with
      hOld | ⟨_, c, _, fault, added, added', hIn, -, hAnswer, hState, -⟩
    · rw [hGrown]
      exact hQ.append _ _ _ (h.told result hOld)
    · obtain rfl := h.asked c (List.mem_of_mem_take hIn) (History.respond_channel hAnswer)
      rw [hState]
      refine hQ.append _ _ _ (hQ.sound _ fault reply result ?_ hAnswer)
      rw [History.next_append]
      exact Nat.le_add_right_of_le h.floor
  · rw [hGrown, History.next_append]
    exact Nat.le_add_right_of_le h.floor

theorem Owes.moves (h : host.Owes reply command floor Q) (hQ : Answered command floor Q)
    (hReply : reply < s.nextReply) (hMoves : host.Moves s s' host') :
    host'.Owes reply command floor Q := by
  cases hMoves with
  | push c hFresh hNext =>
    refine ⟨?_, h.told, h.floor⟩
    intro c' hMem hChannel
    rcases List.mem_append.mp hMem with hOld | hNew
    · exact h.asked c' hOld hChannel
    · rw [List.mem_singleton.mp hNew] at hChannel
      exact absurd (hFresh reply hChannel) (Nat.ne_of_lt hReply)
  | act hActs =>
    cases hActs with
    | turn faults hPhase hWake =>
      have hAfter := h.answer hQ faults
      exact ⟨hAfter.asked, hAfter.told, hAfter.floor⟩
    | panic faults message hPhase hAppends =>
      have hAfter := h.answer hQ faults
      exact ⟨fun c hMem => (List.not_mem_nil hMem).elim, hAfter.told, hAfter.floor⟩
    | retention oldest hPhase hLe =>
      exact ⟨h.asked, fun result hMem => hQ.retire _ _ _ (h.told result hMem), h.floor⟩
    | close => exact ⟨h.asked, h.told, h.floor⟩
    | finish hPhase => exact ⟨h.asked, h.told, h.floor⟩
  | load hPhase hParked => exact ⟨h.asked, h.told, h.floor⟩
  | pass hPhase hParked => exact ⟨h.asked, h.told, h.floor⟩
  | pulse hPhase hTold => exact ⟨h.asked, h.told, h.floor⟩

/-- A fresh channel has been told nothing yet. -/
theorem Channels.owes (h : host.Channels reply) (hFloor : floor ≤ host.history.next) :
    (host.push command).Owes reply command floor Q := by
  refine ⟨?_, ?_, hFloor⟩
  · intro c hMem hChannel
    rcases List.mem_append.mp hMem with hOld | hNew
    · exact absurd (h.inbox c hOld reply hChannel) (Nat.lt_irrefl _)
    · exact List.mem_singleton.mp hNew
  · intro result hMem
    exact absurd (h.sent _ hMem) (Nat.lt_irrefl _)

/-- So has a channel whose command waits in the inbox. -/
theorem Channels.owes_waiting {fresh : Nat} (h : host.Channels fresh)
    (hMem : command ∈ host.inbox) (hChannel : command.channel = some reply) :
    host.Owes reply command 0 Q := by
  refine ⟨?_, ?_, Nat.zero_le _⟩
  · intro c hc hSame
    by_contra hNe
    have hPairwise := List.pairwise_filterMap.mp h.distinct
    obtain ⟨i, hi, rfl⟩ := List.getElem_of_mem hc
    obtain ⟨j, hj, rfl⟩ := List.getElem_of_mem hMem
    have hij : i ≠ j := fun hEq => hNe (by subst hEq; rfl)
    rcases Nat.lt_or_gt_of_ne hij with hLt | hLt
    · exact List.pairwise_iff_getElem.mp hPairwise i j hi hj hLt reply hSame reply hChannel rfl
    · exact List.pairwise_iff_getElem.mp hPairwise j i hj hi hLt reply hChannel reply hSame rfl
  · intro result hSent
    exact absurd (List.mem_filterMap.mpr ⟨command, hMem, hChannel⟩) (h.unsent _ hSent)

/-- The list of a partition keeps its records. -/
theorem Moves.records (hMoves : host.Moves s s' host') :
    ∃ added, host'.history.records = host.history.records ++ added := by
  have hSame : ∃ added, host.history.records = host.history.records ++ added :=
    ⟨[], (List.append_nil _).symm⟩
  have hAnswer : ∀ faults, ∃ added,
      (host.answer faults).history.records = host.history.records ++ added := by
    intro faults
    obtain ⟨added, hAdded⟩ := host.answer_history faults
    exact ⟨added, congrArg History.records hAdded⟩
  cases hMoves with
  | act hActs =>
    cases hActs with
    | turn faults hPhase hWake => exact hAnswer faults
    | panic faults message hPhase hAppends => exact hAnswer faults
    | _ => exact hSame
  | _ => exact hSame

theorem Moves.next_le (hMoves : host.Moves s s' host') :
    host.history.next ≤ host'.history.next := by
  obtain ⟨added, hAdded⟩ := hMoves.records
  show host.history.records.length ≤ host'.history.records.length
  rw [hAdded, List.length_append]
  exact Nat.le_add_right _ _

end Host

namespace Hub

variable {s s' : Hub} {p reply floor : Nat} {command : PartitionCommand}
  {Q : History Record → Except KafkoError Reply → Prop}

def Fresh (s : Hub) : Prop :=
  ∀ (p : Nat) (host : Host), s.hosts[p]? = some host → host.Channels s.nextReply

theorem fresh_start (histories : List (History Record)) : (start histories).Fresh := by
  intro p host hHost
  obtain ⟨history, -, rfl⟩ := List.mem_map.mp (List.mem_of_getElem? hHost)
  exact ⟨fun command hMem => (List.not_mem_nil hMem).elim,
    fun e he => (List.not_mem_nil he).elim, List.nodup_nil,
    fun e he => (List.not_mem_nil he).elim⟩

theorem Fresh.steps (h : s.Fresh) (hStep : s.Steps s') : s'.Fresh := by
  intro p host' hHost'
  obtain ⟨host, hHost, rfl | hMoves⟩ := hStep.moved hHost'
  · exact (h p host' hHost).mono hStep.nextReply_le
  · exact (h p host hHost).moves hMoves hStep.nextReply_le

/-- A command has been sent to partition `p` and waits or was answered as `Q` says. -/
def Owes (s : Hub) (p reply : Nat) (command : PartitionCommand) (floor : Nat)
    (Q : History Record → Except KafkoError Reply → Prop) : Prop :=
  reply < s.nextReply ∧ ∃ host, s.hosts[p]? = some host ∧ host.Owes reply command floor Q

theorem Owes.steps (h : s.Owes p reply command floor Q) (hQ : Answered command floor Q)
    (hStep : s.Steps s') : s'.Owes p reply command floor Q := by
  obtain ⟨hReply, host, hHost, hOwes⟩ := h
  refine ⟨hReply.trans_le hStep.nextReply_le, ?_⟩
  obtain ⟨host', hHost', rfl | hMoves⟩ := hStep.moves hHost
  · exact ⟨host', hHost', hOwes⟩
  · exact ⟨host', hHost', hOwes.moves hQ hReply hMoves⟩

/-- Sending a command on a fresh channel. -/
theorem Fresh.owes {host : Host} (h : s.Fresh) (hHost : s.hosts[p]? = some host)
    (hFloor : floor ≤ host.history.next)
    (hHosts : s'.hosts = (s.applied (.sends p host command)).hosts)
    (hNext : s'.nextReply = (s.applied (.sends p host command)).nextReply) :
    s'.Owes p s.nextReply command floor Q := by
  refine ⟨?_, host.push command, ?_, (h p host hHost).owes hFloor⟩
  · rw [hNext]
    exact Nat.lt_succ_self _
  · rw [hHosts]
    exact List.getElem?_set_self (List.getElem?_eq_some_iff.mp hHost).1

/-- The answer in a reply channel. -/
theorem Owes.received {host : Host} {result : Except KafkoError Reply}
    (h : s.Owes p reply command floor Q) (hHost : s.hosts[p]? = some host)
    (hSent : (reply, result) ∈ host.sent) : Q host.history result := by
  obtain ⟨-, host₀, hHost₀, hOwes⟩ := h
  obtain rfl : host₀ = host := Option.some.inj (hHost₀.symm.trans hHost)
  exact hOwes.told result hSent

/-- What a partition holds at an offset, whether retired or not. -/
def recordAt (s : Hub) (p offset : Nat) : Option Record :=
  (s.hosts[p]?).bind fun host => host.history.records[offset]?

theorem recordAt_eq_some {offset : Nat} {record : Record} : s.recordAt p offset = some record ↔
    ∃ host, s.hosts[p]? = some host ∧ host.history.records[offset]? = some record :=
  Option.bind_eq_some_iff

/-- A record stays where it is. -/
theorem Steps.recordAt (hStep : s.Steps s') {offset : Nat} {record : Record}
    (h : s.recordAt p offset = some record) : s'.recordAt p offset = some record := by
  obtain ⟨host, hHost, hRecord⟩ := recordAt_eq_some.mp h
  obtain ⟨host', hHost', rfl | hMoves⟩ := hStep.moves hHost
  · exact recordAt_eq_some.mpr ⟨host', hHost', hRecord⟩
  · obtain ⟨added, hAdded⟩ := hMoves.records
    refine recordAt_eq_some.mpr ⟨host', hHost', ?_⟩
    rw [hAdded, List.getElem?_append_left (List.getElem?_eq_some_iff.mp hRecord).1]
    exact hRecord

end Hub

end Kafko
