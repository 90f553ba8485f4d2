import Kafko.Topic.Waiting
import Kafko.Topic.Ordering

/-!
# Every call returns

A call of `send` or `send_batch` sends one bucket after the other; each is answered or left behind
by a writer that ends, so the call returns sooner or later (`calls_return`). A partition that is
shut down takes no more commands, works off its inbox and ends, and a consumer that is in a call
when all writers have ended gets out of it (`shutdown_completes`).
-/

namespace Kafko

open Disk Systems

variable {histories : List (History Record)} {e : Execution (Hub.courses histories)} {s s' : Hub}
  {p c k reply : Nat} {event : HubEvent}

/-! ## Calls of producers -/

/-- An accepted command of a producer is answered with offsets. -/
def GivesOffsets (_ : History Record) (result : Except KafkoError Reply) : Prop :=
  ∀ found, result = .ok found → (∃ offset, found = .offset offset) ∨ ∃ offsets, found = .offsets offsets

theorem answered_command (call : SendCall) (bucket : Bucket) (reply : Nat) :
    Answered (call.command bucket reply) 0 GivesOffsets := by
  refine ⟨?_, fun _ _ _ h => h, fun _ _ _ h => h⟩
  intro h fault reply' result _ hMem found hFound
  subst hFound
  obtain ⟨-, hServed⟩ := History.respond_ok hMem
  unfold SendCall.command at hServed
  split at hServed
  · simp only [History.serve, List.mem_singleton, Prod.mk.injEq, Except.ok.injEq] at hServed
    exact Or.inl ⟨_, hServed.2⟩
  · simp only [History.serve] at hServed
    split at hServed
    · simp only [List.mem_singleton, Prod.mk.injEq, Except.ok.injEq] at hServed
      exact Or.inr ⟨_, hServed.2⟩
    · simp only [List.mem_singleton, Prod.mk.injEq, Except.ok.injEq] at hServed
      exact Or.inr ⟨_, hServed.2⟩

namespace HubEvent

/-- Whatever happens to a call of a producer. -/
inductive OfCall (k : Nat) : HubEvent → Prop
  | of (event : CallEvent) : OfCall k (.call k event)

end HubEvent

namespace Hub

/-- A bucket on its way. -/
structure OnWay (s : Hub) (call : SendCall) (p reply : Nat) (bucket : Bucket) : Prop where
  pends : s.Pends p reply
  owes : s.Owes p reply (call.command bucket reply) 0 GivesOffsets

theorem OnWay.step {call : SendCall} {bucket : Bucket} (h : s.OnWay call p reply bucket)
    (hStep : s.step event = some s') : s'.OnWay call p reply bucket :=
  ⟨h.pends.step hStep, h.owes.steps (answered_command call bucket reply) (step_cases hStep)⟩

/-- The bucket a call waits for is on its way. -/
def Sending (s : Hub) : Prop :=
  ∀ (k : Nat) (call : SendCall), s.calls[k]? = some call → ∀ p reply bucket,
    call.pending = some (p, reply, bucket) → s.OnWay call p reply bucket

theorem Sending.step (h : s.Sending) (hFresh : s.Fresh) (hStep : s.step event = some s') :
    s'.Sending := by
  intro k call' hCall' p reply bucket hPending
  rcases (step_cases hStep).call_origin hCall' with
    ⟨call, hCall, rfl | ⟨effect, hOwn, hHosts, hNext⟩⟩ | ⟨single, records, todo, -, -, rfl⟩
  · exact (h k _ hCall p reply bucket hPending).step hStep
  · cases hOwn with
    | issue hStatus hNone hTodo hHost hAccepts =>
      cases hPending
      refine ⟨.push hHost (SendCall.command_channel _ _ _) hHosts, ?_⟩
      exact hFresh.owes hHost (Nat.zero_le _) hHosts hNext
    | settle => cases hPending
    | _ =>
      have hKept := (h k call hCall p reply bucket hPending).step hStep
      exact ⟨hKept.pends, hKept.owes⟩
  · cases hPending

theorem sending_at (e : Execution (courses histories)) (t : Nat) : (e.state t).Sending := by
  induction t with
  | zero =>
    rw [show e.state 0 = start histories from e.starts]
    intro k call hCall
    cases hCall
  | succ t ih =>
    rcases e.next t with ⟨-, hState⟩ | ⟨event, -, hStep⟩
    · rwa [hState]
    · exact ih.step (delivering_at e t).watching.fresh hStep

/-- An event seen from a call: its own, or one that leaves it alone. -/
theorem step_call {call : SendCall} (h : s.step event = some s') (hCall : s.calls[k]? = some call) :
    (∃ inner effect call', event = .call k inner ∧ call.Steps s effect call' ∧
      s'.calls[k]? = some call') ∨
    ((∀ inner, event ≠ .call k inner) ∧ s'.calls[k]? = some call) := by
  have hLt := (List.getElem?_eq_some_iff.mp hCall).1
  by_cases hOwn : ∃ inner, event = .call k inner
  · obtain ⟨inner, rfl⟩ := hOwn
    obtain ⟨call₀, hCall₀, hStep⟩ := Option.bind_eq_some_iff.mp h
    obtain rfl : call₀ = call := Option.some.inj (hCall₀.symm.trans hCall)
    change s.callStep k call₀ inner = some s' at hStep
    obtain ⟨effect, call', hSteps, rfl, -⟩ := callStep_cases hStep
    refine Or.inl ⟨inner, effect, call', rfl, hSteps, ?_⟩
    change ((s.applied effect).calls.set k call')[k]? = some call'
    rw [applied_calls]
    exact List.getElem?_set_self hLt
  · refine Or.inr ⟨fun inner hEq => hOwn ⟨inner, hEq⟩, ?_⟩
    cases event with
    | call j inner =>
      obtain ⟨call₀, -, hStep⟩ := Option.bind_eq_some_iff.mp h
      change s.callStep j call₀ inner = some s' at hStep
      obtain ⟨effect, call', -, rfl, -⟩ := callStep_cases hStep
      have hNe : j ≠ k := fun hEq => hOwn ⟨inner, by rw [hEq]⟩
      change ((s.applied effect).calls.set j call')[k]? = some call
      rw [applied_calls, List.getElem?_set_ne hNe, hCall]
    | join cursors =>
      obtain ⟨-, rfl⟩ := join_cases h
      exact hCall
    | reader c inner =>
      obtain ⟨r, -, hStep⟩ := Option.bind_eq_some_iff.mp h
      change s.readerStep c r inner = some s' at hStep
      obtain ⟨effect, r', -, rfl, -⟩ := readerStep_cases hStep
      change (s.applied effect).calls[k]? = some call
      rw [applied_calls, hCall]
    | command q command =>
      obtain ⟨host, -, -, rfl⟩ := command_cases h
      exact hCall
    | host q inner =>
      obtain ⟨host, host', -, -, rfl⟩ := host_cases h
      exact hCall
    | signal q =>
      obtain ⟨host, last, -, -, ⟨-, rfl⟩ | ⟨-, rfl⟩⟩ := signal_cases h
      · exact hCall
      · exact hCall
    | notify q =>
      obtain ⟨host, last, -, -, rfl⟩ := notify_cases h
      exact hCall
    | _ =>
      cases h
      change (s.calls ++ _)[k]? = some call
      rw [List.getElem?_append_left hLt, hCall]

/-- Buckets go to partitions of the topic. -/
def Addressed (s : Hub) : Prop :=
  ∀ (k : Nat) (call : SendCall), s.calls[k]? = some call → ∀ x ∈ call.todo, x.1 < s.hosts.length

theorem addressed_of_routes {single : Bool} {records : List Record} {todo : List (Nat × Bucket)}
    (h : Routes s single records todo) (hPos : 0 < s.hosts.length) :
    ∀ x ∈ todo, x.1 < s.hosts.length := by
  cases h with
  | single record roundRobin =>
    intro x hx
    rw [List.mem_singleton.mp hx]
    exact route_lt hPos _ _
  | batch drawn =>
    intro x hx
    have hOk : BucketsOk s.hosts.length (drawn.map Prod.fst) (drawn.map Prod.fst).length
        (fillBucketsAmong s.hosts.length 0 (List.replicate s.hosts.length []) drawn) :=
      fillBucketsAmong_ok hPos (bucketsOk_empty s.hosts.length _) rfl
    have hIn := (mem_sentBuckets.mp hx).1
    have hLt := (List.getElem?_eq_some_iff.mp hIn).1
    rwa [hOk.count] at hLt

theorem addressed_at (hTopic : histories ≠ []) (e : Execution (courses histories)) (t : Nat) :
    (e.state t).Addressed := by
  induction t with
  | zero =>
    rw [show e.state 0 = start histories from e.starts]
    intro k call hCall
    cases hCall
  | succ t ih =>
    rcases e.next t with ⟨-, hState⟩ | ⟨event, -, hStep⟩
    · rwa [hState]
    · have hPos : 0 < (e.state t).hosts.length := by
        rw [hosts_length_at]
        exact List.length_pos_iff.mpr hTopic
      intro k call' hCall' x hx
      rw [(step_cases hStep).hosts_length]
      rcases (step_cases hStep).call_origin hCall' with
        ⟨call, hCall, rfl | ⟨effect, hOwn, -, -⟩⟩ | ⟨single, records, todo, -, hRoutes, rfl⟩
      · exact ih k _ hCall x hx
      · apply ih k call hCall x
        cases hOwn with
        | issue hStatus hNone hTodo hHost hAccepts =>
          rw [hTodo]
          exact List.mem_cons_of_mem _ hx
        | _ => exact hx
      · exact addressed_of_routes hRoutes hPos x hx

end Hub

/-- How many steps a call has to take. -/
def SendCall.left (call : SendCall) : Nat :=
  2 * call.todo.length + if call.pending.isSome then 1 else 0

theorem SendCall.Steps.left_lt {call call' : SendCall} {effect : Effect}
    (h : call.Steps s effect call') (hRunning : call'.status = .running) :
    call'.left < call.left := by
  cases h with
  | finish => cases hRunning
  | issue hStatus hNone hTodo =>
    rw [left, left, hTodo, hNone, List.length_cons]
    simp only [Option.isSome_some, if_true, Option.isSome_none, Bool.false_eq_true, if_false]
    omega
  | settle hStatus hPending =>
    rw [left, left, hPending]
    simp
  | fail => cases hRunning
  | abandon => cases hRunning

namespace Hub

variable {call : SendCall} {bucket : Bucket}

theorem enabled_issue (hTopic : histories ≠ []) {t : Nat}
    (hCall : (e.state t).calls[k]? = some call) (hStatus : call.status = .running)
    (hNone : call.pending = none) (hRoom : ∀ p bucket todo, call.todo = (p, bucket) :: todo →
      ∀ host, (e.state t).hosts[p]? = some host → host.accepts = true →
        host.inbox.length < inboxCapacity) :
    (courses histories).Enabled (fun event => event = .call k .issue) (e.state t) := by
  refine enabled_of_step (.call k .issue) rfl ?_
  cases hTodo : call.todo with
  | nil => simp [step, callStep, hCall, hStatus, hNone, hTodo]
  | cons x todo =>
    have hLt := addressed_at hTopic e t k call hCall x (by rw [hTodo]; exact List.mem_cons_self)
    have hHost := List.getElem?_eq_getElem hLt
    by_cases hAccepts : ((e.state t).hosts[x.1]).accepts = true
    · have hLess := hRoom x.1 x.2 todo hTodo _ hHost hAccepts
      simp [step, callStep, hCall, hStatus, hNone, hTodo, hHost, hAccepts, enqueue, guard, hLess]
    · simp [step, callStep, hCall, hStatus, hNone, hTodo, hHost, hAccepts]

theorem enabled_settle (hCall : s.calls[k]? = some call) (hStatus : call.status = .running)
    (hPending : call.pending = some (p, reply, bucket)) (hSettles : s.Settles p reply)
    (hWay : s.OnWay call p reply bucket) :
    (courses histories).Enabled (fun event => event = .call k .settle) s := by
  obtain ⟨host, hHost, hSettled⟩ := hSettles
  refine enabled_of_step (.call k .settle) rfl ?_
  cases hReply : host.reply? reply with
  | some result =>
    cases result with
    | error error => simp [step, callStep, hCall, hStatus, hPending, hHost, hReply]
    | ok found =>
      rcases hWay.owes.received hHost (Host.mem_sent_of_reply hReply) found rfl with
        ⟨offset, rfl⟩ | ⟨offsets, rfl⟩
      · simp [step, callStep, hCall, hStatus, hPending, hHost, hReply]
      · simp [step, callStep, hCall, hStatus, hPending, hHost, hReply]
  | none =>
    have hEnded : host.phase = .ended := by
      rcases hSettled with ⟨result, hMem⟩ | hEnded
      · have hFind := List.find?_eq_none.mp (Option.map_eq_none_iff.mp hReply) _ hMem
        simp at hFind
      · exact hEnded
    simp [step, callStep, hCall, hStatus, hPending, hHost, hReply, guard, hEnded]

/-- A call stays as it is until it takes a step. -/
theorem call_next {t : Nat} (hCall : (e.state t).calls[k]? = some call) :
    (e.state (t + 1)).calls[k]? = some call ∨ e.Occurs (HubEvent.OfCall k) t := by
  rcases e.next t with ⟨-, hState⟩ | ⟨event, hLabel, hStep⟩
  · exact Or.inl (by rw [hState, hCall])
  · rcases step_call hStep hCall with ⟨inner, _, _, rfl, -, -⟩ | ⟨-, hSame⟩
    · exact Or.inr ⟨_, .of inner, hLabel⟩
    · exact Or.inl hSame

/-- A running call takes its next step. -/
theorem call_occurs (hTopic : histories ≠ []) (hWriters : FairWriters e) (hFair : FairCall e k)
    (hStatus : call.status = .running) :
    Leads (fun t => (e.state t).calls[k]? = some call)
      fun t => (e.state t).calls[k]? = some call ∧ e.Occurs (HubEvent.OfCall k) t := by
  have hStay : ∀ t, (e.state t).calls[k]? = some call → ¬ e.Occurs (HubEvent.OfCall k) t →
      (e.state (t + 1)).calls[k]? = some call :=
    fun t hCall hNot => (call_next hCall).resolve_right hNot
  cases hPending : call.pending with
  | none =>
    refine Execution.strong_occurs hFair.issues ?_ hStay ?_
    · intro event hEvent
      rw [hEvent]
      exact .of .issue
    · intro t hCall
      cases hTodo : call.todo with
      | nil =>
        refine ⟨t, Nat.le_refl t, Or.inl (enabled_issue hTopic hCall hStatus hPending ?_)⟩
        intro p bucket todo hCons
        rw [hTodo] at hCons
        cases hCons
      | cons x todo =>
        have hLt := addressed_at hTopic e t k call hCall x (by rw [hTodo]; exact List.mem_cons_self)
        obtain ⟨u, hu, host, hHost, hRoom⟩ := room_of_full hWriters (List.getElem?_eq_getElem hLt)
        rcases Leads.keep hStay hCall hu with hStill | ⟨v, hv, hThen, hNow⟩
        · refine ⟨u, hu, Or.inl (enabled_issue hTopic hStill hStatus hPending ?_)⟩
          intro p bucket todo' hCons host' hHost'
          rw [hTodo] at hCons
          obtain ⟨rfl, -⟩ := List.cons.inj hCons
          obtain rfl : host' = host := Option.some.inj (hHost'.symm.trans hHost)
          exact hRoom
        · exact ⟨v, hv, Or.inr ⟨hThen, hNow⟩⟩
  | some sent =>
    obtain ⟨p, reply, bucket⟩ := sent
    intro t hCall
    have hWay := sending_at e t k call hCall p reply bucket hPending
    obtain ⟨u, hu, hSettles⟩ := settles_of_pends hWriters t hWay.pends
    rcases Leads.keep hStay hCall hu with hStill | ⟨v, hv, hThen, hNow⟩
    · have hOccurs := Execution.weak_occurs (B := HubEvent.OfCall k) hFair.settles
        (P := fun t => (e.state t).calls[k]? = some call ∧ (e.state t).Settles p reply) ?_ ?_ ?_
      · obtain ⟨v, hv, hBoth, hNow⟩ := hOccurs u ⟨hStill, hSettles⟩
        exact ⟨v, hu.trans hv, hBoth.1, hNow⟩
      · intro event hEvent
        rw [hEvent]
        exact .of .settle
      · exact fun t h hNot => ⟨hStay t h.1 hNot, h.2.later (Nat.le_succ t)⟩
      · intro t h
        exact enabled_settle h.1 hStatus hPending h.2
          (sending_at e t k call h.1 p reply bucket hPending)
    · exact ⟨v, hv, hThen, hNow⟩

/-- A call comes to its end, whatever happens to the writers. -/
theorem call_ends (hTopic : histories ≠ []) (hWriters : FairWriters e) (hFair : FairCall e k) :
    Leads (fun t => ∃ call, (e.state t).calls[k]? = some call)
      fun t => ∃ call, (e.state t).calls[k]? = some call ∧ call.status ≠ .running := by
  intro t hAt
  obtain ⟨call, hCall⟩ := hAt
  refine Leads.by_measure
    (P := fun m t => ∃ call, (e.state t).calls[k]? = some call ∧ call.left = m)
    (Q := fun t => ∃ call, (e.state t).calls[k]? = some call ∧ call.status ≠ .running)
    ?_ call.left t ⟨call, hCall, rfl⟩
  intro m t hAt
  obtain ⟨call, hCall, rfl⟩ := hAt
  by_cases hStatus : call.status = .running
  · obtain ⟨u, hu, hThen, _, ⟨inner⟩, hLabel⟩ := call_occurs hTopic hWriters hFair hStatus t hCall
    refine ⟨u + 1, Nat.le_succ_of_le hu, ?_⟩
    rcases e.next u with ⟨hNone, -⟩ | ⟨event, hLabel', hStep⟩
    · rw [hLabel] at hNone
      cases hNone
    · obtain rfl := Option.some.inj (hLabel.symm.trans hLabel')
      rcases step_call hStep hThen with ⟨_, effect, call', -, hOwn, hCall'⟩ | ⟨hOther, -⟩
      · by_cases hStatus' : call'.status = .running
        · exact Or.inr ⟨_, hOwn.left_lt hStatus', call', hCall', rfl⟩
        · exact Or.inl ⟨call', hCall', hStatus'⟩
      · exact absurd rfl (hOther inner)
  · exact ⟨t, Nat.le_refl t, Or.inl ⟨call, hCall, hStatus⟩⟩

/-- A call of a producer returns, unless its future is dropped, whatever happens to the writers. -/
theorem calls_return (hTopic : histories ≠ []) (hWriters : FairWriters e) (hFair : FairCall e k)
    {T : Nat} (hCall : (e.state T).calls[k]? = some call) :
    ∃ t, T ≤ t ∧ ∃ call', (e.state t).calls[k]? = some call' ∧
      ((∃ result, call'.status = .returned result) ∨ call'.status = .abandoned) := by
  obtain ⟨t, hT, call', hCall', hEnded⟩ := call_ends hTopic hWriters hFair T ⟨call, hCall⟩
  refine ⟨t, hT, call', hCall', ?_⟩
  cases hStatus : call'.status with
  | running => exact absurd hStatus hEnded
  | returned result => exact Or.inl ⟨result, rfl⟩
  | abandoned => exact Or.inr rfl

/-- A call of `send` that is answered. -/
def sendOne : List HubEvent :=
  [.send ⟨7, none, []⟩, .call 0 .issue, .host 0 (.turn [none]), .signal 0, .call 0 .settle,
    .call 0 .issue]

theorem calls_return_sendOne : ∃ (e : Execution (courses [History.empty])) (t : Nat)
    (call : SendCall), FairWriters e ∧ FairCall e 0 ∧ (e.state t).calls[0]? = some call ∧
      ((∃ result, call.status = .returned result) ∨ call.status = .abandoned) := by
  obtain ⟨s, hRun, hHosts, call, hCalls, result, hStatus⟩ : ∃ s,
      (start [History.empty]).run sendOne = some s ∧ s.hosts = [⟨⟨[⟨7, none, []⟩], 0⟩, [],
        [(0, .ok (.offset 0))], .serving, false, none, 1⟩] ∧ ∃ call, s.calls = [call] ∧
        ∃ result, call.status = .returned result := ⟨_, rfl, rfl, _, rfl, _, rfl⟩
  obtain ⟨e, hZero, hLabels, hEnd⟩ := Execution.exists_rest rfl (runs_of_run sendOne hRun)
  have hDone : ∀ t, sendOne.length ≤ t → ∀ inner, ¬ (courses [History.empty]).Enabled
      (fun event => event = .call 0 inner) (e.state t) := by
    intro t ht inner hEnabled
    obtain ⟨_, s', rfl, hStep⟩ := hEnabled
    rw [hEnd t ht] at hStep
    cases inner <;> simp [courses, step, callStep, hCalls, hStatus] at hStep
  have hWriters : FairWriters e := by
    apply fairWriters_of_rests
    intro t
    refine ⟨max t sendOne.length, Nat.le_max_left _ _, ?_⟩
    rw [hEnd _ (Nat.le_max_right _ _)]
    intro p host hHost
    rw [hHosts] at hHost
    obtain rfl := List.mem_singleton.mp (List.mem_of_getElem? hHost)
    exact ⟨rfl, Or.inl ⟨rfl, rfl⟩⟩
  have hFair : FairCall e 0 := by
    refine ⟨Execution.stronglyFair_of_disabled fun t ht => hDone t ht .issue, ?_⟩
    apply Execution.weaklyFair_of_disabled
    exact fun t => ⟨max t sendOne.length, Nat.le_max_left _ _, hDone _ (Nat.le_max_right _ _) .settle⟩
  have hBegun : e.state 1 = _ := state_eq [.send ⟨7, none, []⟩] (fun i event hi => by
    rw [hLabels]
    cases i with
    | zero => exact hi
    | succ i => cases hi) rfl
  obtain ⟨call', hCall⟩ : ∃ call, (e.state 1).calls[0]? = some call := by
    rw [hBegun]
    exact ⟨_, rfl⟩
  obtain ⟨t, -, call'', hCall', hReturned⟩ := calls_return (by simp) hWriters hFair hCall
  exact ⟨e, t, call'', hWriters, hFair, hCall', hReturned⟩

end Hub

/-! ## Shutting down -/

namespace HubEvent

/-- A step of the writer of partition `p`. -/
inductive Writes (p : Nat) : HubEvent → Prop
  | recv {event : HubEvent} (h : Recv p event) : Writes p event
  | finish : Writes p (.host p .finish)
  | signal : Writes p (.signal p)
  | notify : Writes p (.notify p)

end HubEvent

/-- How far a closed writer is from its end, apart from its inbox. -/
def WriterPhase.toEnd : WriterPhase → Nat
  | .ended => 0
  | .notifying true => 1
  | .signalling true => 2
  | .serving => 3
  | .notifying false => 4
  | .signalling false => 5

theorem WriterPhase.toEnd_resume (last : Bool) :
    (WriterPhase.resume last).toEnd < (WriterPhase.notifying last).toEnd ∧
      (WriterPhase.notifying last).toEnd < (WriterPhase.signalling last).toEnd := by
  cases last <;> decide

namespace Host

variable {host host' : Host}

def toEnd (host : Host) : Nat := 6 * host.inbox.length + host.phase.toEnd

/-- A step of a closed writer brings it closer to its end; nobody else touches its inbox. -/
theorem Sees.closed (hSees : host.Sees p event host') (hClosed : host.closed = true) :
    host'.closed = true ∧ ((host'.inbox = host.inbox ∧ host'.phase = host.phase ∧
      ¬ event.Writes p) ∨ host'.toEnd < host.toEnd ∨ host'.phase = .ended) := by
  cases hSees with
  | same hHost hSignal hNotify =>
    refine ⟨hClosed, Or.inl ⟨rfl, rfl, fun hWrites => ?_⟩⟩
    cases hWrites with
    | recv hRecv => cases hRecv <;> exact hHost _ rfl
    | finish => exact hHost _ rfl
    | signal => exact hSignal rfl
    | notify => exact hNotify rfl
  | push hHost hSignal hNotify hAccepts =>
    rw [not_accepts_of_closed hClosed] at hAccepts
    cases hAccepts
  | @act inner _ hAct =>
    cases inner with
    | turn faults =>
      simp only [Host.act, Option.bind_eq_bind, Option.bind_eq_some_iff, Option.guard_eq_some',
        Option.pure_def, Option.some.injEq] at hAct
      obtain ⟨_, ⟨hPhase, hLen, hWake⟩, rfl⟩ := hAct
      have hPos := faults_pos hWake
      refine ⟨hClosed, Or.inr (Or.inl ?_)⟩
      change 6 * (host.inbox.drop faults.length).length + 5 < 6 * host.inbox.length + host.phase.toEnd
      rw [List.length_drop]
      omega
    | panic faults message =>
      simp only [Host.act, Option.bind_eq_bind, Option.bind_eq_some_iff, Option.guard_eq_some',
        Option.pure_def, Option.some.injEq] at hAct
      obtain ⟨_, -, rfl⟩ := hAct
      exact ⟨hClosed, Or.inr (Or.inr rfl)⟩
    | retention oldest =>
      simp only [Host.act, Option.bind_eq_bind, Option.bind_eq_some_iff, Option.guard_eq_some',
        Option.pure_def, Option.some.injEq] at hAct
      obtain ⟨_, -, rfl⟩ := hAct
      refine ⟨hClosed, Or.inl ⟨rfl, rfl, fun hWrites => ?_⟩⟩
      cases hWrites with
      | recv hRecv => cases hRecv
    | close =>
      cases hAct
      refine ⟨rfl, Or.inl ⟨rfl, rfl, fun hWrites => ?_⟩⟩
      cases hWrites with
      | recv hRecv => cases hRecv
    | finish =>
      simp only [Host.act, Option.bind_eq_bind, Option.bind_eq_some_iff, Option.guard_eq_some',
        Option.pure_def, Option.some.injEq] at hAct
      obtain ⟨_, ⟨hPhase, -, -⟩, rfl⟩ := hAct
      refine ⟨hClosed, Or.inr (Or.inl ?_)⟩
      rw [toEnd, toEnd, hPhase]
      exact Nat.lt_succ_self _
  | @load last hPhase =>
    refine ⟨hClosed, Or.inr (Or.inl ?_)⟩
    rw [toEnd, toEnd, hPhase]
    exact Nat.add_lt_add_left (WriterPhase.toEnd_resume last).2 _
  | @pass last hPhase =>
    refine ⟨hClosed, Or.inr (Or.inl ?_)⟩
    rw [toEnd, toEnd, hPhase]
    exact Nat.add_lt_add_left ((WriterPhase.toEnd_resume last).1.trans
      (WriterPhase.toEnd_resume last).2) _
  | @pulse last hPhase =>
    refine ⟨hClosed, Or.inr (Or.inl ?_)⟩
    rw [toEnd, toEnd, hPhase]
    exact Nat.add_lt_add_left (WriterPhase.toEnd_resume last).1 _

/-- The command with this reply channel waits, or was answered, or the writer panicked. -/
def Pledged (host : Host) (reply : Nat) : Prop :=
  (∃ command ∈ host.inbox, command.channel = some reply) ∨
    (∃ result, (reply, result) ∈ host.sent) ∨ host.panicked.isSome = true

theorem Sees.panicked (hSees : host.Sees p event host') (h : host.panicked.isSome = true) :
    host'.panicked.isSome = true := by
  cases hSees with
  | @act inner _ hAct =>
    cases act_cases hAct with
    | panic => rfl
    | _ => exact h
  | _ => exact h

/-- A wake-up after which the writer has ended was a panic. -/
theorem Sees.panicked_of_recv (hSees : host.Sees p event host') (hRecv : event.Recv p)
    (hEnded : host'.phase = .ended) : host'.panicked.isSome = true := by
  cases hRecv with
  | panic faults message =>
    cases hSees with
    | same hHost => exact absurd rfl (hHost _)
    | push hHost => exact absurd rfl (hHost _)
    | act hAct =>
      simp only [Host.act, Option.bind_eq_bind, Option.bind_eq_some_iff, Option.guard_eq_some',
        Option.pure_def, Option.some.injEq] at hAct
      obtain ⟨_, -, rfl⟩ := hAct
      rfl
  | turn faults =>
    cases hSees with
    | same hHost => exact absurd rfl (hHost _)
    | push hHost => exact absurd rfl (hHost _)
    | act hAct =>
      simp only [Host.act, Option.bind_eq_bind, Option.bind_eq_some_iff, Option.guard_eq_some',
        Option.pure_def, Option.some.injEq] at hAct
      obtain ⟨_, -, rfl⟩ := hAct
      cases hEnded

theorem Pledged.sees (h : host.Pledged reply) (hSees : host.Sees p event host') :
    host'.Pledged reply := by
  rcases h with ⟨command, hMem, hChannel⟩ | ⟨result, hTold⟩ | hPanicked
  · obtain ⟨before, hFront⟩ := front_of_mem hMem
    by_cases hRecv : event.Recv p
    · rcases hSees.recv hRecv hFront hChannel with (hTold | hEnded) | ⟨before', -, hFront'⟩
      · exact Or.inr (Or.inl hTold)
      · exact Or.inr (Or.inr (hSees.panicked_of_recv hRecv hEnded))
      · exact Or.inl ⟨command, mem_of_front hFront', hChannel⟩
    · exact Or.inl ⟨command, mem_of_front (hSees.front (by simp) hFront hRecv).1, hChannel⟩
  · exact Or.inr (Or.inl ⟨result, hSees.sent _ hTold⟩)
  · exact Or.inr (Or.inr (hSees.panicked hPanicked))

end Host

namespace Hub

/-- The writer of partition `p` has ended. -/
def Ended (s : Hub) (p : Nat) : Prop := ∃ host, s.hosts[p]? = some host ∧ host.phase = .ended

def Closed (s : Hub) (p : Nat) : Prop := ∃ host, s.hosts[p]? = some host ∧ host.closed = true

theorem Ended.later {t u : Nat} (h : (e.state t).Ended p) (hLe : t ≤ u) : (e.state u).Ended p := by
  refine Execution.always (e := e) (I := fun s => s.Ended p) ?_ h hLe
  intro s event s' hEnded hStep
  obtain ⟨host, hHost, hPhase⟩ := hEnded
  obtain ⟨host', hHost', hSees⟩ := step_sees hStep hHost
  exact ⟨host', hHost', hSees.ended hPhase⟩

theorem Closed.later {t u : Nat} (h : (e.state t).Closed p) (hLe : t ≤ u) :
    (e.state u).Closed p := by
  refine Execution.always (e := e) (I := fun s => s.Closed p) ?_ h hLe
  intro s event s' hClosed hStep
  obtain ⟨host, hHost, hFlag⟩ := hClosed
  obtain ⟨host', hHost', hSees⟩ := step_sees hStep hHost
  exact ⟨host', hHost', (hSees.closed hFlag).1⟩

/-- A closed writer that has not ended takes a step. -/
theorem writes_of_closed (hWriters : FairWriters e) {inbox : List PartitionCommand}
    {phase : WriterPhase} (hPhase : phase ≠ .ended) :
    Leads (fun t => ∃ host, (e.state t).hosts[p]? = some host ∧ host.closed = true ∧
        host.inbox = inbox ∧ host.phase = phase)
      fun t => ∃ host, (e.state t).hosts[p]? = some host ∧ host.closed = true ∧
        (host.toEnd < 6 * inbox.length + phase.toEnd ∨ host.phase = .ended) := by
  have hLeads : ∀ A : HubEvent → Prop, e.WeaklyFair A → (∀ event, A event → event.Writes p) →
      (∀ t host, (e.state t).hosts[p]? = some host → host.closed = true → host.inbox = inbox →
        host.phase = phase → (courses histories).Enabled A (e.state t)) →
      Leads (fun t => ∃ host, (e.state t).hosts[p]? = some host ∧ host.closed = true ∧
          host.inbox = inbox ∧ host.phase = phase)
        fun t => ∃ host, (e.state t).hosts[p]? = some host ∧ host.closed = true ∧
          (host.toEnd < 6 * inbox.length + phase.toEnd ∨ host.phase = .ended) := by
    intro A hFair hSub hEnabled
    refine (Execution.weak_leads (D := fun _ => False) hFair ?_ ?_).weaken
      fun t h => h.resolve_left (fun hBoth => hBoth.2)
    · intro t hIn
      obtain ⟨host, hHost, hClosed, hInbox, hAt⟩ := hIn
      exact hEnabled t host hHost hClosed hInbox hAt
    · intro t hIn _
      obtain ⟨host, hHost, hClosed, hInbox, hAt⟩ := hIn
      rcases host_next e hHost with ⟨hLabel, hHost'⟩ | ⟨event, host', hLabel, hHost', hSees⟩
      · refine Or.inl ⟨⟨host, hHost', hClosed, hInbox, hAt⟩, fun hNow => ?_⟩
        obtain ⟨event, -, hSome⟩ := hNow
        rw [hLabel] at hSome
        cases hSome
      · obtain ⟨hClosed', ⟨hSame, hSame', hNot⟩ | hEnd⟩ := hSees.closed hClosed
        · refine Or.inl ⟨⟨host', hHost', hClosed', hSame.trans hInbox, hSame'.trans hAt⟩,
            fun hNow => ?_⟩
          obtain ⟨event', hA, hLabel'⟩ := hNow
          obtain rfl := Option.some.inj (hLabel.symm.trans hLabel')
          exact hNot (hSub _ hA)
        · rw [Host.toEnd.eq_1 host, hInbox, hAt] at hEnd
          exact Or.inr ⟨host', hHost', hClosed', hEnd⟩
  cases phase with
  | serving =>
    by_cases hNil : inbox = []
    · refine hLeads _ (hWriters.finish p) (fun event hEvent => hEvent ▸ .finish) ?_
      intro t host hHost hClosed hInbox hAt
      refine enabled_host .finish rfl hHost ?_
      simp [Host.act, guard, hClosed, hInbox, hAt, hNil]
    · refine hLeads _ (hWriters.recv p) (fun event hRecv => .recv hRecv) ?_
      intro t host hHost hClosed hInbox hAt
      exact enabled_recv hHost hAt (by rwa [hInbox])
  | signalling last =>
    refine hLeads _ (hWriters.signal p) (fun event hEvent => hEvent ▸ .signal) ?_
    intro t host hHost hClosed hInbox hAt
    exact enabled_signal hHost hAt
  | notifying last =>
    refine hLeads _ (hWriters.notify p) (fun event hEvent => hEvent ▸ .notify) ?_
    intro t host hHost hClosed hInbox hAt
    exact enabled_notify hHost hAt
  | ended => exact absurd rfl hPhase

/-- A partition that is shut down works off its inbox and ends. -/
theorem ended_of_closed (hWriters : FairWriters e) :
    Leads (fun t => (e.state t).Closed p) fun t => (e.state t).Ended p := by
  intro t hClosed
  obtain ⟨host, hHost, hFlag⟩ := hClosed
  refine Leads.by_measure
    (P := fun m t => ∃ host, (e.state t).hosts[p]? = some host ∧ host.closed = true ∧
      host.toEnd = m) (Q := fun t => (e.state t).Ended p) ?_ host.toEnd t ⟨host, hHost, hFlag, rfl⟩
  intro m t hAt
  obtain ⟨host, hHost, hFlag, rfl⟩ := hAt
  by_cases hPhase : host.phase = .ended
  · exact ⟨t, Nat.le_refl t, Or.inl ⟨host, hHost, hPhase⟩⟩
  · obtain ⟨u, hu, host', hHost', hFlag', hLess | hEnded⟩ :=
      writes_of_closed hWriters hPhase t ⟨host, hHost, hFlag, rfl, rfl⟩
    · exact ⟨u, hu, Or.inr ⟨_, hLess, host', hHost', hFlag', rfl⟩⟩
    · exact ⟨u, hu, Or.inl ⟨host', hHost', hEnded⟩⟩

/-- All writers end together, those that were told to and those that had died before. -/
theorem all_ended (hWriters : FairWriters e) :
    Leads (fun t => ∀ p < histories.length, (e.state t).Closed p ∨ (e.state t).Ended p)
      fun t => ∀ p < histories.length, (e.state t).Ended p := by
  refine Leads.all
    (P := fun t => ∀ p < histories.length, (e.state t).Closed p ∨ (e.state t).Ended p) ?_ ?_ ?_
  · intro t h p hp
    rcases h p hp with hClosed | hEnded
    · exact Or.inl (hClosed.later (Nat.le_succ t))
    · exact Or.inr (hEnded.later (Nat.le_succ t))
  · exact fun p hp t _ h => h.later (Nat.le_succ t)
  · intro p hp t h
    rcases h p hp with hClosed | hEnded
    · exact ended_of_closed hWriters t hClosed
    · exact ⟨t, Nat.le_refl t, hEnded⟩

end Hub

/-- How far a call of a consumer is from its end when no partition takes questions any more. -/
def Stage.toExit : Stage → Nat
  | .idle => 0
  | .unmarking false => 1
  | .asking _ _ => 2
  | .unmarking true => 3
  | .waiting => 4
  | .marked => 5
  | .caughtUp => 6
  | .awaiting _ _ _ => 7

namespace Reader

variable {r r' : Reader} {effect : Effect}

theorem toExit_leave (r : Reader) (again : Bool) : (r.leave again).stage.toExit ≤ 1 := by
  cases again
  · exact Nat.zero_le 1
  · exact Nat.le_refl 1

theorem toExit_stageAt_le (r : Reader) (again : Bool) (i : Nat) : (r.stageAt again i).toExit ≤ 6 := by
  rcases r.stageAt_cases again i with hStage | ⟨-, ⟨-, hStage⟩ | ⟨-, hStage⟩⟩ <;> rw [hStage] <;>
    simp [Stage.toExit]

theorem Steps.toExit_lt (h : r.Steps s effect r') (hPos : 0 < r.consumer.cursors.length)
    (hEnded : ∀ (p : Nat) (host : Host), s.hosts[p]? = some host → host.phase = .ended)
    (hStage : r.stage ≠ .idle) : r'.stage.toExit < r.stage.toExit := by
  have hBegin : ∀ again, (r.stageAt again 0).toExit = 2 := by
    intro again
    rw [stageAt, if_pos hPos]
    rfl
  cases h with
  | next hIdle => exact absurd hIdle hStage
  | ask hAsking hHost hAccepts =>
    rw [Host.accepts, hEnded _ _ hHost] at hAccepts
    simp at hAccepts
  | @leave again hAt =>
    have hLe := r.toExit_leave again
    rcases hAt with ⟨i, hAt⟩ | ⟨i, reply, hAt⟩
    · rw [hAt]
      exact Nat.lt_of_le_of_lt hLe (by simp [Stage.toExit])
    · rw [hAt]
      exact Nat.lt_of_le_of_lt hLe (by simp [Stage.toExit])
  | @take again i reply host record hAt =>
    have hLe : (r.take again (r.consumer.scanIndex i) record).stage.toExit ≤ 1 :=
      r.toExit_leave again
    rw [hAt]
    exact Nat.lt_of_le_of_lt hLe (by simp [Stage.toExit])
  | @miss again i reply host result hAt =>
    have hLe := r.toExit_stageAt_le again (i + 1)
    rw [hAt]
    exact Nat.lt_succ_of_le hLe
  | park hAt =>
    rw [hAt]
    exact Nat.lt_succ_self 5
  | enable hAt =>
    rw [hAt]
    change (r.stageAt true 0).toExit < _
    rw [hBegin]
    decide
  | wake hAt hFuture =>
    rw [hAt]
    exact Nat.lt_succ_self 3
  | @unmark loop hAt =>
    rw [hAt]
    cases loop with
    | false => exact Nat.lt_succ_self 0
    | true =>
      change (r.stageAt false 0).toExit < _
      rw [hBegin]
      decide
  | cancel hAt =>
    change 0 < r.stage.toExit
    cases hNow : r.stage with
    | idle => exact absurd hNow hStage
    | unmarking loop => cases loop <;> decide
    | _ => simp [Stage.toExit]

end Reader

namespace Hub

/-- When all writers have ended a consumer gets out of its call. -/
theorem reader_returns (hTopic : histories ≠ []) (hWriters : FairWriters e) (hReader : FairReader e c)
    {T : Nat} (hEnded : ∀ p < histories.length, (e.state T).Ended p) {r : Reader}
    (hr : (e.state T).readers[c]? = some r) :
    ∃ t, T ≤ t ∧ ∃ r', (e.state t).readers[c]? = some r' ∧ r'.stage = .idle := by
  have hAll : ∀ t, T ≤ t → ∀ (p : Nat) (host : Host), (e.state t).hosts[p]? = some host →
      host.phase = .ended := by
    intro t hT p host hHost
    have hLt := (List.getElem?_eq_some_iff.mp hHost).1
    rw [hosts_length_at] at hLt
    obtain ⟨host', hHost', hPhase⟩ := (hEnded p hLt).later hT
    obtain rfl : host' = host := Option.some.inj (hHost'.symm.trans hHost)
    exact hPhase
  refine Leads.by_measure
    (P := fun m t => T ≤ t ∧ ∃ r, (e.state t).readers[c]? = some r ∧ r.stage.toExit = m)
    (Q := fun t => ∃ r', (e.state t).readers[c]? = some r' ∧ r'.stage = .idle) ?_
    r.stage.toExit T ⟨Nat.le_refl T, r, hr, rfl⟩
  intro m t hAt
  obtain ⟨hT, r, hr, rfl⟩ := hAt
  by_cases hIdle : r.stage = .idle
  · exact ⟨t, Nat.le_refl t, Or.inl ⟨r, hr, hIdle⟩⟩
  have hOccurs := reader_occurs hTopic hWriters hReader r.consumer r.stage
    (P := fun t => T ≤ t ∧ ∃ r', (e.state t).readers[c]? = some r' ∧ r'.consumer = r.consumer ∧
      r'.stage = r.stage) ?_ (fun h => absurd h hIdle) ?_
  · obtain ⟨u, hu, ⟨hTu, r₁, hr₁, hConsumer, hStage⟩, _, ⟨inner⟩, hLabel⟩ :=
      hOccurs t ⟨hT, r, hr, rfl, rfl⟩
    refine ⟨u + 1, Nat.le_succ_of_le hu, ?_⟩
    rcases e.next u with ⟨hNone, -⟩ | ⟨event, hLabel', hStep⟩
    · rw [hLabel] at hNone
      cases hNone
    · obtain rfl := Option.some.inj (hLabel.symm.trans hLabel')
      rcases step_reader hStep hr₁ with ⟨_, effect, r₂, -, -, hOwn, -, hr₂⟩ | ⟨hOther, -⟩
      · have hPos : 0 < r₁.consumer.cursors.length := by
          rw [((delivering_at e u).watching.each r₁ (List.mem_of_getElem? hr₁)).sized, hosts_length_at]
          exact List.length_pos_iff.mpr hTopic
        have hLess := hOwn.toExit_lt hPos (hAll u hTu) (by rwa [hStage])
        rw [hStage] at hLess
        exact Or.inr ⟨_, hLess, Nat.le_succ_of_le hTu, r₂, hr₂, rfl⟩
      · exact absurd rfl (hOther inner)
  · intro u hAt
    obtain ⟨hTu, r₁, hr₁, hConsumer, hStage⟩ := hAt
    refine ⟨r₁, hr₁, hConsumer, hStage, fun hWaiting => ?_⟩
    have hMem := List.mem_of_getElem? hr₁
    have hWatching := (delivering_at e u).watching
    have hArmed := (hWatching.each r₁ hMem).armed
    rw [Reader.enabled, hStage.trans hWaiting] at hArmed
    obtain ⟨told, hFuture⟩ := Option.isSome_iff_exists.mp hArmed
    cases told with
    | true => exact hFuture
    | false =>
      obtain ⟨host, hHost⟩ := host_scanned e hTopic hr₁ 0
      have hQuiet := hWatching.quiet hMem (hStage.trans hWaiting) hFuture hHost
      exact absurd (hAll u hTu _ host hHost) hQuiet.1.not_ended
  · intro u hAt hNot
    obtain ⟨hTu, r₁, hr₁, hConsumer, hStage⟩ := hAt
    refine ⟨Nat.le_succ_of_le hTu, ?_⟩
    rcases e.next u with ⟨-, hState⟩ | ⟨event, hLabel, hStep⟩
    · rw [hState]
      exact ⟨r₁, hr₁, hConsumer, hStage⟩
    · rcases step_reader hStep hr₁ with ⟨inner, _, _, rfl, -⟩ | ⟨-, hSame | hTold⟩
      · exact absurd ⟨_, .of inner, hLabel⟩ hNot
      · exact ⟨r₁, hSame, hConsumer, hStage⟩
      · exact ⟨_, hTold, hConsumer, hStage⟩

theorem pledged_later {t u : Nat} {host : Host} (hHost : (e.state t).hosts[p]? = some host)
    (h : host.Pledged reply) (hLe : t ≤ u) :
    ∃ host', (e.state u).hosts[p]? = some host' ∧ host'.Pledged reply := by
  refine Execution.always (e := e)
    (I := fun s => ∃ host, s.hosts[p]? = some host ∧ host.Pledged reply) ?_ ⟨host, hHost, h⟩ hLe
  intro s event s' hPledged hStep
  obtain ⟨host, hHost, hPledge⟩ := hPledged
  obtain ⟨host', hHost', hSees⟩ := step_sees hStep hHost
  exact ⟨host', hHost', hPledge.sees hSees⟩

theorem panicked_later {t u : Nat} {host : Host} (hHost : (e.state t).hosts[p]? = some host)
    (h : host.panicked.isSome = true) (hLe : t ≤ u) :
    ∃ host', (e.state u).hosts[p]? = some host' ∧ host'.panicked.isSome = true := by
  refine Execution.always (e := e)
    (I := fun s => ∃ host, s.hosts[p]? = some host ∧ host.panicked.isSome = true) ?_
    ⟨host, hHost, h⟩ hLe
  intro s event s' hPanicked hStep
  obtain ⟨host, hHost, hSome⟩ := hPanicked
  obtain ⟨host', hHost', hSees⟩ := step_sees hStep hHost
  exact ⟨host', hHost', hSees.panicked hSome⟩

/-- Writers that have ended have left nothing in their inboxes. -/
theorem empty_of_ended {t u : Nat} {host : Host}
    (hEnded : ∀ p < histories.length, (e.state t).Ended p) (hLe : t ≤ u)
    (hHost : (e.state u).hosts[p]? = some host) : host.phase = .ended ∧ host.inbox = [] := by
  have hLt := (List.getElem?_eq_some_iff.mp hHost).1
  rw [hosts_length_at] at hLt
  obtain ⟨host', hHost', hPhase⟩ := (hEnded p hLt).later hLe
  obtain rfl : host' = host := Option.some.inj (hHost'.symm.trans hHost)
  exact ⟨hPhase, (sound_at e u p host' hHost').ended hPhase⟩

/-- Unless its writer has panicked, everything that was in an inbox has been answered. -/
theorem answered_of_ended {t u : Nat} {host host' : Host}
    (hEnded : ∀ p < histories.length, (e.state u).Ended p) (hLe : t ≤ u)
    (hHost : (e.state t).hosts[p]? = some host) (hHost' : (e.state u).hosts[p]? = some host')
    (hAsked : ∃ command ∈ host.inbox, command.channel = some reply)
    (hCalm : host'.panicked = none) : ∃ result, (reply, result) ∈ host'.sent := by
  obtain ⟨host₁, hHost₁, hPledged⟩ := pledged_later hHost (Or.inl hAsked) hLe
  obtain rfl : host₁ = host' := Option.some.inj (hHost₁.symm.trans hHost')
  rcases hPledged with ⟨command, hMem, -⟩ | hTold | hPanicked
  · rw [(empty_of_ended hEnded (Nat.le_refl u) hHost₁).2] at hMem
    cases hMem
  · exact hTold
  · rw [hCalm] at hPanicked
    cases hPanicked

/-- A topic whose partitions are shut down, or have lost their writers, comes to its end: each
writer that is left answers what is in its inbox, if it does not panic, and ends, and a consumer
that is in a call gets out of it. -/
theorem shutdown_completes (hTopic : histories ≠ []) (hWriters : FairWriters e) {T : Nat}
    (hEnding : ∀ p < histories.length, (e.state T).Closed p ∨ (e.state T).Ended p) :
    ∃ t, T ≤ t ∧ (∀ (u p : Nat) (host : Host), t ≤ u → (e.state u).hosts[p]? = some host →
        host.phase = .ended ∧ host.inbox = []) ∧
      (∀ (p reply : Nat) (host host' : Host), (e.state T).hosts[p]? = some host →
        (e.state t).hosts[p]? = some host' →
        (∃ command ∈ host.inbox, command.channel = some reply) → host'.panicked = none →
        ∃ result, (reply, result) ∈ host'.sent) ∧
      ∀ (c u : Nat) (r : Reader), FairReader e c → t ≤ u → (e.state u).readers[c]? = some r →
        ∃ v, u ≤ v ∧ ∃ r', (e.state v).readers[c]? = some r' ∧ r'.stage = .idle := by
  obtain ⟨t, hT, hEnded⟩ := all_ended hWriters T hEnding
  refine ⟨t, hT, fun u p host hu hHost => empty_of_ended hEnded hu hHost, ?_, ?_⟩
  · intro p reply host host' hHost hHost' hAsked hCalm
    exact answered_of_ended hEnded hT hHost hHost' hAsked hCalm
  · intro c u r hReader hu hr
    exact reader_returns hTopic hWriters hReader (fun p hp => (hEnded p hp).later hu) hr

/-- A call of `send` is dropped when its record is in the inbox, and the partition is shut down. -/
def shutAfterDrop : List HubEvent :=
  [.send ⟨7, none, []⟩, .call 0 .issue, .call 0 .abandon, .host 0 .close]

/-- The writer takes what is left and ends. -/
def drainAndEnd : List HubEvent :=
  [.host 0 (.turn [none]), .signal 0, .host 0 .finish, .signal 0]

theorem shutdown_completes_drained : ∃ (e : Execution (courses [History.empty])) (t : Nat)
    (host : Host), FairWriters e ∧ (e.state t).hosts[0]? = some host ∧ host.phase = .ended ∧
      ∃ result, (0, result) ∈ host.sent := by
  obtain ⟨s, hRun, hHosts⟩ : ∃ s,
      (start [History.empty]).run (shutAfterDrop ++ drainAndEnd) = some s ∧
        s.hosts = [⟨⟨[⟨7, none, []⟩], 0⟩, [], [(0, .ok (.offset 0))], .ended, true, none, 1⟩] :=
    ⟨_, rfl, rfl⟩
  obtain ⟨e, hZero, hLabels, hEnd⟩ :=
    Execution.exists_rest rfl (runs_of_run (shutAfterDrop ++ drainAndEnd) hRun)
  have hLast : ∀ t, 8 ≤ t → e.state t = s := hEnd
  have hWriters : FairWriters e := by
    apply fairWriters_of_rests
    intro t
    refine ⟨max t 8, Nat.le_max_left _ _, ?_⟩
    rw [hLast _ (Nat.le_max_right _ _)]
    intro p host hHost
    rw [hHosts] at hHost
    obtain rfl := List.mem_singleton.mp (List.mem_of_getElem? hHost)
    exact ⟨rfl, Or.inr rfl⟩
  have hShut : e.state 4 = _ := state_eq shutAfterDrop (fun i event hi => by
    rw [hLabels]
    exact (List.getElem?_append_left (List.getElem?_eq_some_iff.mp hi).1).trans hi) rfl
  have hEnding : ∀ p < [History.empty (ρ := Record)].length,
      (e.state 4).Closed p ∨ (e.state 4).Ended p := by
    intro p hp
    obtain rfl : p = 0 := Nat.lt_one_iff.mp hp
    rw [hShut]
    exact Or.inl ⟨_, rfl, rfl⟩
  obtain ⟨t, hT, hEmpty, hAnswered, -⟩ := shutdown_completes (by simp) hWriters hEnding
  obtain ⟨host, hHost, hAsked⟩ : ∃ host, (e.state 4).hosts[0]? = some host ∧
      ∃ command ∈ host.inbox, command.channel = some 0 := by
    rw [hShut]
    exact ⟨_, rfl, _, List.mem_singleton.mpr rfl, rfl⟩
  have hLt : 0 < (e.state t).hosts.length := by
    rw [hosts_length_at]
    exact Nat.one_pos
  have hHost' := List.getElem?_eq_getElem hLt
  have hCalm : ((e.state t).hosts[0]).panicked = none := by
    by_contra hSome
    obtain ⟨host'', hHost'', hSome'⟩ :=
      panicked_later hHost' (Option.isSome_iff_ne_none.mpr hSome) (Nat.le_max_left t 8)
    rw [hLast _ (Nat.le_max_right t 8), hHosts] at hHost''
    obtain rfl := List.mem_singleton.mp (List.mem_of_getElem? hHost'')
    cases hSome'
  obtain ⟨result, hResult⟩ := hAnswered 0 0 host _ hHost hHost' hAsked hCalm
  exact ⟨e, t, _, hWriters, hHost', (hEmpty t 0 _ (Nat.le_refl t) hHost').1, result, hResult⟩

end Hub

end Kafko
