import Kafko.Systems.Fair
import Kafko.Topic.Delivery

/-!
# What the tasks of a topic get done

Infinite runs of a topic. A writer that is scheduled fairly takes every command from its inbox
sooner or later and answers it, unless it ends; a full inbox has room again. So a task that waits
for a place in an inbox or for a reply goes on. Nothing is assumed about how many other commands
arrive in the meantime, and failures and panics may happen.
-/

namespace Kafko

open Disk Systems

/-- The topic with every event visible. -/
def Hub.courses (histories : List (History Record)) : System Hub HubEvent :=
  ⟨fun s => s = Hub.start histories, fun s event s' => s.step event = some s'⟩

/-! ## The tasks -/

namespace HubEvent

/-- A writer takes commands from its inbox. -/
inductive Recv (p : Nat) : HubEvent → Prop
  | turn (faults : List (Option KafkoError)) : Recv p (.host p (.turn faults))
  | panic (faults : List (Option KafkoError)) (message : String) :
    Recv p (.host p (.panic faults message))

/-- Whatever happens to the consumer's call. -/
inductive Of (c : Nat) : HubEvent → Prop
  | of (event : ReaderEvent) : Of c (.reader c event)

/-- The consumer goes on with the call it has begun. -/
inductive Continues (c : Nat) : HubEvent → Prop
  | continues (event : ReaderEvent) (h : event ≠ .cancel) (hNext : event ≠ .next) :
    Continues c (.reader c event)

end HubEvent

/-- The writers of the topic are scheduled fairly. -/
structure FairWriters {histories : List (History Record)} (e : Execution (Hub.courses histories)) :
    Prop where
  recv : ∀ p, e.WeaklyFair (HubEvent.Recv p)
  finish : ∀ p, e.WeaklyFair fun event => event = .host p .finish
  signal : ∀ p, e.WeaklyFair fun event => event = .signal p
  notify : ∀ p, e.WeaklyFair fun event => event = .notify p

/-- The consumer is scheduled fairly, and gets its turn when an inbox has room. -/
structure FairReader {histories : List (History Record)} (e : Execution (Hub.courses histories))
    (c : Nat) : Prop where
  continues : e.WeaklyFair (HubEvent.Continues c)
  asks : e.StronglyFair fun event => event = .reader c .ask

/-- So is a call of a producer. -/
structure FairCall {histories : List (History Record)} (e : Execution (Hub.courses histories))
    (k : Nat) : Prop where
  issues : e.StronglyFair fun event => event = .call k .issue
  settles : e.WeaklyFair fun event => event = .call k .settle

/-! ## One partition -/

namespace Host

variable {host host' : Host} {p reply : Nat} {event : HubEvent}

/-- What an event of the topic can do to its partition `p`. -/
inductive Sees (p : Nat) (host : Host) : HubEvent → Host → Prop
  | same {event : HubEvent} (hHost : ∀ inner, event ≠ .host p inner) (hSignal : event ≠ .signal p)
      (hNotify : event ≠ .notify p) : Sees p host event host
  | push {event : HubEvent} {command : PartitionCommand} (hHost : ∀ inner, event ≠ .host p inner)
      (hSignal : event ≠ .signal p) (hNotify : event ≠ .notify p) (hAccepts : host.accepts = true)
      (hRoom : host.inbox.length < inboxCapacity) : Sees p host event (host.push command)
  | act {inner : HostEvent} {host' : Host} (hAct : host.act inner = some host') :
      Sees p host (.host p inner) host'
  | load {last : Bool} (hPhase : host.phase = .signalling last) :
      Sees p host (.signal p) { host with phase := .notifying last }
  | pass {last : Bool} (hPhase : host.phase = .signalling last) :
      Sees p host (.signal p)
        { host with phase := .resume last, signalled := host.history.next }
  | pulse {last : Bool} (hPhase : host.phase = .notifying last) :
      Sees p host (.notify p)
        { host with phase := .resume last, signalled := host.history.next }

end Host

namespace Hub

variable {s s' : Hub} {p : Nat} {host : Host} {event : HubEvent}

/-- What a task does to the partitions: nothing, or it puts a command into an inbox that has
room. -/
def Posts (s s' : Hub) : Prop :=
  s'.hosts = s.hosts ∨ ∃ (q : Nat) (host : Host) (command : PartitionCommand),
    s.hosts[q]? = some host ∧ host.accepts = true ∧ host.inbox.length < inboxCapacity ∧
      s'.hosts = s.hosts.set q (host.push command)

theorem posts_enqueue {q : Nat} {host : Host} {command : PartitionCommand} {s₁ : Hub}
    (hq : s.hosts[q]? = some host) (hAccepts : host.accepts = true)
    (hSend : s.enqueue q host command = some s₁) (hHosts : s'.hosts = s₁.hosts) :
    s.Posts s' := by
  simp only [enqueue, Option.bind_eq_bind, Option.bind_eq_some_iff, Option.guard_eq_some',
    Option.pure_def, Option.some.injEq] at hSend
  obtain ⟨_, hRoom, rfl⟩ := hSend
  exact Or.inr ⟨q, host, command, hq, hAccepts, hRoom, hHosts⟩

theorem readerStep_posts {c : Nat} {r : Reader} {inner : ReaderEvent}
    (h : s.readerStep c r inner = some s') : s.Posts s' := by
  cases inner with
  | ask =>
    rw [readerStep] at h
    split at h
    · dsimp only at h
      obtain ⟨host, hHost, hRest⟩ := Option.bind_eq_some_iff.mp h
      split at hRest
      · next hAccepts =>
        obtain ⟨s₁, hSend, hEq⟩ := Option.bind_eq_some_iff.mp hRest
        cases hEq
        exact posts_enqueue hHost hAccepts hSend rfl
      · cases hRest
        exact Or.inl rfl
    · cases h
  | receive =>
    rw [readerStep] at h
    split at h
    · dsimp only at h
      obtain ⟨host, -, hRest⟩ := Option.bind_eq_some_iff.mp h
      left
      split at hRest
      · cases hRest
        rfl
      · cases hRest
        rfl
      · cases hRest
        rfl
      · obtain ⟨_, -, hEq⟩ := Option.bind_eq_some_iff.mp hRest
        cases hEq
        rfl
    · cases h
  | unmark =>
    rw [readerStep] at h
    split at h
    · cases h
      exact Or.inl rfl
    · cases h
  | _ =>
    simp only [readerStep, Option.bind_eq_bind, Option.bind_eq_some_iff, Option.guard_eq_some',
      Option.pure_def, Option.some.injEq] at h
    obtain ⟨_, -, rfl⟩ := h
    exact Or.inl rfl

theorem callStep_posts {k : Nat} {call : SendCall} {inner : CallEvent}
    (h : s.callStep k call inner = some s') : s.Posts s' := by
  cases inner with
  | issue =>
    rw [callStep] at h
    split at h
    · split at h
      · cases h
        exact Or.inl rfl
      · obtain ⟨host, hHost, hRest⟩ := Option.bind_eq_some_iff.mp h
        split at hRest
        · next hAccepts =>
          obtain ⟨s₁, hSend, hEq⟩ := Option.bind_eq_some_iff.mp hRest
          cases hEq
          exact posts_enqueue hHost hAccepts hSend rfl
        · cases hRest
          exact Or.inl rfl
    · cases h
  | settle =>
    rw [callStep] at h
    split at h
    · obtain ⟨host, -, hRest⟩ := Option.bind_eq_some_iff.mp h
      left
      split at hRest
      · cases hRest
        rfl
      · cases hRest
        rfl
      · cases hRest
      · cases hRest
        rfl
      · obtain ⟨_, -, hEq⟩ := Option.bind_eq_some_iff.mp hRest
        cases hEq
        rfl
    · cases h
  | abandon =>
    rw [callStep] at h
    split at h
    · cases h
      exact Or.inl rfl
    · cases h

theorem Posts.sees (h : s.Posts s') (hHost : s.hosts[p]? = some host)
    (hNotHost : ∀ inner, event ≠ .host p inner) (hNotSignal : event ≠ .signal p)
    (hNotNotify : event ≠ .notify p) :
    ∃ host', s'.hosts[p]? = some host' ∧ host.Sees p event host' := by
  rcases h with hSame | ⟨q, host₀, command, hq, hAccepts, hRoom, hSet⟩
  · exact ⟨host, by rw [hSame, hHost], .same hNotHost hNotSignal hNotNotify⟩
  · rw [hSet]
    by_cases hEq : q = p
    · subst hEq
      obtain rfl : host₀ = host := Option.some.inj (hq.symm.trans hHost)
      exact ⟨_, List.getElem?_set_self (List.getElem?_eq_some_iff.mp hq).1,
        .push hNotHost hNotSignal hNotNotify hAccepts hRoom⟩
    · exact ⟨host, by rw [List.getElem?_set_ne hEq, hHost], .same hNotHost hNotSignal hNotNotify⟩

/-- An event inside of one partition. -/
theorem sees_of_set {q : Nat} {host₀ host₁ : Host} (hHosts : s'.hosts = s.hosts.set q host₁)
    (hq : s.hosts[q]? = some host₀) (hOwn : q = p → host₀.Sees p event host₁)
    (hOther : q ≠ p → host.Sees p event host) (hHost : s.hosts[p]? = some host) :
    ∃ host', s'.hosts[p]? = some host' ∧ host.Sees p event host' := by
  rw [hHosts]
  by_cases hEq : q = p
  · have hSees := hOwn hEq
    subst hEq
    obtain rfl : host₀ = host := Option.some.inj (hq.symm.trans hHost)
    exact ⟨_, List.getElem?_set_self (List.getElem?_eq_some_iff.mp hq).1, hSees⟩
  · exact ⟨host, by rw [List.getElem?_set_ne hEq, hHost], hOther hEq⟩

/-- Every event, seen from a partition. -/
theorem step_sees (h : s.step event = some s') (hHost : s.hosts[p]? = some host) :
    ∃ host', s'.hosts[p]? = some host' ∧ host.Sees p event host' := by
  have hQuiet : ∀ s'' : Hub, s''.hosts = s.hosts → s.Posts s'' := fun _ hEq => Or.inl hEq
  cases event with
  | join cursors =>
    obtain ⟨-, rfl⟩ := join_cases h
    exact (hQuiet _ rfl).sees hHost (by simp) (by simp) (by simp)
  | reader c inner =>
    obtain ⟨r, -, hStep⟩ := Option.bind_eq_some_iff.mp h
    exact (readerStep_posts hStep).sees hHost (by simp) (by simp) (by simp)
  | call k inner =>
    obtain ⟨call, -, hStep⟩ := Option.bind_eq_some_iff.mp h
    exact (callStep_posts hStep).sees hHost (by simp) (by simp) (by simp)
  | command q command =>
    simp only [step, Option.bind_eq_bind, Option.bind_eq_some_iff, Option.guard_eq_some'] at h
    obtain ⟨host₀, hq, _, ⟨hAccepts, -⟩, hSend⟩ := h
    exact (posts_enqueue hq hAccepts hSend rfl).sees hHost (by simp) (by simp) (by simp)
  | host q inner =>
    obtain ⟨host₀, host₁, hq, hAct, rfl⟩ := host_cases h
    refine sees_of_set rfl hq ?_ ?_ hHost
    · intro hEq
      rw [hEq]
      exact .act hAct
    · intro hNe
      exact .same (fun inner' hEq => hNe (HubEvent.host.inj hEq).1) (by simp) (by simp)
  | signal q =>
    have hOther : q ≠ p → host.Sees p (.signal q) host := fun hNe =>
      .same (by simp) (fun hEq => hNe (HubEvent.signal.inj hEq)) (by simp)
    obtain ⟨host₀, last, hq, hPhase, ⟨-, rfl⟩ | ⟨-, rfl⟩⟩ := signal_cases h
    · refine sees_of_set rfl hq (fun hEq => ?_) hOther hHost
      rw [hEq]
      exact .load hPhase
    · refine sees_of_set rfl hq (fun hEq => ?_) hOther hHost
      rw [hEq]
      exact .pass hPhase
  | notify q =>
    obtain ⟨host₀, last, hq, hPhase, rfl⟩ := notify_cases h
    refine sees_of_set rfl hq (fun hEq => ?_) (fun hNe => ?_) hHost
    · rw [hEq]
      exact .pulse hPhase
    · exact .same (by simp) (by simp) (fun hEq => hNe (HubEvent.notify.inj hEq))
  | _ =>
    cases h
    exact (hQuiet _ rfl).sees hHost (by simp) (by simp) (by simp)

end Hub

/-! ## Answers keep coming -/

namespace History

variable {h : History Record} {command : PartitionCommand} {reply : Nat}

/-- Every command with a reply channel is answered. -/
theorem respond_replies (fault : Option KafkoError) (hChannel : command.channel = some reply) :
    ∃ result, (reply, result) ∈ (h.respond fault command).1 := by
  have hServe : ∃ result, (reply, result) ∈ (h.serve none command).1 := by
    have hOp : command.op.isSome := by
      cases command with
      | poison => cases hChannel
      | failNextAppend kind => cases hChannel
      | _ => rfl
    obtain ⟨t, result, hSame, hAnswer⟩ := serve_channel none h hOp
    obtain rfl : t = reply := Option.some.inj (hSame.symm.trans hChannel)
    exact ⟨result, by rw [hAnswer]; exact List.mem_singleton.mpr rfl⟩
  unfold respond
  split
  · next e t hSome =>
    obtain rfl : t = reply := Option.some.inj (hSome.symm.trans hChannel)
    exact ⟨_, List.mem_singleton.mpr rfl⟩
  · exact hServe

theorem respondAll_replies {faults : List (Option KafkoError)} {commands : List PartitionCommand}
    (hLen : commands.length ≤ faults.length) (hMem : command ∈ commands)
    (hChannel : command.channel = some reply) :
    ∃ result, (reply, result) ∈ (h.respondAll faults commands).1 := by
  induction commands generalizing h faults with
  | nil => cases hMem
  | cons first commands ih =>
    cases faults with
    | nil => cases hLen
    | cons fault faults =>
      rw [respondAll]
      rcases List.mem_cons.mp hMem with rfl | hLater
      · obtain ⟨result, hAnswer⟩ := h.respond_replies fault hChannel
        exact ⟨result, List.mem_append_left _ hAnswer⟩
      · obtain ⟨result, hAnswer⟩ :=
          ih (h := (h.respond fault first).2) (Nat.le_of_succ_le_succ hLen) hLater
        exact ⟨result, List.mem_append_right _ hAnswer⟩

end History

namespace Host

variable {host host' : Host} {p reply : Nat} {event : HubEvent} {heads : List PartitionCommand}

/-- What the inbox of a writer has to do with its phase. -/
structure Sound (host : Host) : Prop where
  room : host.inbox.length ≤ inboxCapacity
  last : host.phase = .signalling true ∨ host.phase = .notifying true →
    host.closed = true ∧ host.inbox = []
  ended : host.phase = .ended → host.inbox = []

theorem Sound.start (history : History Record) : (start history).Sound :=
  ⟨Nat.zero_le _, (fun hLast => by rcases hLast with hLast | hLast <;> cases hLast), fun _ => rfl⟩

theorem not_accepts_of_closed (hClosed : host.closed = true) : host.accepts = false := by
  rw [accepts, hClosed]
  rfl

/-- The end of a pulse. -/
theorem Sound.resume (h : host.Sound) {last : Bool}
    (hPhase : host.phase = .signalling last ∨ host.phase = .notifying last) :
    { host with phase := .resume last, signalled := host.history.next }.Sound := by
  refine ⟨h.room, ?_, ?_⟩
  · intro hLast
    cases last <;> rcases hLast with hLast | hLast <;> cases hLast
  · intro hEnded
    cases last with
    | false => cases hEnded
    | true => exact (h.last hPhase).2

theorem Sound.act (h : host.Sound) {inner : HostEvent} (hAct : host.act inner = some host') :
    host'.Sound := by
  cases inner with
  | turn faults =>
    simp only [Host.act, Option.bind_eq_bind, Option.bind_eq_some_iff, Option.guard_eq_some',
      Option.pure_def, Option.some.injEq] at hAct
    obtain ⟨_, -, rfl⟩ := hAct
    refine ⟨?_, ?_, ?_⟩
    · change (host.inbox.drop faults.length).length ≤ inboxCapacity
      rw [List.length_drop]
      exact (Nat.sub_le _ _).trans h.room
    · intro hLast
      rcases hLast with hLast | hLast <;> cases hLast
    · intro hEnded
      cases hEnded
  | panic faults message =>
    simp only [Host.act, Option.bind_eq_bind, Option.bind_eq_some_iff, Option.guard_eq_some',
      Option.pure_def, Option.some.injEq] at hAct
    obtain ⟨_, -, rfl⟩ := hAct
    exact ⟨Nat.zero_le _, (fun hLast => by rcases hLast with hLast | hLast <;> cases hLast),
      fun _ => rfl⟩
  | retention oldest =>
    simp only [Host.act, Option.bind_eq_bind, Option.bind_eq_some_iff, Option.guard_eq_some',
      Option.pure_def, Option.some.injEq] at hAct
    obtain ⟨_, -, rfl⟩ := hAct
    exact ⟨h.room, h.last, h.ended⟩
  | close =>
    cases hAct
    exact ⟨h.room, fun hLast => ⟨rfl, (h.last hLast).2⟩, h.ended⟩
  | finish =>
    simp only [Host.act, Option.bind_eq_bind, Option.bind_eq_some_iff, Option.guard_eq_some',
      Option.pure_def, Option.some.injEq] at hAct
    obtain ⟨_, ⟨-, hClosed, hInbox⟩, rfl⟩ := hAct
    exact ⟨h.room, fun _ => ⟨hClosed, hInbox⟩, fun _ => hInbox⟩

theorem Sound.sees (h : host.Sound) (hSees : host.Sees p event host') : host'.Sound := by
  cases hSees with
  | same => exact h
  | @push _ command hHost hSignal hNotify hAccepts hRoom =>
    refine ⟨?_, ?_, ?_⟩
    · rw [push, List.length_append, List.length_singleton]
      exact hRoom
    · intro hLast
      rw [not_accepts_of_closed (h.last hLast).1] at hAccepts
      cases hAccepts
    · intro hEnded
      change host.phase = .ended at hEnded
      simp [accepts, hEnded] at hAccepts
  | act hAct => exact h.act hAct
  | @load last hPhase =>
    refine ⟨h.room, ?_, fun hEnded => by cases hEnded⟩
    intro hLast
    rcases hLast with hLast | hLast
    · cases hLast
    · cases hLast
      exact h.last (Or.inl hPhase)
  | pass hPhase => exact h.resume (Or.inl hPhase)
  | pulse hPhase => exact h.resume (Or.inr hPhase)

/-- A writer with commands in its inbox has not begun its last pulse. -/
theorem Sound.phase_of_inbox (h : host.Sound) (hInbox : host.inbox ≠ []) :
    host.phase = .serving ∨ host.phase = .signalling false ∨ host.phase = .notifying false := by
  cases hPhase : host.phase with
  | serving => exact Or.inl rfl
  | signalling last =>
    cases last with
    | false => exact Or.inr (Or.inl rfl)
    | true => exact absurd (h.last (Or.inl hPhase)).2 hInbox
  | notifying last =>
    cases last with
    | false => exact Or.inr (Or.inr rfl)
    | true => exact absurd (h.last (Or.inr hPhase)).2 hInbox
  | ended => exact absurd (h.ended hPhase) hInbox

/-- As long as the writer takes nothing from it the front of its inbox stays, and only its own
pulse changes its phase. -/
theorem Sees.front (hSees : host.Sees p event host') (hNe : heads ≠ [])
    (hFront : heads <+: host.inbox) (hNot : ¬ event.Recv p) : heads <+: host'.inbox ∧
      ((host'.phase = host.phase ∧ event ≠ .signal p ∧ event ≠ .notify p) ∨
        (event = .signal p ∧ ∃ last, host.phase = .signalling last ∧
          (host'.phase = .notifying last ∨ host'.phase = .resume last)) ∨
        event = .notify p ∧ ∃ last, host.phase = .notifying last ∧ host'.phase = .resume last) := by
  have hInbox : host.inbox ≠ [] := by
    intro hNil
    rw [hNil] at hFront
    exact hNe (List.prefix_nil.mp hFront)
  cases hSees with
  | same _ hSignal hNotify => exact ⟨hFront, Or.inl ⟨rfl, hSignal, hNotify⟩⟩
  | push _ hSignal hNotify =>
    exact ⟨hFront.trans (List.prefix_append _ _), Or.inl ⟨rfl, hSignal, hNotify⟩⟩
  | @act inner _ hAct =>
    cases inner with
    | turn faults => exact absurd (.turn faults) hNot
    | panic faults message => exact absurd (.panic faults message) hNot
    | retention oldest =>
      simp only [Host.act, Option.bind_eq_bind, Option.bind_eq_some_iff, Option.guard_eq_some',
        Option.pure_def, Option.some.injEq] at hAct
      obtain ⟨_, -, rfl⟩ := hAct
      exact ⟨hFront, Or.inl ⟨rfl, by simp, by simp⟩⟩
    | close =>
      cases hAct
      exact ⟨hFront, Or.inl ⟨rfl, by simp, by simp⟩⟩
    | finish =>
      simp only [Host.act, Option.bind_eq_bind, Option.bind_eq_some_iff, Option.guard_eq_some',
        Option.pure_def, Option.some.injEq] at hAct
      obtain ⟨_, ⟨-, -, hNil⟩, -⟩ := hAct
      exact absurd hNil hInbox
  | load hPhase => exact ⟨hFront, Or.inr (Or.inl ⟨rfl, _, hPhase, Or.inl rfl⟩)⟩
  | pass hPhase => exact ⟨hFront, Or.inr (Or.inl ⟨rfl, _, hPhase, Or.inr rfl⟩)⟩
  | pulse hPhase => exact ⟨hFront, Or.inr (Or.inr ⟨rfl, _, hPhase, rfl⟩)⟩

/-- Something has arrived in the reply channel, or nothing more will. -/
def Settles (host : Host) (reply : Nat) : Prop :=
  (∃ result, (reply, result) ∈ host.sent) ∨ host.phase = .ended

theorem Sees.ended (hSees : host.Sees p event host') (h : host.phase = .ended) :
    host'.phase = .ended := by
  have hNot : ∀ phase, phase ≠ .ended → host.phase ≠ phase := by
    intro phase hNe hEq
    exact hNe (hEq.symm.trans h)
  cases hSees with
  | @act inner _ hAct =>
    cases act_cases hAct with
    | turn faults hPhase => exact absurd hPhase (hNot _ (by simp))
    | panic => rfl
    | finish hPhase => exact absurd hPhase (hNot _ (by simp))
    | _ => exact h
  | load hPhase => exact absurd hPhase (hNot _ (by simp))
  | pass hPhase => exact absurd hPhase (hNot _ (by simp))
  | pulse hPhase => exact absurd hPhase (hNot _ (by simp))
  | _ => exact h

theorem Sees.sent (hSees : host.Sees p event host') : ∀ e ∈ host.sent, e ∈ host'.sent := by
  intro e he
  cases hSees with
  | @act inner _ hAct =>
    cases act_cases hAct with
    | turn => exact List.mem_append_left _ he
    | panic => exact List.mem_append_left _ he
    | _ => exact he
  | _ => exact he

theorem Settles.sees (h : host.Settles reply) (hSees : host.Sees p event host') :
    host'.Settles reply := by
  rcases h with ⟨result, hTold⟩ | hEnded
  · exact Or.inl ⟨result, hSees.sent _ hTold⟩
  · exact Or.inr (hSees.ended hEnded)

theorem faults_pos {faults : List (Option KafkoError)}
    (hWake : Wakeable (host.inbox.take faults.length)) : 0 < faults.length := by
  rcases Nat.eq_zero_or_pos faults.length with hZero | hPos
  · rw [hZero, List.take_zero] at hWake
    exact absurd rfl hWake.1
  · exact hPos

theorem front_of_mem {command : PartitionCommand} (hMem : command ∈ host.inbox) :
    ∃ before, before ++ [command] <+: host.inbox := by
  obtain ⟨before, after, hSplit⟩ := List.append_of_mem hMem
  refine ⟨before, after, ?_⟩
  rw [hSplit, List.append_assoc]
  rfl

theorem mem_of_front {before : List PartitionCommand} {command : PartitionCommand}
    (hFront : before ++ [command] <+: host.inbox) : command ∈ host.inbox :=
  hFront.subset (List.mem_append_right _ (List.mem_singleton.mpr rfl))

/-- A wake-up answers the command behind `before`, or brings it forward. -/
theorem Sees.recv (hSees : host.Sees p event host') (hRecv : event.Recv p)
    {before : List PartitionCommand} {command : PartitionCommand}
    (hFront : before ++ [command] <+: host.inbox) (hChannel : command.channel = some reply) :
    host'.Settles reply ∨ ∃ before', before'.length < before.length ∧
      before' ++ [command] <+: host'.inbox := by
  cases hRecv with
  | panic faults message =>
    cases hSees with
    | same hHost => exact absurd rfl (hHost _)
    | push hHost => exact absurd rfl (hHost _)
    | act hAct =>
      have hActs := act_cases hAct
      simp only [Host.act, Option.bind_eq_bind, Option.bind_eq_some_iff, Option.guard_eq_some',
        Option.pure_def, Option.some.injEq] at hAct
      obtain ⟨_, -, rfl⟩ := hAct
      exact Or.inl (Or.inr rfl)
  | turn faults =>
    cases hSees with
    | same hHost => exact absurd rfl (hHost _)
    | push hHost => exact absurd rfl (hHost _)
    | act hAct =>
      simp only [Host.act, Option.bind_eq_bind, Option.bind_eq_some_iff, Option.guard_eq_some',
        Option.pure_def, Option.some.injEq] at hAct
      obtain ⟨_, ⟨-, hLen, hWake⟩, rfl⟩ := hAct
      have hPos := faults_pos hWake
      obtain ⟨after, hInbox⟩ := hFront
      by_cases hTaken : before.length < faults.length
      · left
        left
        have hMem : command ∈ host.inbox.take faults.length := by
          rw [← hInbox, List.append_assoc, List.take_append]
          apply List.mem_append_right
          obtain ⟨k, hk⟩ := Nat.exists_eq_add_of_lt hTaken
          rw [show faults.length - before.length = k + 1 by omega]
          exact List.mem_cons_self
        have hShort : (host.inbox.take faults.length).length ≤ faults.length := by
          rw [List.length_take]
          exact Nat.min_le_left _ _
        obtain ⟨result, hAnswer⟩ := History.respondAll_replies (h := host.history) hShort hMem hChannel
        exact ⟨result, List.mem_append_right _ hAnswer⟩
      · right
        refine ⟨before.drop faults.length, ?_, after, ?_⟩
        · rw [List.length_drop]
          omega
        · change _ = host.inbox.drop faults.length
          rw [← hInbox, List.append_assoc, List.append_assoc,
            List.drop_append_of_le_length (Nat.le_of_not_lt hTaken)]

/-- After a wake-up the inbox has room. -/
theorem Sees.room (hSees : host.Sees p event host') (hSound : host.Sound) (hRecv : event.Recv p)
    (hAccepts : host'.accepts = true) : host'.inbox.length < inboxCapacity := by
  have hRoom := hSound.room
  cases hRecv with
  | panic faults message =>
    cases hSees with
    | same hHost => exact absurd rfl (hHost _)
    | push hHost => exact absurd rfl (hHost _)
    | act hAct =>
      simp only [Host.act, Option.bind_eq_bind, Option.bind_eq_some_iff, Option.guard_eq_some',
        Option.pure_def, Option.some.injEq] at hAct
      obtain ⟨_, -, rfl⟩ := hAct
      simp [accepts] at hAccepts
  | turn faults =>
    cases hSees with
    | same hHost => exact absurd rfl (hHost _)
    | push hHost => exact absurd rfl (hHost _)
    | act hAct =>
      simp only [Host.act, Option.bind_eq_bind, Option.bind_eq_some_iff, Option.guard_eq_some',
        Option.pure_def, Option.some.injEq] at hAct
      obtain ⟨_, ⟨-, hLen, hWake⟩, rfl⟩ := hAct
      have hPos := faults_pos hWake
      change (host.inbox.drop faults.length).length < inboxCapacity
      rw [List.length_drop]
      omega

end Host

/-! ## Fair writers -/

namespace Hub

variable {histories : List (History Record)} {e : Execution (courses histories)} {s s' : Hub}
  {p reply : Nat} {event : HubEvent} {heads : List PartitionCommand} {stage : WriterPhase}

def Sound (s : Hub) : Prop := ∀ (p : Nat) (host : Host), s.hosts[p]? = some host → host.Sound

theorem Sound.step (h : s.Sound) (hStep : s.step event = some s') : s'.Sound := by
  intro p host' hHost'
  have hLt : p < s.hosts.length := by
    rw [← (step_cases hStep).hosts_length]
    exact (List.getElem?_eq_some_iff.mp hHost').1
  obtain ⟨host₁, hHost₁, hSees⟩ := step_sees hStep (List.getElem?_eq_getElem hLt)
  obtain rfl : host₁ = host' := Option.some.inj (hHost₁.symm.trans hHost')
  exact (h p _ (List.getElem?_eq_getElem hLt)).sees hSees

theorem sound_at (e : Execution (courses histories)) (t : Nat) : (e.state t).Sound := by
  refine Execution.always (e := e) (fun _ _ _ h hStep => h.step hStep) ?_ (Nat.zero_le t)
  rw [show e.state 0 = start histories from e.starts]
  intro p host hHost
  obtain ⟨history, -, rfl⟩ := List.mem_map.mp (List.mem_of_getElem? hHost)
  exact .start history

theorem delivering_at (e : Execution (courses histories)) (t : Nat) : (e.state t).Delivering := by
  refine Execution.always (e := e) (fun _ _ _ h hStep => h.steps (step_cases hStep)) ?_
    (Nat.zero_le t)
  rw [show e.state 0 = start histories from e.starts]
  exact delivering_start histories

/-- A partition at the next moment. -/
theorem host_next (e : Execution (courses histories)) {t : Nat} {host : Host}
    (hHost : (e.state t).hosts[p]? = some host) :
    e.label t = none ∧ (e.state (t + 1)).hosts[p]? = some host ∨
      ∃ event host', e.label t = some event ∧ (e.state (t + 1)).hosts[p]? = some host' ∧
        host.Sees p event host' := by
  rcases e.next t with ⟨hLabel, hState⟩ | ⟨event, hLabel, hStep⟩
  · exact Or.inl ⟨hLabel, by rw [hState, hHost]⟩
  · obtain ⟨host', hHost', hSees⟩ := step_sees hStep hHost
    exact Or.inr ⟨event, host', hLabel, hHost', hSees⟩

/-- The inbox begins with these commands. -/
def Fronts (s : Hub) (p : Nat) (heads : List PartitionCommand) : Prop :=
  ∃ host, s.hosts[p]? = some host ∧ heads <+: host.inbox

def FrontsIn (s : Hub) (p : Nat) (heads : List PartitionCommand) (stage : WriterPhase) : Prop :=
  ∃ host, s.hosts[p]? = some host ∧ heads <+: host.inbox ∧ host.phase = stage

theorem FrontsIn.fronts (h : s.FrontsIn p heads stage) : s.Fronts p heads := by
  obtain ⟨host, hHost, hFront, -⟩ := h
  exact ⟨host, hHost, hFront⟩

theorem Fronts.phase (h : s.Fronts p heads) (hSound : s.Sound) (hNe : heads ≠ []) :
    s.FrontsIn p heads .serving ∨ s.FrontsIn p heads (.signalling false) ∨
      s.FrontsIn p heads (.notifying false) := by
  obtain ⟨host, hHost, hFront⟩ := h
  have hInbox : host.inbox ≠ [] := by
    intro hNil
    rw [hNil] at hFront
    exact hNe (List.prefix_nil.mp hFront)
  rcases (hSound p host hHost).phase_of_inbox hInbox with hPhase | hPhase | hPhase
  · exact Or.inl ⟨host, hHost, hFront, hPhase⟩
  · exact Or.inr (Or.inl ⟨host, hHost, hFront, hPhase⟩)
  · exact Or.inr (Or.inr ⟨host, hHost, hFront, hPhase⟩)

/-- What becomes of a partition whose writer takes nothing from the inbox. -/
theorem FrontsIn.next {t : Nat} (h : (e.state t).FrontsIn p heads stage) (hNe : heads ≠ [])
    (hNot : ¬ e.Occurs (HubEvent.Recv p) t) :
    ((e.state (t + 1)).FrontsIn p heads stage ∧ e.label t ≠ some (.signal p) ∧
        e.label t ≠ some (.notify p)) ∨
      (e.label t = some (.signal p) ∧ ∃ last, stage = .signalling last ∧
        ((e.state (t + 1)).FrontsIn p heads (.notifying last) ∨
          (e.state (t + 1)).FrontsIn p heads (.resume last))) ∨
      e.label t = some (.notify p) ∧ ∃ last, stage = .notifying last ∧
        (e.state (t + 1)).FrontsIn p heads (.resume last) := by
  obtain ⟨host, hHost, hFront, hPhase⟩ := h
  rcases host_next e hHost with ⟨hLabel, hHost'⟩ | ⟨event, host', hLabel, hHost', hSees⟩
  · exact Or.inl ⟨⟨host, hHost', hFront, hPhase⟩, by simp [hLabel], by simp [hLabel]⟩
  · have hOther : ¬ event.Recv p := fun hRecv => hNot ⟨event, hRecv, hLabel⟩
    obtain ⟨hFront', ⟨hSame, hNo, hNo'⟩ | ⟨rfl, last, hLast, hAfter⟩ | ⟨rfl, last, hLast, hAfter⟩⟩ :=
      hSees.front hNe hFront hOther
    · exact Or.inl ⟨⟨host', hHost', hFront', hSame.trans hPhase⟩, by simpa [hLabel] using hNo,
        by simpa [hLabel] using hNo'⟩
    · refine Or.inr (Or.inl ⟨hLabel, last, hPhase.symm.trans hLast, ?_⟩)
      rcases hAfter with hAfter | hAfter
      · exact Or.inl ⟨host', hHost', hFront', hAfter⟩
      · exact Or.inr ⟨host', hHost', hFront', hAfter⟩
    · exact Or.inr (Or.inr ⟨hLabel, last, hPhase.symm.trans hLast, host', hHost', hFront', hAfter⟩)

theorem enabled_of_step (event : HubEvent) {A : HubEvent → Prop} (hA : A event)
    (hStep : (s.step event).isSome) :
    (courses histories).Enabled A s := by
  obtain ⟨s', hStep⟩ := Option.isSome_iff_exists.mp hStep
  exact ⟨event, s', hA, hStep⟩

theorem enabled_signal {host : Host} {last : Bool} (hHost : s.hosts[p]? = some host)
    (hPhase : host.phase = .signalling last) :
    (courses histories).Enabled (fun event => event = .signal p) s := by
  refine enabled_of_step (.signal p) rfl ?_
  by_cases hParked : 0 < s.parked <;> simp [step, hHost, hPhase, hParked]

theorem enabled_notify {host : Host} {last : Bool} (hHost : s.hosts[p]? = some host)
    (hPhase : host.phase = .notifying last) :
    (courses histories).Enabled (fun event => event = .notify p) s := by
  refine enabled_of_step (.notify p) rfl ?_
  simp [step, hHost, hPhase]

theorem enabled_host {host : Host} (inner : HostEvent) {A : HubEvent → Prop}
    (hA : A (.host p inner)) (hHost : s.hosts[p]? = some host) (hAct : (host.act inner).isSome) :
    (courses histories).Enabled A s := by
  apply enabled_of_step (.host p inner) hA
  obtain ⟨host', hAct⟩ := Option.isSome_iff_exists.mp hAct
  simp [step, hHost, hAct]

theorem enabled_recv {host : Host} (hHost : s.hosts[p]? = some host) (hPhase : host.phase = .serving)
    (hInbox : host.inbox ≠ []) : (courses histories).Enabled (HubEvent.Recv p) s := by
  obtain ⟨command, rest, hCons⟩ := List.exists_cons_of_ne_nil hInbox
  by_cases hPoison : command = .poison
  · apply enabled_host _ (.panic [] "") hHost
    simp [Host.act, guard, hPhase, hCons]
  · apply enabled_host _ (.turn [none]) hHost
    simp [Host.act, guard, hPhase, hCons, PartitionWriter.wakeable_alone hPoison]

/-- A writer with a nonempty inbox comes round to taking something from it. -/
theorem recv_of_fronts (hWriters : FairWriters e) (hNe : heads ≠ []) :
    Leads (fun t => (e.state t).Fronts p heads)
      fun t => (e.state t).Fronts p heads ∧ e.Occurs (HubEvent.Recv p) t := by
  have hServing : Leads (fun t => (e.state t).FrontsIn p heads .serving)
      fun t => (e.state t).Fronts p heads ∧ e.Occurs (HubEvent.Recv p) t := by
    refine (Execution.weak_occurs (hWriters.recv p) (fun _ h => h) ?_ ?_).weaken
      fun t h => ⟨h.1.fronts, h.2⟩
    · intro t hIn hNot
      rcases hIn.next hNe hNot with ⟨hSame, -, -⟩ | ⟨-, last, hLast, -⟩ | ⟨-, last, hLast, -⟩
      · exact hSame
      · cases hLast
      · cases hLast
    · intro t hIn
      obtain ⟨host, hHost, hFront, hPhase⟩ := hIn
      refine enabled_recv hHost hPhase fun hNil => ?_
      rw [hNil] at hFront
      exact hNe (List.prefix_nil.mp hFront)
  have hNotifying : Leads (fun t => (e.state t).FrontsIn p heads (.notifying false))
      fun t => (e.state t).Fronts p heads ∧ e.Occurs (HubEvent.Recv p) t := by
    have hPulse := Execution.weak_leads (D := e.Occurs (HubEvent.Recv p))
      (P := fun t => (e.state t).FrontsIn p heads (.notifying false))
      (R := fun t => (e.state t).FrontsIn p heads .serving) (hWriters.notify p) ?_ ?_
    · intro t hIn
      obtain ⟨u, hu, hEnd⟩ := hPulse t hIn
      rcases hEnd with ⟨hNow, hRecv⟩ | hAfter
      · exact ⟨u, hu, hNow.fronts, hRecv⟩
      · obtain ⟨v, hv, hEnd⟩ := hServing u hAfter
        exact ⟨v, hu.trans hv, hEnd⟩
    · intro t hIn
      obtain ⟨host, hHost, -, hPhase⟩ := hIn
      exact enabled_notify hHost hPhase
    · intro t hIn hNot
      rcases hIn.next hNe hNot with ⟨hSame, -, hNo⟩ | ⟨-, last, hLast, -⟩ | ⟨-, last, hLast, hAfter⟩
      · left
        refine ⟨hSame, fun hNow => ?_⟩
        obtain ⟨_, rfl, hLabel⟩ := hNow
        exact hNo hLabel
      · cases hLast
      · cases hLast
        exact Or.inr hAfter
  have hSignalling : Leads (fun t => (e.state t).FrontsIn p heads (.signalling false))
      fun t => (e.state t).Fronts p heads ∧ e.Occurs (HubEvent.Recv p) t := by
    have hPulse := Execution.weak_leads (D := e.Occurs (HubEvent.Recv p))
      (P := fun t => (e.state t).FrontsIn p heads (.signalling false))
      (R := fun t => (e.state t).FrontsIn p heads (.notifying false) ∨
        (e.state t).FrontsIn p heads .serving) (hWriters.signal p) ?_ ?_
    · intro t hIn
      obtain ⟨u, hu, hEnd⟩ := hPulse t hIn
      rcases hEnd with ⟨hNow, hRecv⟩ | hAfter | hAfter
      · exact ⟨u, hu, hNow.fronts, hRecv⟩
      · obtain ⟨v, hv, hEnd⟩ := hNotifying u hAfter
        exact ⟨v, hu.trans hv, hEnd⟩
      · obtain ⟨v, hv, hEnd⟩ := hServing u hAfter
        exact ⟨v, hu.trans hv, hEnd⟩
    · intro t hIn
      obtain ⟨host, hHost, -, hPhase⟩ := hIn
      exact enabled_signal hHost hPhase
    · intro t hIn hNot
      rcases hIn.next hNe hNot with ⟨hSame, hNo, -⟩ | ⟨-, last, hLast, hAfter⟩ | ⟨-, last, hLast, -⟩
      · left
        refine ⟨hSame, fun hNow => ?_⟩
        obtain ⟨_, rfl, hLabel⟩ := hNow
        exact hNo hLabel
      · cases hLast
        exact Or.inr hAfter
      · cases hLast
  intro t hFronts
  rcases hFronts.phase (sound_at e t) hNe with hIn | hIn | hIn
  · exact hServing t hIn
  · exact hSignalling t hIn
  · exact hNotifying t hIn

/-- The writer of this partition has answered, or is gone. -/
def Settles (s : Hub) (p reply : Nat) : Prop :=
  ∃ host, s.hosts[p]? = some host ∧ host.Settles reply

theorem Settles.later {t u : Nat} (h : (e.state t).Settles p reply) (hLe : t ≤ u) :
    (e.state u).Settles p reply := by
  refine Execution.always (e := e) (I := fun s => s.Settles p reply) ?_ h hLe
  intro s event s' hSettles hStep
  obtain ⟨host, hHost, hSettled⟩ := hSettles
  obtain ⟨host', hHost', hSees⟩ := step_sees hStep hHost
  exact ⟨host', hHost', hSettled.sees hSees⟩

/-- A command in an inbox is answered sooner or later, unless the writer ends. -/
theorem settles_of_inbox (hWriters : FairWriters e) {command : PartitionCommand}
    (hChannel : command.channel = some reply) :
    Leads (fun t => ∃ host, (e.state t).hosts[p]? = some host ∧ command ∈ host.inbox)
      fun t => (e.state t).Settles p reply := by
  -- By induction on the number of commands before it.
  have hAll : ∀ (n t : Nat) (before : List PartitionCommand), before.length = n →
      (e.state t).Fronts p (before ++ [command]) → ∃ u, t ≤ u ∧ (e.state u).Settles p reply := by
    intro n
    induction n using Nat.strong_induction_on with
    | _ n ih =>
      intro t before hLen hFronts
      obtain ⟨u, hu, hNow, event, hRecv, hLabel⟩ :=
        recv_of_fronts hWriters (List.append_ne_nil_of_right_ne_nil before (by simp)) t hFronts
      obtain ⟨host, hHost, hFront⟩ := hNow
      rcases host_next e hHost with ⟨hNone, -⟩ | ⟨event', host', hLabel', hHost', hSees⟩
      · rw [hLabel] at hNone
        cases hNone
      · obtain rfl : event = event' := Option.some.inj (hLabel.symm.trans hLabel')
        rcases hSees.recv hRecv hFront hChannel with hSettles | ⟨before', hLess, hFront'⟩
        · exact ⟨u + 1, Nat.le_succ_of_le hu, host', hHost', hSettles⟩
        · obtain ⟨v, hv, hEnd⟩ := ih before'.length (hLen ▸ hLess) (u + 1) before' rfl
            ⟨host', hHost', hFront'⟩
          exact ⟨v, by omega, hEnd⟩
  intro t hIn
  obtain ⟨host, hHost, hMem⟩ := hIn
  obtain ⟨before, hFront⟩ := Host.front_of_mem hMem
  exact hAll before.length t before rfl ⟨host, hHost, hFront⟩

/-- An inbox has room again, unless its partition takes no more commands. -/
theorem room_of_full (hWriters : FairWriters e) {t : Nat} {host : Host}
    (hHost : (e.state t).hosts[p]? = some host) :
    ∃ u, t ≤ u ∧ ∃ host, (e.state u).hosts[p]? = some host ∧
      (host.accepts = true → host.inbox.length < inboxCapacity) := by
  by_cases hRoom : host.inbox.length < inboxCapacity
  · exact ⟨t, Nat.le_refl t, host, hHost, fun _ => hRoom⟩
  have hInbox : host.inbox ≠ [] := by
    intro hNil
    rw [hNil] at hRoom
    exact hRoom (by decide)
  obtain ⟨command, rest, hCons⟩ := List.exists_cons_of_ne_nil hInbox
  have hFronts : (e.state t).Fronts p [command] := ⟨host, hHost, rest, hCons.symm⟩
  obtain ⟨u, hu, ⟨host₁, hHost₁, -⟩, event, hRecv, hLabel⟩ :=
    recv_of_fronts hWriters (by simp) t hFronts
  rcases host_next e hHost₁ with ⟨hNone, -⟩ | ⟨event', host', hLabel', hHost', hSees⟩
  · rw [hLabel] at hNone
    cases hNone
  · obtain rfl : event = event' := Option.some.inj (hLabel.symm.trans hLabel')
    refine ⟨u + 1, Nat.le_succ_of_le hu, host', hHost', fun hAccepts => ?_⟩
    exact hSees.room (sound_at e u p host₁ hHost₁) hRecv hAccepts

/-! ## Fairness of given runs -/

theorem runs_of_run (events : List HubEvent) (hRun : s.run events = some s') :
    (courses histories).Runs s events s' := by
  induction events generalizing s with
  | nil =>
    cases hRun
    exact .refl _
  | cons event events ih =>
    obtain ⟨s₁, hFirst, hRest⟩ := Option.bind_eq_some_iff.mp hRun
    exact .step hFirst (ih hRest)

theorem run_of_runs {events : List HubEvent} (h : (courses histories).Runs s events s') :
    s.run events = some s' := by
  induction h with
  | refl s => rfl
  | step hStep _ ih => exact Option.bind_eq_some_iff.mpr ⟨_, hStep, ih⟩

/-- The state after the first events of an execution. -/
theorem state_eq {e : Execution (courses histories)} (events : List HubEvent)
    (hLabels : ∀ (i : Nat) (event : HubEvent), events[i]? = some event → e.label i = some event)
    (hRun : (start histories).run events = some s) : e.state events.length = s := by
  have hRuns := run_of_runs (Execution.runs_of_labels hLabels)
  rw [show e.state 0 = start histories from e.starts] at hRuns
  exact Option.some.inj (hRuns.symm.trans hRun)

/-- No writer has anything to do. -/
def Rests (s : Hub) : Prop :=
  ∀ (p : Nat) (host : Host), s.hosts[p]? = some host → host.inbox = [] ∧
    (host.phase = .serving ∧ host.closed = false ∨ host.phase = .ended)

theorem Rests.not_signal (h : s.Rests) :
    ¬ (courses histories).Enabled (fun event => event = .signal p) s := by
  intro hEnabled
  obtain ⟨_, s', rfl, hStep⟩ := hEnabled
  obtain ⟨host, last, hHost, hSignals, -⟩ := signal_cases hStep
  obtain ⟨-, ⟨hPhase, -⟩ | hPhase⟩ := h p host hHost <;> simp [hPhase] at hSignals

theorem Rests.not_notify (h : s.Rests) :
    ¬ (courses histories).Enabled (fun event => event = .notify p) s := by
  intro hEnabled
  obtain ⟨_, s', rfl, hStep⟩ := hEnabled
  obtain ⟨host, last, hHost, hNotifies, -⟩ := notify_cases hStep
  obtain ⟨-, ⟨hPhase, -⟩ | hPhase⟩ := h p host hHost <;> simp [hPhase] at hNotifies

theorem Rests.not_host (h : s.Rests) {inner : HostEvent}
    (hInner : inner = .finish ∨ HubEvent.Recv p (.host p inner)) :
    s.step (.host p inner) = none := by
  cases hHost : s.hosts[p]? with
  | none => simp [step, hHost]
  | some host =>
    obtain ⟨hInbox, hPhase⟩ := h p host hHost
    have hAct : host.act inner = none := by
      rcases hInner with rfl | hRecv
      · rcases hPhase with ⟨hPhase, hClosed⟩ | hPhase
        · simp [Host.act, guard, hClosed]
        · simp [Host.act, guard, hPhase]
      · cases hRecv with
        | turn faults => simp [Host.act, guard, hInbox, Wakeable]
        | panic faults message => simp [Host.act, guard, hInbox]
    simp [step, hHost, hAct]

/-- Writers that come to rest again and again are treated fairly. -/
theorem fairWriters_of_rests (h : ∀ t, ∃ u, t ≤ u ∧ (e.state u).Rests) : FairWriters e := by
  refine ⟨?_, ?_, ?_, ?_⟩
  · intro p
    apply Execution.weaklyFair_of_disabled
    intro t
    obtain ⟨u, hu, hRests⟩ := h t
    refine ⟨u, hu, fun hEnabled => ?_⟩
    obtain ⟨event, s', hRecv, hStep⟩ := hEnabled
    cases hRecv with
    | turn faults => simp [courses, hRests.not_host (Or.inr (.turn faults))] at hStep
    | panic faults message => simp [courses, hRests.not_host (Or.inr (.panic faults message))] at hStep
  · intro p
    apply Execution.weaklyFair_of_disabled
    intro t
    obtain ⟨u, hu, hRests⟩ := h t
    refine ⟨u, hu, fun hEnabled => ?_⟩
    obtain ⟨_, s', rfl, hStep⟩ := hEnabled
    simp [courses, hRests.not_host (Or.inl rfl)] at hStep
  · intro p
    apply Execution.weaklyFair_of_disabled
    intro t
    obtain ⟨u, hu, hRests⟩ := h t
    exact ⟨u, hu, hRests.not_signal⟩
  · intro p
    apply Execution.weaklyFair_of_disabled
    intro t
    obtain ⟨u, hu, hRests⟩ := h t
    exact ⟨u, hu, hRests.not_notify⟩

end Hub

end Kafko
