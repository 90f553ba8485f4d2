import Kafko.Topic.Ordering

/-!
# What a batch call leaves behind

A call of `send` or `send_batch` writes one bucket per partition, one after the other. Buckets are
written whole: at every moment the list of a partition is what it was at the start followed by the
records of whole commands. `Hub.Written` keeps a list of these commands, in the order in which they
were written. They are commands that tasks of the topic have sent to the partition (`Hub.sentBy`),
in that order, and exactly those that were answered with `Ok` (`Hub.Queued`). What a call has in the
list are its first buckets; all of them if it returned `Ok`, and all that it has sent except at most
the last if it failed or was dropped (`batches_land_whole`).
-/

namespace Kafko

open Disk

/-! ## The commands that are accepted -/

def PartitionCommand.writes : PartitionCommand → Bool
  | append _ _ => true
  | appendBatch _ _ => true
  | _ => false

namespace History

/-- The commands of a wake-up that write. -/
def accepted : List (Option KafkoError) → List PartitionCommand → List PartitionCommand
  | fault :: faults, command :: commands =>
    (if fault.isNone && command.writes then [command] else []) ++ accepted faults commands
  | _, _ => []

variable {h : History Record} {faults : List (Option KafkoError)} {commands : List PartitionCommand}

theorem accepted_sublist : (accepted faults commands).Sublist commands := by
  induction faults generalizing commands with
  | nil => exact List.nil_sublist _
  | cons fault faults ih =>
    cases commands with
    | nil => exact List.nil_sublist _
    | cons command commands =>
      rw [accepted]
      split
      · exact ih.cons_cons command
      · exact ih.cons command

theorem writes_of_accepted {command : PartitionCommand}
    (hMem : command ∈ accepted faults commands) : command.writes = true := by
  induction faults generalizing commands with
  | nil => cases hMem
  | cons fault faults ih =>
    cases commands with
    | nil => cases hMem
    | cons first commands =>
      rw [accepted] at hMem
      rcases List.mem_append.mp hMem with hHere | hLater
      · split at hHere
        · next hBoth =>
          rw [List.mem_singleton.mp hHere]
          exact (Bool.and_eq_true_iff.mp hBoth).2
        · cases hHere
      · exact ih hLater

theorem records_of_not_writes {command : PartitionCommand} (h : command.writes = false) :
    command.records = [] := by
  cases command with
  | append record reply => cases h
  | appendBatch records reply => cases h
  | _ => rfl

theorem respond_records (fault : Option KafkoError) (command : PartitionCommand) :
    (h.respond fault command).2.records =
      h.records ++ (accepted [fault] [command]).flatMap PartitionCommand.records := by
  have hServe : (h.serve none command).2.records = h.records ++ command.records := by
    rw [serve_history]
    simp [History.append, acceptedRecords]
  cases fault with
  | none =>
    rw [respond_none, hServe]
    cases hWrites : command.writes with
    | true => simp [accepted, hWrites]
    | false => simp [accepted, hWrites, records_of_not_writes hWrites]
  | some e =>
    cases hChannel : command.channel with
    | some reply => simp [respond, hChannel, accepted]
    | none =>
      have hWrites : command.writes = false := by
        cases command <;> first | rfl | cases hChannel
      rw [show h.respond (some e) command = h.serve none command by simp [respond, hChannel], hServe,
        records_of_not_writes hWrites]
      simp [accepted]

theorem accepted_cons (fault : Option KafkoError) (command : PartitionCommand) :
    accepted (fault :: faults) (command :: commands) =
      accepted [fault] [command] ++ accepted faults commands := by
  simp [accepted]

/-- The list grows by the records of the accepted commands, in order. -/
theorem respondAll_records : (h.respondAll faults commands).2.records =
    h.records ++ (accepted faults commands).flatMap PartitionCommand.records := by
  induction faults generalizing h commands with
  | nil => simp [respondAll, accepted]
  | cons fault faults ih =>
    cases commands with
    | nil => simp [respondAll, accepted]
    | cons command commands =>
      rw [accepted_cons, List.flatMap_append, ← List.append_assoc, ← respond_records]
      exact ih

/-- A command that writes is answered with a reply when it is accepted, and only then. -/
theorem respond_told {fault : Option KafkoError} {command : PartitionCommand}
    (hWrites : command.writes = true) : command ∈ accepted [fault] [command] ↔
      ∃ reply result, command.channel = some reply ∧
        (reply, .ok result) ∈ (h.respond fault command).1 := by
  cases fault with
  | none =>
    simp only [accepted, Option.isNone_none, hWrites, Bool.and_self, if_true, List.append_nil,
      List.mem_singleton, true_iff, respond_none]
    cases command with
    | append record reply => exact ⟨reply, _, rfl, List.mem_singleton.mpr rfl⟩
    | appendBatch records reply =>
      cases records with
      | nil => exact ⟨reply, _, rfl, List.mem_singleton.mpr rfl⟩
      | cons record records => exact ⟨reply, _, rfl, List.mem_singleton.mpr rfl⟩
    | _ => cases hWrites
  | some e =>
    simp only [accepted, Option.isNone_some, Bool.false_and, Bool.false_eq_true, if_false,
      List.append_nil, List.not_mem_nil, false_iff]
    intro hTold
    obtain ⟨reply, result, hChannel, hMem⟩ := hTold
    simp [respond, hChannel] at hMem

theorem told_of_accepted {command : PartitionCommand} (hMem : command ∈ accepted faults commands) :
    ∃ reply result, command.channel = some reply ∧
      (reply, .ok result) ∈ (h.respondAll faults commands).1 := by
  induction faults generalizing h commands with
  | nil => cases hMem
  | cons fault faults ih =>
    cases commands with
    | nil => cases hMem
    | cons first commands =>
      rw [accepted_cons] at hMem
      rcases List.mem_append.mp hMem with hHere | hLater
      · have hWrites : first.writes = true ∧ command = first := by
          simp only [accepted, List.append_nil] at hHere
          split at hHere
          · next hBoth =>
            simp only [Bool.and_eq_true] at hBoth
            exact ⟨hBoth.2, List.mem_singleton.mp hHere⟩
          · cases hHere
        obtain ⟨hWrites, rfl⟩ := hWrites
        obtain ⟨reply, result, hChannel, hTold⟩ := (respond_told (h := h) hWrites).mp hHere
        exact ⟨reply, result, hChannel, List.mem_append_left _ hTold⟩
      · obtain ⟨reply, result, hChannel, hTold⟩ := ih (h := (h.respond fault first).2) hLater
        exact ⟨reply, result, hChannel, List.mem_append_right _ hTold⟩

/-- Whoever gets a reply has sent a command, and if it writes it has been accepted. -/
theorem accepted_of_told {reply : Nat} {result : Reply}
    (hMem : (reply, .ok result) ∈ (h.respondAll faults commands).1) :
    ∃ command ∈ commands, command.channel = some reply ∧
      (command.writes = true → command ∈ accepted faults commands) := by
  induction faults generalizing h commands with
  | nil => cases hMem
  | cons fault faults ih =>
    cases commands with
    | nil => cases hMem
    | cons first commands =>
      rw [respondAll] at hMem
      rcases List.mem_append.mp hMem with hHere | hLater
      · have hChannel := respond_channel hHere
        refine ⟨first, List.mem_cons_self, hChannel, fun hWrites => ?_⟩
        rw [accepted_cons]
        exact List.mem_append_left _ ((respond_told hWrites).mpr ⟨reply, result, hChannel, hHere⟩)
      · obtain ⟨command, hCommand, hChannel, hAccepted⟩ := ih hLater
        refine ⟨command, List.mem_cons_of_mem _ hCommand, hChannel, fun hWrites => ?_⟩
        rw [accepted_cons]
        exact List.mem_append_right _ (hAccepted hWrites)

end History

/-! ## What a step writes -/

/-- What a step does to a partition, with the commands it puts into the inbox and those it
writes. -/
structure Host.Writes (fresh : Nat) (host : Host) (pushed written : List PartitionCommand)
    (host' : Host) : Prop where
  records : host'.history.records =
    host.history.records ++ written.flatMap PartitionCommand.records
  taken : written.Sublist host.inbox
  writing : ∀ command ∈ written, command.writes = true
  told : ∀ command ∈ written, ∃ reply result, command.channel = some reply ∧
    (reply, .ok result) ∈ host'.sent
  answers : ∀ reply result, (reply, .ok result) ∈ host'.sent → (reply, .ok result) ∈ host.sent ∨
    ∃ command ∈ host.inbox, command.channel = some reply ∧
      (command.writes = true → command ∈ written)
  inbox : ∀ command ∈ host'.inbox, command ∈ host.inbox ∨
    ∀ reply, command.channel = some reply → reply = fresh
  queue : (written ++ host'.inbox).Sublist (host.inbox ++ pushed)
  sent : ∀ x ∈ host.sent, x ∈ host'.sent

namespace Host

variable {host host' : Host} {fresh : Nat}

theorem writes_nothing {pushed : List PartitionCommand}
    (hHistory : host'.history.records = host.history.records) (hSent : host'.sent = host.sent)
    (hInbox : host'.inbox = host.inbox ++ pushed)
    (hFresh : ∀ command ∈ pushed, ∀ reply, command.channel = some reply → reply = fresh) :
    host.Writes fresh pushed [] host' := by
  refine ⟨?_, List.nil_sublist _, ?_, ?_, ?_, ?_, ?_, ?_⟩
  · rw [hHistory]
    exact (List.append_nil _).symm
  · intro command hMem
    cases hMem
  · intro command hMem
    cases hMem
  · intro reply result hTold
    rw [hSent] at hTold
    exact Or.inl hTold
  · intro command hMem
    rw [hInbox] at hMem
    rcases List.mem_append.mp hMem with hOld | hNew
    · exact Or.inl hOld
    · exact Or.inr (hFresh command hNew)
  · rw [hInbox]
    exact List.Sublist.refl _
  · intro x hx
    rwa [hSent]

/-- An event that has to do with neither the list nor the inbox. -/
theorem writes_same (hHistory : host'.history.records = host.history.records)
    (hSent : host'.sent = host.sent) (hInbox : host'.inbox = host.inbox) :
    host.Writes fresh [] [] host' := by
  apply writes_nothing hHistory hSent
  · rw [hInbox, List.append_nil]
  · intro command hMem
    cases hMem

theorem writes_push {command : PartitionCommand}
    (hFresh : ∀ reply, command.channel = some reply → reply = fresh) :
    host.Writes fresh [command] [] (host.push command) := by
  have hInbox : (host.push command).inbox = host.inbox ++ [command] := rfl
  refine writes_nothing rfl rfl hInbox ?_
  intro c hMem
  rw [List.mem_singleton.mp hMem]
  exact hFresh

theorem writes_answer (fresh : Nat) (faults : List (Option KafkoError)) :
    host.Writes fresh [] (History.accepted faults (host.inbox.take faults.length))
      (host.answer faults) := by
  refine ⟨History.respondAll_records, ?_, fun _ => History.writes_of_accepted, ?_, ?_, ?_, ?_, ?_⟩
  · exact History.accepted_sublist.trans (List.take_sublist _ _)
  · intro command hMem
    obtain ⟨reply, result, hChannel, hTold⟩ := History.told_of_accepted (h := host.history) hMem
    exact ⟨reply, result, hChannel, List.mem_append_right _ hTold⟩
  · intro reply result hTold
    rcases List.mem_append.mp hTold with hOld | hNew
    · exact Or.inl hOld
    · obtain ⟨command, hMem, hChannel, hAccepted⟩ := History.accepted_of_told hNew
      exact Or.inr ⟨command, List.mem_of_mem_take hMem, hChannel, hAccepted⟩
  · exact fun command hMem => Or.inl (List.mem_of_mem_drop hMem)
  · have hTurn : (History.accepted faults (host.inbox.take faults.length)).Sublist
        (host.inbox.take faults.length) := History.accepted_sublist
    have hQueue := hTurn.append_right (host.inbox.drop faults.length)
    rw [List.take_append_drop] at hQueue
    rw [List.append_nil]
    exact hQueue
  · exact fun x hx => List.mem_append_left _ hx

theorem Acts.writes (h : host.Acts host') : ∃ written, host.Writes fresh [] written host' := by
  cases h with
  | turn faults hPhase hWake =>
    have hAnswer := host.writes_answer fresh faults
    exact ⟨_, hAnswer.records, hAnswer.taken, hAnswer.writing, hAnswer.told, hAnswer.answers,
      hAnswer.inbox, hAnswer.queue, hAnswer.sent⟩
  | panic faults message hPhase hAppends =>
    have hAnswer := host.writes_answer fresh faults
    refine ⟨_, hAnswer.records, hAnswer.taken, hAnswer.writing, hAnswer.told, hAnswer.answers,
      fun _ hMem => (List.not_mem_nil hMem).elim, ?_, hAnswer.sent⟩
    simpa using hAnswer.taken
  | _ => exact ⟨[], writes_same rfl rfl rfl⟩

end Host

namespace Hub

variable {s s' : Hub} {p : Nat} {host : Host}

/-- A step leaves all partitions but one as they are, and that one gets commands and is written
to. -/
structure WritesTo (s s' : Hub) (q : Nat) (pushed written : List PartitionCommand) : Prop where
  inside : written ≠ [] → ∃ host, s.hosts[q]? = some host
  others : ∀ p, p ≠ q → s'.hosts[p]? = s.hosts[p]?
  own : ∀ host, s.hosts[q]? = some host → ∃ host', s'.hosts[q]? = some host' ∧
    host.Writes s.nextReply pushed written host'
  fresh : pushed = [] ∨ ∃ command, pushed = [command] ∧ s.nextReply < s'.nextReply ∧
    ∀ reply, command.channel = some reply → reply = s.nextReply

theorem writesTo_of_set {q : Nat} {host₀ host₁ : Host} {pushed written : List PartitionCommand}
    (hHosts : s'.hosts = s.hosts.set q host₁) (hq : s.hosts[q]? = some host₀)
    (hWrites : host₀.Writes s.nextReply pushed written host₁)
    (hFresh : pushed = [] ∨ ∃ command, pushed = [command] ∧ s.nextReply < s'.nextReply ∧
      ∀ reply, command.channel = some reply → reply = s.nextReply) :
    s.WritesTo s' q pushed written := by
  refine ⟨fun _ => ⟨host₀, hq⟩, ?_, ?_, hFresh⟩
  · intro p hNe
    rw [hHosts, List.getElem?_set_ne (Ne.symm hNe)]
  · intro host hHost
    obtain rfl : host₀ = host := Option.some.inj (hq.symm.trans hHost)
    rw [hHosts]
    exact ⟨host₁, List.getElem?_set_self (List.getElem?_eq_some_iff.mp hq).1, hWrites⟩

theorem writesTo_nothing (hHosts : s'.hosts = s.hosts) : s.WritesTo s' 0 [] [] := by
  refine ⟨fun hNe => absurd rfl hNe, fun p _ => by rw [hHosts], fun host hHost => ?_, Or.inl rfl⟩
  exact ⟨host, by rw [hHosts, hHost], Host.writes_same rfl rfl rfl⟩

/-- A partition with other values in what belongs to its signals. -/
theorem writesTo_phase {q : Nat} {host₀ host₁ : Host} (hHosts : s'.hosts = s.hosts.set q host₁)
    (hq : s.hosts[q]? = some host₀) (hHistory : host₁.history = host₀.history)
    (hSent : host₁.sent = host₀.sent) (hInbox : host₁.inbox = host₀.inbox) :
    s.WritesTo s' q [] [] :=
  writesTo_of_set hHosts hq (Host.writes_same (by rw [hHistory]) hSent hInbox) (Or.inl rfl)

/-- The commands of an effect go to one partition. -/
theorem writesTo_applied {effect : Effect}
    (hEffect : ∀ q host₀ command, effect = .sends q host₀ command → s.hosts[q]? = some host₀ ∧
      ∀ reply, command.channel = some reply → reply = s.nextReply)
    (hHosts : s'.hosts = (s.applied effect).hosts)
    (hNext : s'.nextReply = (s.applied effect).nextReply) :
    ∃ q pushed written, effect.sent = pushed.map (fun command => (q, command)) ∧
      s.WritesTo s' q pushed written := by
  cases effect with
  | sends q host₀ command =>
    obtain ⟨hq, hFresh⟩ := hEffect q host₀ command rfl
    refine ⟨q, [command], [], rfl, writesTo_of_set hHosts hq (Host.writes_push hFresh) ?_⟩
    exact Or.inr ⟨command, rfl, by rw [hNext]; exact Nat.lt_succ_self _, hFresh⟩
  | _ => exact ⟨0, [], [], rfl, writesTo_nothing hHosts⟩

/-- An event sends what `Hub.sends` says, all of it to one partition. -/
theorem step_writesTo {event : HubEvent} (h : s.step event = some s') :
    ∃ q pushed written, s.sends event = pushed.map (fun command => (q, command)) ∧
      s.WritesTo s' q pushed written := by
  cases event with
  | join cursors =>
    obtain ⟨-, rfl⟩ := join_cases h
    exact ⟨0, [], [], rfl, writesTo_nothing rfl⟩
  | reader c event =>
    obtain ⟨r, hr, hStep⟩ := Option.bind_eq_some_iff.mp h
    obtain ⟨effect, r', hSteps, rfl, hSends⟩ := readerStep_cases hStep
    have hSame : s.sends (.reader c event) = effect.sent := by rw [sends, hr, hSends]; rfl
    rw [hSame]
    exact writesTo_applied (fun q host₀ command hEq => readerSteps_sends (hEq ▸ hSteps)) rfl rfl
  | call k event =>
    obtain ⟨call, hCall, hStep⟩ := Option.bind_eq_some_iff.mp h
    obtain ⟨effect, call', hSteps, rfl, hSends⟩ := callStep_cases hStep
    have hSame : s.sends (.call k event) = effect.sent := by rw [sends, hCall, hSends]; rfl
    rw [hSame]
    exact writesTo_applied (fun q host₀ command hEq => callSteps_sends (hEq ▸ hSteps)) rfl rfl
  | command p command =>
    obtain ⟨host, hHost, hFresh, rfl⟩ := command_cases h
    refine ⟨p, [command], [], rfl, writesTo_of_set rfl hHost (Host.writes_push hFresh) ?_⟩
    exact Or.inr ⟨command, rfl, Nat.lt_succ_self _, hFresh⟩
  | host p event =>
    obtain ⟨host, host', hHost, hAct, rfl⟩ := host_cases h
    obtain ⟨written, hWrites⟩ := (Host.act_cases hAct).writes
    exact ⟨p, [], written, rfl, writesTo_of_set rfl hHost hWrites (Or.inl rfl)⟩
  | signal p =>
    obtain ⟨host, last, hHost, -, ⟨-, rfl⟩ | ⟨-, rfl⟩⟩ := signal_cases h
    · exact ⟨p, [], [], rfl, writesTo_phase rfl hHost rfl rfl rfl⟩
    · exact ⟨p, [], [], rfl, writesTo_phase rfl hHost rfl rfl rfl⟩
  | notify p =>
    obtain ⟨host, last, hHost, -, rfl⟩ := notify_cases h
    exact ⟨p, [], [], rfl, writesTo_phase rfl hHost rfl rfl rfl⟩
  | _ =>
    cases h
    exact ⟨0, [], [], rfl, writesTo_nothing rfl⟩

/-! ## Everything that was ever written -/

/-- The commands that were written, with their partitions, in order. -/
structure Written (histories : List (History Record)) (written : List (Nat × PartitionCommand))
    (s : Hub) : Prop where
  lists : ∀ (p : Nat) (host : Host), s.hosts[p]? = some host → ∃ h, histories[p]? = some h ∧
    host.history.records =
      h.records ++ (written.filter fun x => x.1 = p).flatMap fun x => x.2.records
  told : ∀ x ∈ written, ∃ host reply result, s.hosts[x.1]? = some host ∧
    x.2.channel = some reply ∧ (reply, .ok result) ∈ host.sent
  gone : ∀ x ∈ written, ∀ (p : Nat) (host : Host), s.hosts[p]? = some host →
    ∀ command ∈ host.inbox, command.channel ≠ x.2.channel
  once : (written.map fun x => x.2.channel).Nodup

/-- The commands that were sent, with their partitions, in order. Those that were written come out
of each inbox in that order, and they are the ones that were answered with `Ok`. -/
structure Queued (sent written : List (Nat × PartitionCommand)) (s : Hub) : Prop where
  order : ∀ (p : Nat) (host : Host), s.hosts[p]? = some host →
    ((written.filter fun x => x.1 = p) ++ host.inbox.map fun command => (p, command)).Sublist
      (sent.filter fun x => x.1 = p)
  numbered : ∀ x ∈ sent, ∀ reply, x.2.channel = some reply → reply < s.nextReply
  distinct : sent.Pairwise fun x y => ∀ reply, x.2.channel = some reply →
    y.2.channel ≠ some reply
  writing : ∀ x ∈ written, x.2.writes = true
  answered : ∀ x ∈ sent, x.2.writes = true → ∀ host reply result, s.hosts[x.1]? = some host →
    x.2.channel = some reply → (reply, .ok result) ∈ host.sent → x ∈ written

/-- Commands in different inboxes have different channels. -/
def Apart (s : Hub) : Prop :=
  ∀ (p q : Nat) (host host' : Host), s.hosts[p]? = some host → s.hosts[q]? = some host' → p ≠ q →
    ∀ command ∈ host.inbox, ∀ command' ∈ host'.inbox, ∀ reply, command.channel = some reply →
      command'.channel ≠ some reply

variable {histories : List (History Record)} {sent written : List (Nat × PartitionCommand)}
  {q : Nat} {pushed more : List PartitionCommand}

/-- A partition before a step. -/
theorem WritesTo.back (h : s.WritesTo s' q pushed more) (hStep : s.Steps s') {host' : Host}
    (hHost' : s'.hosts[p]? = some host') : p ≠ q ∧ s.hosts[p]? = some host' ∨
      p = q ∧ ∃ host, s.hosts[p]? = some host ∧ host.Writes s.nextReply pushed more host' := by
  by_cases hEq : p = q
  · subst hEq
    obtain ⟨host, hHost, -⟩ := hStep.moved hHost'
    obtain ⟨host₁, hHost₁, hWrites⟩ := h.own host hHost
    obtain rfl : host₁ = host' := Option.some.inj (hHost₁.symm.trans hHost')
    exact Or.inr ⟨rfl, host, hHost, hWrites⟩
  · rw [h.others p hEq] at hHost'
    exact Or.inl ⟨hEq, hHost'⟩

/-- What was sent before a step. -/
theorem WritesTo.sent_before (h : s.WritesTo s' q pushed more) (hHost : s.hosts[p]? = some host) :
    ∃ host', s'.hosts[p]? = some host' ∧ ∀ x ∈ host.sent, x ∈ host'.sent := by
  by_cases hEq : p = q
  · subst hEq
    obtain ⟨host', hHost', hWrites⟩ := h.own host hHost
    exact ⟨host', hHost', hWrites.sent⟩
  · exact ⟨host, by rw [h.others p hEq, hHost], fun x hx => hx⟩

/-- What was waiting before a step. -/
theorem WritesTo.inbox (h : s.WritesTo s' q pushed more) (hStep : s.Steps s') {host' : Host}
    (hHost' : s'.hosts[p]? = some host') {command : PartitionCommand}
    (hMem : command ∈ host'.inbox) : (∃ host, s.hosts[p]? = some host ∧ command ∈ host.inbox) ∨
      p = q ∧ ∀ reply, command.channel = some reply → reply = s.nextReply := by
  rcases h.back hStep hHost' with ⟨-, hHost⟩ | ⟨hEq, host, hHost, hWrites⟩
  · exact Or.inl ⟨host', hHost, hMem⟩
  · rcases hWrites.inbox command hMem with hOld | hFresh
    · exact Or.inl ⟨host, hHost, hOld⟩
    · exact Or.inr ⟨hEq, hFresh⟩

theorem Fresh.channel_lt (h : s.Fresh) (hHost : s.hosts[p]? = some host)
    {command : PartitionCommand} (hMem : command ∈ host.inbox) {reply : Nat}
    (hChannel : command.channel = some reply) : reply < s.nextReply :=
  (h p host hHost).inbox command hMem reply hChannel

theorem Apart.step (h : s.Apart) (hFresh : s.Fresh) (hStep : s.Steps s')
    (hTo : s.WritesTo s' q pushed more) : s'.Apart := by
  intro p p' host₁ host₁' hHost₁ hHost₁' hNe command hMem command' hMem' reply hChannel hChannel'
  rcases hTo.inbox hStep hHost₁ hMem with ⟨host, hHost, hOld⟩ | ⟨rfl, hNew⟩
  · rcases hTo.inbox hStep hHost₁' hMem' with ⟨host', hHost', hOld'⟩ | ⟨rfl, hNew'⟩
    · exact h p p' host host' hHost hHost' hNe command hOld command' hOld' reply hChannel hChannel'
    · have hLt := hFresh.channel_lt hHost hOld hChannel
      exact Nat.ne_of_lt hLt (hNew' reply hChannel')
  · rcases hTo.inbox hStep hHost₁' hMem' with ⟨host', hHost', hOld'⟩ | ⟨rfl, -⟩
    · have hLt := hFresh.channel_lt hHost' hOld' hChannel'
      exact Nat.ne_of_lt hLt (hNew reply hChannel)
    · exact hNe rfl

/-- No channel occurs twice in what a step writes. -/
theorem WritesTo.nodup (hTo : s.WritesTo s' q pushed more) (hFresh : s.Fresh) :
    (more.map PartitionCommand.channel).Nodup := by
  by_cases hNil : more = []
  · rw [hNil]
    exact List.nodup_nil
  · obtain ⟨host, hHost⟩ := hTo.inside hNil
    obtain ⟨host', -, hWrites⟩ := hTo.own host hHost
    have hDistinct := ((hFresh q host hHost).distinct).sublist
      (hWrites.taken.filterMap PartitionCommand.channel)
    rw [List.Nodup, List.pairwise_filterMap] at hDistinct
    rw [List.Nodup, List.pairwise_map]
    refine hDistinct.imp_of_mem ?_
    intro command command' hMem hMem' hApart hSame
    obtain ⟨reply, _, hChannel, -⟩ := hWrites.told command hMem
    exact hApart reply hChannel reply (hSame ▸ hChannel) rfl

theorem filter_here (p : Nat) (commands : List PartitionCommand) :
    ((commands.map fun command => (p, command)).filter fun x => x.1 = p) =
      commands.map fun command => (p, command) := by
  rw [List.filter_eq_self]
  intro x hx
  obtain ⟨command, -, rfl⟩ := List.mem_map.mp hx
  simp

theorem filter_elsewhere (hNe : p ≠ q) (commands : List PartitionCommand) :
    ((commands.map fun command => (q, command)).filter fun x => x.1 = p) = [] := by
  rw [List.filter_eq_nil_iff]
  intro x hx
  obtain ⟨command, -, rfl⟩ := List.mem_map.mp hx
  simpa using Ne.symm hNe

/-- What a step writes is behind everything that was written before. -/
theorem Written.step (h : s.Written histories written) (hApart : s.Apart) (hFresh : s.Fresh)
    (hStep : s.Steps s') (hTo : s.WritesTo s' q pushed more) :
    s'.Written histories (written ++ more.map fun command => (q, command)) := by
  have hFresh' := hFresh.steps hStep
  -- What is written now has waited in the inbox of the partition, and is answered.
  have hMore : ∀ command ∈ more, ∃ host host' reply result, s.hosts[q]? = some host ∧
      command ∈ host.inbox ∧ s'.hosts[q]? = some host' ∧ command.channel = some reply ∧
      (reply, .ok result) ∈ host'.sent := by
    intro command hMem
    obtain ⟨host, hHost⟩ := hTo.inside (List.ne_nil_of_mem hMem)
    obtain ⟨host', hHost', hWrites⟩ := hTo.own host hHost
    obtain ⟨reply, result, hChannel, hTold⟩ := hWrites.told command hMem
    exact ⟨host, host', reply, result, hHost, hWrites.taken.subset hMem, hHost', hChannel, hTold⟩
  refine ⟨?_, ?_, ?_, ?_⟩
  · intro p host' hHost'
    rw [List.filter_append, List.flatMap_append]
    rcases hTo.back hStep hHost' with ⟨hNe, hHost⟩ | ⟨rfl, host, hHost, hWrites⟩
    · obtain ⟨before, hBefore, hRecords⟩ := h.lists p host' hHost
      refine ⟨before, hBefore, ?_⟩
      rw [filter_elsewhere hNe, hRecords]
      simp
    · obtain ⟨before, hBefore, hRecords⟩ := h.lists p host hHost
      refine ⟨before, hBefore, ?_⟩
      rw [filter_here, hWrites.records, hRecords, List.flatMap_map, List.append_assoc]
  · intro x hx
    rcases List.mem_append.mp hx with hOld | hNew
    · obtain ⟨host, reply, result, hHost, hChannel, hTold⟩ := h.told x hOld
      obtain ⟨host', hHost', hSent⟩ := hTo.sent_before hHost
      exact ⟨host', reply, result, hHost', hChannel, hSent _ hTold⟩
    · obtain ⟨command, hMem, rfl⟩ := List.mem_map.mp hNew
      obtain ⟨_, host', reply, result, -, -, hHost', hChannel, hTold⟩ := hMore command hMem
      exact ⟨host', reply, result, hHost', hChannel, hTold⟩
  · intro x hx p host' hHost' command hMem hSame
    rcases List.mem_append.mp hx with hOld | hNew
    · obtain ⟨host, reply, result, hHost, hChannel, hTold⟩ := h.told x hOld
      rcases hTo.inbox hStep hHost' hMem with ⟨host₁, hHost₁, hIn⟩ | ⟨-, hNewest⟩
      · exact h.gone x hOld p host₁ hHost₁ command hIn hSame
      · have hLt := (hFresh _ host hHost).sent _ hTold
        exact Nat.ne_of_lt hLt (hNewest reply (hSame.trans hChannel))
    · obtain ⟨command₁, hMem₁, rfl⟩ := List.mem_map.mp hNew
      obtain ⟨host₁, host₁', reply, result, hHost₁, hIn₁, hHost₁', hChannel, hTold⟩ :=
        hMore command₁ hMem₁
      have hChannel' : command.channel = some reply := hSame.trans hChannel
      by_cases hEq : p = q
      · subst hEq
        obtain rfl : host₁' = host' := Option.some.inj (hHost₁'.symm.trans hHost')
        exact (hFresh' p host₁' hHost').unsent _ hTold
          (List.mem_filterMap.mpr ⟨command, hMem, hChannel'⟩)
      · rw [hTo.others p hEq] at hHost'
        exact hApart p q host' host₁ hHost' hHost₁ hEq command hMem command₁ hIn₁ reply hChannel'
          hChannel
  · rw [List.map_append, List.map_map, List.nodup_append']
    refine ⟨h.once, hTo.nodup hFresh, ?_⟩
    · intro channel hOld hNew
      obtain ⟨x, hx, rfl⟩ := List.mem_map.mp hOld
      obtain ⟨command, hMem, hSame⟩ := List.mem_map.mp hNew
      obtain ⟨host, _, _, _, hHost, hIn, -⟩ := hMore command hMem
      exact h.gone x hx q host hHost command hIn hSame

/-- A command in an inbox was sent to that partition. -/
theorem Queued.mem_sent (h : s.Queued sent written) (hHost : s.hosts[p]? = some host)
    {command : PartitionCommand} (hMem : command ∈ host.inbox) : (p, command) ∈ sent :=
  List.mem_of_mem_filter ((h.order p host hHost).subset
    (List.mem_append_right _ (List.mem_map.mpr ⟨command, hMem, rfl⟩)))

theorem Queued.eq_of_channel (h : s.Queued sent written) {x y : Nat × PartitionCommand}
    (hx : x ∈ sent) (hy : y ∈ sent) {reply : Nat} (hChannel : x.2.channel = some reply)
    (hChannel' : y.2.channel = some reply) : x = y := by
  by_contra hNe
  have hSymm : Std.Symm fun x y : Nat × PartitionCommand =>
      ∀ reply, x.2.channel = some reply → y.2.channel ≠ some reply :=
    ⟨fun a b hApart r hb ha => hApart r ha hb⟩
  exact h.distinct.forall hx hy hNe reply hChannel hChannel'

/-- The channel of a command that is just being sent. -/
theorem WritesTo.newest (hTo : s.WritesTo s' q pushed more) {x : Nat × PartitionCommand}
    (hx : x ∈ pushed.map fun command => (q, command)) {reply : Nat}
    (hChannel : x.2.channel = some reply) : reply = s.nextReply ∧ s.nextReply < s'.nextReply := by
  obtain ⟨command, hMem, rfl⟩ := List.mem_map.mp hx
  rcases hTo.fresh with hNone | ⟨c, hOne, hLt, hFresh⟩
  · rw [hNone] at hMem
    cases hMem
  · rw [hOne] at hMem
    rw [List.mem_singleton.mp hMem] at hChannel
    exact ⟨hFresh reply hChannel, hLt⟩

theorem Queued.order_step (h : s.Queued sent written) (hStep : s.Steps s')
    (hTo : s.WritesTo s' q pushed more) {host' : Host} (hHost' : s'.hosts[p]? = some host') :
    (((written ++ more.map fun command => (q, command)).filter fun x => x.1 = p) ++
      host'.inbox.map fun command => (p, command)).Sublist
        ((sent ++ pushed.map fun command => (q, command)).filter fun x => x.1 = p) := by
  rw [List.filter_append, List.filter_append]
  rcases hTo.back hStep hHost' with ⟨hNe, hHost⟩ | ⟨rfl, host, hHost, hWrites⟩
  · rw [filter_elsewhere hNe, filter_elsewhere hNe, List.append_nil, List.append_nil]
    exact h.order p host' hHost
  · rw [filter_here, filter_here, List.append_assoc, ← List.map_append]
    refine ((hWrites.queue.map fun command => (p, command)).append_left _).trans ?_
    rw [List.map_append, ← List.append_assoc]
    exact (h.order p host hHost).append_right _

/-- What is sent is behind everything that was sent before, and what is answered with `Ok` is
written. -/
theorem Queued.step (h : s.Queued sent written) (hFresh : s.Fresh) (hStep : s.Steps s')
    (hTo : s.WritesTo s' q pushed more) :
    s'.Queued (sent ++ pushed.map fun command => (q, command))
      (written ++ more.map fun command => (q, command)) := by
  refine ⟨fun p host' hHost' => h.order_step hStep hTo hHost', ?_, ?_, ?_, ?_⟩
  · intro x hx reply hChannel
    rcases List.mem_append.mp hx with hOld | hNew
    · exact (h.numbered x hOld reply hChannel).trans_le hStep.nextReply_le
    · obtain ⟨rfl, hLt⟩ := hTo.newest hNew hChannel
      exact hLt
  · rw [List.pairwise_append]
    refine ⟨h.distinct, ?_, ?_⟩
    · rcases hTo.fresh with hNone | ⟨command, hOne, -⟩
      · rw [hNone]
        exact List.Pairwise.nil
      · rw [hOne]
        exact List.pairwise_singleton _ _
    · intro x hx y hy reply hChannel hChannel'
      obtain ⟨rfl, -⟩ := hTo.newest hy hChannel'
      exact Nat.lt_irrefl _ (h.numbered x hx _ hChannel)
  · intro x hx
    rcases List.mem_append.mp hx with hOld | hNew
    · exact h.writing x hOld
    · obtain ⟨command, hMem, rfl⟩ := List.mem_map.mp hNew
      obtain ⟨host, hHost⟩ := hTo.inside (List.ne_nil_of_mem hMem)
      obtain ⟨_, -, hWrites⟩ := hTo.own host hHost
      exact hWrites.writing command hMem
  · intro x hx hWritesTo host' reply result hHost' hChannel hTold
    -- Nothing has been answered on the channel of a command that is just being sent.
    have hKnown : ∀ host, s.hosts[x.1]? = some host → (reply, .ok result) ∈ host.sent →
        x ∈ written := by
      intro host hHost hBefore
      rcases List.mem_append.mp hx with hOld | hNew
      · exact h.answered x hOld hWritesTo host reply result hHost hChannel hBefore
      · obtain ⟨rfl, -⟩ := hTo.newest hNew hChannel
        exact absurd ((hFresh x.1 host hHost).sent _ hBefore) (Nat.lt_irrefl _)
    rcases hTo.back hStep hHost' with ⟨-, hHost⟩ | ⟨hHere, host, hHost, hWrites⟩
    · exact List.mem_append_left _ (hKnown host' hHost hTold)
    · rcases hWrites.answers reply result hTold with hBefore | ⟨command, hIn, hChannel', hMore⟩
      · exact List.mem_append_left _ (hKnown host hHost hBefore)
      · have hSent := h.mem_sent hHost hIn
        rcases List.mem_append.mp hx with hOld | hNew
        · have hSame : (x.1, command) = x := h.eq_of_channel hSent hOld hChannel' hChannel
          have hCommand : command = x.2 := congrArg Prod.snd hSame
          subst hCommand
          refine List.mem_append_right _ (List.mem_map.mpr ⟨x.2, hMore hWritesTo, ?_⟩)
          rw [← hHere]
        · obtain ⟨rfl, -⟩ := hTo.newest hNew hChannel
          exact absurd (h.numbered _ hSent _ hChannel') (Nat.lt_irrefl _)

theorem queued_start : (start histories).Queued [] [] := by
  refine ⟨?_, ?_, List.Pairwise.nil, ?_, ?_⟩
  · intro p host hHost
    obtain ⟨history, -, rfl⟩ := List.mem_map.mp (List.mem_of_getElem? hHost)
    exact List.Sublist.refl _
  · intro x hx
    cases hx
  · intro x hx
    cases hx
  · intro x hx
    cases hx

theorem written_start : (start histories).Written histories [] := by
  refine ⟨?_, fun x hx => (List.not_mem_nil hx).elim, fun x hx => (List.not_mem_nil hx).elim,
    List.nodup_nil⟩
  intro p host hHost
  rw [start, List.getElem?_map, Option.map_eq_some_iff] at hHost
  obtain ⟨h, hHistory, rfl⟩ := hHost
  exact ⟨h, hHistory, (List.append_nil _).symm⟩

end Hub

/-! ## What a call has written -/

namespace SendCall

/-- The commands a call has sent. -/
def commands (call : SendCall) : List (Nat × PartitionCommand) :=
  call.issued.map fun x => (x.1, call.command x.2.2 x.2.1)

/-- A command that uses one of the reply channels of the call. -/
def Sent (call : SendCall) (x : Nat × PartitionCommand) : Prop :=
  ∃ y ∈ call.issued, x.2.channel = some y.2.1

instance (call : SendCall) : DecidablePred call.Sent := fun x =>
  inferInstanceAs (Decidable (∃ y ∈ call.issued, x.2.channel = some y.2.1))

/-- All buckets that were sent are written, or all but the last, which is not settled. -/
inductive Part (s : Hub) (call : SendCall) (written : List (Nat × PartitionCommand)) : Prop
  | all (h : written.filter call.Sent = call.commands)
  | butLast {before : List (Nat × Nat × Bucket)} {p reply : Nat} {bucket : Bucket}
    (hIssued : call.issued = before ++ [(p, reply, bucket)])
    (hPending : call.pending = some (p, reply, bucket))
    (h : written.filter call.Sent = before.map fun x => (x.1, call.command x.2.2 x.2.1))
    (hUntold : ∀ host result, s.hosts[p]? = some host → (reply, .ok result) ∉ host.sent)

structure Leaves (s : Hub) (written : List (Nat × PartitionCommand)) (call : SendCall) : Prop where
  used : ∀ x ∈ call.issued, x.2.1 < s.nextReply
  asked : ∀ x ∈ call.issued, ∀ (q : Nat) (host : Host), s.hosts[q]? = some host →
    ∀ command ∈ host.inbox, command.channel = some x.2.1 →
      (q, command) = (x.1, call.command x.2.2 x.2.1)
  part : call.Part s written

variable {s s' : Hub} {call call' : SendCall} {histories : List (History Record)}
  {written : List (Nat × PartitionCommand)} {q : Nat} {pushed more : List PartitionCommand}

theorem writes_command (call : SendCall) (bucket : Bucket) (reply : Nat) :
    (call.command bucket reply).writes = true := by
  unfold command
  split <;> rfl

/-- A bucket that is written does not wait any more. -/
theorem not_waiting (hWritten : s.Written histories written) {x : Nat × Nat × Bucket}
    (hMem : (x.1, call.command x.2.2 x.2.1) ∈ written) {p : Nat} {host : Host}
    (hHost : s.hosts[p]? = some host) {command : PartitionCommand} (hIn : command ∈ host.inbox) :
    command.channel ≠ some x.2.1 := by
  intro hChannel
  refine hWritten.gone _ hMem p host hHost command hIn ?_
  rw [hChannel]
  exact (call.command_channel _ _).symm

/-- Nobody else writes with the channels of a call. -/
theorem Leaves.own_channels (h : call.Leaves s written) (hTo : s.WritesTo s' q pushed more)
    {command : PartitionCommand} (hMem : command ∈ more) (hSent : call.Sent (q, command)) :
    ∃ x ∈ call.issued, (q, command) = (x.1, call.command x.2.2 x.2.1) ∧
      ∃ host, s.hosts[q]? = some host ∧ command ∈ host.inbox ∧ command.channel = some x.2.1 := by
  obtain ⟨host, hHost⟩ := hTo.inside (List.ne_nil_of_mem hMem)
  obtain ⟨host', -, hWrites⟩ := hTo.own host hHost
  obtain ⟨x, hx, hChannel⟩ := hSent
  have hIn := hWrites.taken.subset hMem
  exact ⟨x, hx, h.asked x hx q host hHost command hIn hChannel, host, hHost, hIn, hChannel⟩

theorem Part.step (h : call.Leaves s written) (hWritten : s.Written histories written)
    (hFresh : s.Fresh) (hStep : s.Steps s') (hTo : s.WritesTo s' q pushed more) :
    call.Part s' (written ++ more.map fun command => (q, command)) := by
  have hNew : ∀ x ∈ (more.map fun command => (q, command)).filter call.Sent,
      ∃ y ∈ call.issued, x = (y.1, call.command y.2.2 y.2.1) ∧ x ∉ written := by
    intro x hx
    obtain ⟨hMem, hSent⟩ := List.mem_filter.mp hx
    obtain ⟨command, hCommand, rfl⟩ := List.mem_map.mp hMem
    obtain ⟨y, hy, hEq, host, hHost, hIn, hChannel⟩ :=
      h.own_channels hTo hCommand (of_decide_eq_true hSent)
    refine ⟨y, hy, hEq, fun hOld => ?_⟩
    rw [hEq] at hOld
    exact not_waiting hWritten hOld hHost hIn hChannel
  cases h.part with
  | all hAll =>
    refine .all ?_
    have hNone : (more.map fun command => (q, command)).filter call.Sent = [] := by
      rw [List.eq_nil_iff_forall_not_mem]
      intro x hx
      obtain ⟨y, hy, rfl, hNot⟩ := hNew x hx
      have hIn : (y.1, call.command y.2.2 y.2.1) ∈ call.commands := List.mem_map.mpr ⟨y, hy, rfl⟩
      rw [← hAll] at hIn
      exact hNot (List.mem_of_mem_filter hIn)
    rw [List.filter_append, hNone, List.append_nil, hAll]
  | @butLast before p reply bucket hIssued hPending hBefore hUntold =>
    -- Of the call only the last command can be among them, and only once.
    have hLast : ∀ x ∈ (more.map fun command => (q, command)).filter call.Sent,
        x = (p, call.command bucket reply) := by
      intro x hx
      obtain ⟨y, hy, rfl, hNot⟩ := hNew x hx
      rw [hIssued] at hy
      rcases List.mem_append.mp hy with hEarlier | hHere
      · have hIn : (y.1, call.command y.2.2 y.2.1) ∈
            before.map fun x => (x.1, call.command x.2.2 x.2.1) := List.mem_map.mpr ⟨y, hEarlier, rfl⟩
        rw [← hBefore] at hIn
        exact absurd (List.mem_of_mem_filter hIn) hNot
      · rw [List.mem_singleton.mp hHere]
    have hNodup : ((more.map fun command => (q, command)).filter call.Sent).Nodup := by
      refine List.Nodup.filter _ (List.Nodup.of_map (fun x => x.2.channel) ?_)
      rw [List.map_map]
      exact hTo.nodup hFresh
    cases hFilter : (more.map fun command => (q, command)).filter call.Sent with
    | nil =>
      refine .butLast hIssued hPending ?_ ?_
      · rw [List.filter_append, hFilter, List.append_nil, hBefore]
      · intro host' result hHost' hTold
        rcases hTo.back hStep hHost' with ⟨-, hHost⟩ | ⟨rfl, host, hHost, hWrites⟩
        · exact hUntold host' result hHost hTold
        · rcases hWrites.answers reply result hTold with hOld | ⟨command, hIn, hChannel, hMore⟩
          · exact hUntold host result hHost hOld
          · have hz : (p, reply, bucket) ∈ call.issued := by
              rw [hIssued]
              exact List.mem_append_right _ (List.mem_singleton.mpr rfl)
            have hEq := h.asked _ hz p host hHost command hIn hChannel
            have hWritesTo : command.writes = true := by
              rw [(Prod.mk.inj hEq).2]
              exact call.writes_command _ _
            have hMem : (p, command) ∈
                (more.map fun command => (p, command)).filter call.Sent :=
              List.mem_filter.mpr ⟨List.mem_map.mpr ⟨command, hMore hWritesTo, rfl⟩,
                decide_eq_true ⟨_, hz, hChannel⟩⟩
            rw [hFilter] at hMem
            cases hMem
    | cons x rest =>
      rw [hFilter] at hLast hNodup
      have hRest : rest = [] := by
        rw [List.eq_nil_iff_forall_not_mem]
        intro y hy
        have hSame : y = x :=
          (hLast y (List.mem_cons_of_mem _ hy)).trans (hLast x List.mem_cons_self).symm
        exact (List.nodup_cons.mp hNodup).1 (hSame ▸ hy)
      refine .all ?_
      rw [List.filter_append, hFilter, hRest, hBefore, hLast x List.mem_cons_self, commands, hIssued,
        List.map_append]
      rfl

theorem Leaves.step (h : call.Leaves s written) (hWritten : s.Written histories written)
    (hFresh : s.Fresh) (hStep : s.Steps s') (hTo : s.WritesTo s' q pushed more) :
    call.Leaves s' (written ++ more.map fun command => (q, command)) := by
  refine ⟨fun x hx => (h.used x hx).trans_le hStep.nextReply_le, ?_,
    .step h hWritten hFresh hStep hTo⟩
  intro x hx p host' hHost' command hMem hChannel
  rcases hTo.inbox hStep hHost' hMem with ⟨host, hHost, hIn⟩ | ⟨-, hNewest⟩
  · exact h.asked x hx p host hHost command hIn hChannel
  · exact absurd (hNewest _ hChannel) (Nat.ne_of_lt (h.used x hx))

/-- A change that leaves alone what was sent and what is pending. -/
theorem Leaves.of_same (h : call.Leaves s written) (hIssued : call'.issued = call.issued)
    (hSingle : call'.single = call.single) (hPending : call'.pending = call.pending) :
    call'.Leaves s written := by
  obtain ⟨single, records, todo, pending, issued, positions, status, begun⟩ := call
  obtain ⟨single', records', todo', pending', issued', positions', status', begun'⟩ := call'
  obtain rfl : issued' = issued := hIssued
  obtain rfl : single' = single := hSingle
  obtain rfl : pending' = pending := hPending
  refine ⟨h.used, h.asked, ?_⟩
  cases h.part with
  | all hAll => exact .all hAll
  | butLast hIssued hPending hBefore hUntold => exact .butLast hIssued hPending hBefore hUntold

/-- A step of the call itself. -/
theorem Leaves.own (h : call.Leaves s' written) (hWritten : s'.Written histories written)
    (hFresh : s.Fresh) {effect : Effect} (hOwn : call.Steps s effect call')
    (hHosts : s'.hosts = (s.applied effect).hosts)
    (hNext : s'.nextReply = (s.applied effect).nextReply) : call'.Leaves s' written := by
  cases hOwn with
  | finish hStatus hPending hTodo => exact h.of_same rfl rfl rfl
  | fail hStatus => exact h.of_same rfl rfl rfl
  | abandon hStatus => exact h.of_same rfl rfl rfl
  | settle hStatus hPending hHost hReply hResult =>
    refine ⟨h.used, h.asked, ?_⟩
    cases h.part with
    | all hAll => exact .all hAll
    | butLast hIssued hPending' hBefore hUntold =>
      obtain ⟨rfl, rfl, rfl⟩ := Prod.mk.inj (Option.some.inj (hPending.symm.trans hPending'))
      refine absurd hReply (hUntold _ _ ?_)
      rw [hHosts]
      exact hHost
  | @issue p bucket todo host hStatus hPending hTodo hHost hAccepts =>
    have hSet : s'.hosts = s.hosts.set p (host.push (call.command bucket s.nextReply)) := hHosts
    have hHost' : s'.hosts[p]? = some (host.push (call.command bucket s.nextReply)) := by
      rw [hSet]
      exact List.getElem?_set_self (List.getElem?_eq_some_iff.mp hHost).1
    refine ⟨?_, ?_, ?_⟩
    · intro x hx
      rcases List.mem_append.mp hx with hOld | hNew
      · exact h.used x hOld
      · rw [List.mem_singleton.mp hNew, hNext]
        exact Nat.lt_succ_self _
    · intro x hx q host₁ hHost₁ command hMem hChannel
      rcases List.mem_append.mp hx with hOld | hNew
      · exact h.asked x hOld q host₁ hHost₁ command hMem hChannel
      · obtain rfl := List.mem_singleton.mp hNew
        by_cases hEq : q = p
        · subst hEq
          obtain rfl := Option.some.inj (hHost'.symm.trans hHost₁)
          rcases List.mem_append.mp hMem with hIn | hLast
          · exact absurd (hFresh.channel_lt hHost hIn hChannel) (Nat.lt_irrefl _)
          · rw [List.mem_singleton.mp hLast]
            rfl
        · rw [hSet, List.getElem?_set_ne (Ne.symm hEq)] at hHost₁
          exact absurd (hFresh.channel_lt hHost₁ hMem hChannel) (Nat.lt_irrefl _)
    · cases h.part with
      | butLast hIssued hPending' =>
        rw [hPending] at hPending'
        cases hPending'
      | all hAll =>
        refine .butLast rfl rfl ?_ ?_
        · refine Eq.trans (List.filter_congr fun x hx => ?_) hAll
          have hNot : x.2.channel ≠ some s.nextReply := by
            rw [← call.command_channel bucket s.nextReply]
            exact (hWritten.gone x hx p _ hHost' _ (List.mem_append_right _
              (List.mem_singleton.mpr rfl))).symm
          rw [decide_eq_decide]
          constructor
          · rintro ⟨y, hy, hChannel⟩
            rcases List.mem_append.mp hy with hOld | hNew
            · exact ⟨y, hOld, hChannel⟩
            · rw [List.mem_singleton.mp hNew] at hChannel
              exact absurd hChannel hNot
          · rintro ⟨y, hy, hChannel⟩
            exact ⟨y, List.mem_append_left _ hy, hChannel⟩
        · intro host₁ result hHost₁ hTold
          obtain rfl := Option.some.inj (hHost'.symm.trans hHost₁)
          exact Nat.lt_irrefl _ ((hFresh p host hHost).sent _ hTold)

theorem leaves_begin (hIssued : call.issued = []) : call.Leaves s written := by
  refine ⟨?_, ?_, .all ?_⟩
  · intro x hx
    rw [hIssued] at hx
    cases hx
  · intro x hx
    rw [hIssued] at hx
    cases hx
  · rw [commands, hIssued, List.map_nil, List.filter_eq_nil_iff]
    intro x _ hSent
    obtain ⟨y, hy, -⟩ := of_decide_eq_true hSent
    rw [hIssued] at hy
    cases hy

/-- What is left of a call, in terms of its buckets. -/
theorem Part.buckets (h : call.Part s written) : ∃ count, count ≤ call.issued.length ∧
    call.issued.length ≤ count + 1 ∧ (call.pending = none → count = call.issued.length) ∧
    (written.filter call.Sent) = call.commands.take count := by
  cases h with
  | all hAll =>
    refine ⟨call.issued.length, Nat.le_refl _, Nat.le_succ _, fun _ => rfl, ?_⟩
    rw [hAll, List.take_of_length_le]
    simp [commands]
  | @butLast before p reply bucket hIssued hPending hBefore hUntold =>
    have hLen : call.issued.length = before.length + 1 := by simp [hIssued]
    refine ⟨before.length, by omega, by omega, ?_, ?_⟩
    · intro hNone
      rw [hPending] at hNone
      cases hNone
    · rw [hBefore, commands, hIssued, List.map_append, List.take_left' (by simp)]

end SendCall

namespace Hub

variable {s : Hub} {histories : List (History Record)}
  {sent written : List (Nat × PartitionCommand)}

structure Leaving (histories : List (History Record)) (sent written : List (Nat × PartitionCommand))
    (s : Hub) : Prop where
  stands : s.Written histories written
  queued : s.Queued sent written
  apart : s.Apart
  calls : ∀ (k : Nat) (call : SendCall), s.calls[k]? = some call → call.Leaves s written

theorem Leaving.step {s' : Hub} {event : HubEvent} (h : s.Leaving histories sent written)
    (hFresh : s.Fresh) (hEvent : s.step event = some s') :
    ∃ written', s'.Leaving histories (sent ++ s.sends event) written' := by
  obtain ⟨q, pushed, more, hSends, hTo⟩ := step_writesTo hEvent
  have hStep := step_cases hEvent
  have hWritten := h.stands.step h.apart hFresh hStep hTo
  rw [hSends]
  refine ⟨_, hWritten, h.queued.step hFresh hStep hTo, h.apart.step hFresh hStep hTo, ?_⟩
  intro k call' hCall'
  rcases hStep.call_origin hCall' with
    ⟨call, hCall, rfl | ⟨effect, hOwn, hHosts, hNext⟩⟩ | ⟨single, records, todo, -, -, rfl⟩
  · exact (h.calls k _ hCall).step h.stands hFresh hStep hTo
  · exact ((h.calls k call hCall).step h.stands hFresh hStep hTo).own hWritten hFresh hOwn hHosts
      hNext
  · exact SendCall.leaves_begin rfl

/-- Over a run, with everything it sends. -/
theorem Leaving.run {s' : Hub} {events : List HubEvent} (h : s.Leaving histories sent written)
    (hFresh : s.Fresh) (hRun : s.run events = some s') :
    ∃ written', s'.Leaving histories (sent ++ s.sentBy events) written' := by
  induction events generalizing s sent written with
  | nil =>
    cases hRun
    rw [sentBy, List.append_nil]
    exact ⟨written, h⟩
  | cons event events ih =>
    obtain ⟨s₁, hFirst, hRest⟩ := Option.bind_eq_some_iff.mp hRun
    obtain ⟨written₁, hLeaving⟩ := h.step hFresh hFirst
    rw [sentBy, hFirst, Option.elim_some, ← List.append_assoc]
    exact ih hLeaving (hFresh.steps (step_cases hFirst)) hRest

theorem leaving_start : (start histories).Leaving histories [] [] := by
  refine ⟨written_start, queued_start, ?_, ?_⟩
  · intro p q host host' hHost _ _ command hMem
    obtain ⟨history, -, rfl⟩ := List.mem_map.mp (List.mem_of_getElem? hHost)
    cases hMem
  · intro k call hCall
    cases hCall

/-- What stands in the partitions are whole commands that were sent there, in the order in which
they were sent, each written once: those that were answered with `Ok`. What a call has written are
its first buckets, in the order of the partitions: all of them if it returned `Ok`, and all it has
sent but at most the last if it failed or was dropped. -/
theorem batches_land_whole (hNe : histories ≠ []) {events : List HubEvent}
    (hRun : (start histories).run events = some s) :
    ∃ written : List (Nat × PartitionCommand),
      (∀ p : Nat, (written.filter fun x => x.1 = p).Sublist
        (((start histories).sentBy events).filter fun x => x.1 = p)) ∧
      (∀ x ∈ (start histories).sentBy events, x ∈ written ↔ x.2.writes = true ∧
        ∃ host reply result, s.hosts[x.1]? = some host ∧ x.2.channel = some reply ∧
          (reply, .ok result) ∈ host.sent) ∧
      (written.map fun x => x.2.channel).Nodup ∧
      (∀ (p : Nat) (host : Host), s.hosts[p]? = some host → ∃ h, histories[p]? = some h ∧
        host.history.records =
          h.records ++ (written.filter fun x => x.1 = p).flatMap fun x => x.2.records) ∧
      ∀ (k : Nat) (call : SendCall), s.calls[k]? = some call →
        Division s.hosts.length call.single call.records call.buckets ∧
        (call.buckets.map Prod.fst).Pairwise (· < ·) ∧
        ∃ count ≤ call.buckets.length,
          ((written.filter call.Sent).map fun x => (x.1, x.2.records)) =
            (call.buckets.take count).map (fun x => (x.1, x.2.map Prod.snd)) ∧
          count ≤ call.issued.length ∧ call.issued.length ≤ count + 1 ∧
          ∀ positions, call.status = .returned (.ok positions) → count = call.buckets.length := by
  obtain ⟨written, hLeaving⟩ := leaving_start.run (fresh_start histories) hRun
  rw [List.nil_append] at hLeaving
  have hTracking := tracking_run hNe hRun
  refine ⟨written, ?_, ?_, hLeaving.stands.once, hLeaving.stands.lists, ?_⟩
  · intro p
    cases hHost : s.hosts[p]? with
    | some host => exact (List.sublist_append_left _ _).trans (hLeaving.queued.order p host hHost)
    | none =>
      have hNone : (written.filter fun x => x.1 = p) = [] := by
        rw [List.filter_eq_nil_iff]
        intro x hx hEq
        obtain ⟨host, -, -, hInside, -⟩ := hLeaving.stands.told x hx
        rw [of_decide_eq_true hEq, hHost] at hInside
        cases hInside
      rw [hNone]
      exact List.nil_sublist _
  · intro x hx
    constructor
    · intro hWritten
      exact ⟨hLeaving.queued.writing x hWritten, hLeaving.stands.told x hWritten⟩
    · intro ⟨hWrites, host, reply, result, hHost, hChannel, hTold⟩
      exact hLeaving.queued.answered x hx hWrites host reply result hHost hChannel hTold
  · intro k call hCall
    have hTracks := hTracking.each k call hCall
    obtain ⟨count, hLe, hLast, hSettled, hFilter⟩ := (hLeaving.calls k call hCall).part.buckets
    have hLen : call.buckets.length = call.issued.length + call.todo.length := by
      simp [SendCall.buckets]
    refine ⟨hTracks.division, hTracks.division.ordered, count, by omega, ?_, hLe, hLast, ?_⟩
    · rw [hFilter, SendCall.buckets, List.take_append_of_le_length (by simpa using hLe),
        SendCall.commands, ← List.map_take, ← List.map_take, List.map_map, List.map_map]
      refine List.map_congr_left fun x hx => ?_
      have hIssued : (x.1, x.2.1, x.2.2) ∈ call.issued := List.mem_of_mem_take hx
      have hMem := SendCall.mem_buckets hIssued
      have hRecords := SendCall.records_command
        (fun hSingle => hTracks.division.alone hSingle _ hMem) x.2.1
      exact congrArg (Prod.mk x.1) hRecords
    · intro positions hReturned
      obtain ⟨hTodo, hNone, -⟩ := hTracks.returned positions hReturned
      rw [hLen, hTodo, hSettled hNone]
      rfl

/-- A batch for two partitions of which the second refuses its bucket. -/
def refusedHalfway : List HubEvent :=
  [.sendBatch [⟨1, none, []⟩, ⟨2, none, []⟩, ⟨3, none, []⟩], .call 0 .issue,
    .host 0 (.turn [none]), .signal 0, .call 0 .settle, .call 0 .issue,
    .host 1 (.turn [some .closed]), .signal 1, .call 0 .settle]

theorem batches_land_whole_refused : ∃ (s : Hub) (call : SendCall)
    (written : List (Nat × PartitionCommand)) (count : Nat),
    (start [History.empty, History.empty]).run refusedHalfway = some s ∧
    s.calls[0]? = some call ∧ call.status = .returned (.error .closed) ∧
    (written.filter fun x => x.1 = 0).Sublist
      [(0, .appendBatch [⟨1, none, []⟩, ⟨3, none, []⟩] 0)] ∧
    ((written.filter call.Sent).map fun x => (x.1, x.2.records)) =
      (call.buckets.take count).map (fun x => (x.1, x.2.map Prod.snd)) ∧
    1 ≤ count ∧ count ≤ 2 := by
  obtain ⟨s, call, hRun, hCall, hStatus, hIssued⟩ : ∃ s call,
      (start [History.empty, History.empty]).run refusedHalfway = some s ∧
      s.calls[0]? = some call ∧ call.status = .returned (.error .closed) ∧
      call.issued.length = 2 := ⟨_, _, rfl, rfl, rfl, rfl⟩
  obtain ⟨written, hOrder, -, -, -, hCalls⟩ := batches_land_whole (by simp) hRun
  obtain ⟨-, -, count, -, hSame, hLe, hLast, -⟩ := hCalls 0 call hCall
  exact ⟨s, call, written, count, hRun, hCall, hStatus, hOrder 0, hSame, by omega, by omega⟩

end Hub

end Kafko
