import Kafko.Topic.Progress

/-!
# Who waits goes on

A call of a consumer or a producer waits for room in an inbox, for a reply, or for a notification.
With writers that are scheduled fairly it does not wait for ever: a command that has been sent is
settled, which is to say answered or left behind by a writer that has ended, and an inbox that is
full has room again. So a consumer that is not asleep takes its next step (`reader_occurs`).
-/

namespace Kafko

open Disk Systems

variable {histories : List (History Record)} {e : Execution (Hub.courses histories)} {s s' : Hub}
  {p c reply : Nat} {event : HubEvent}

/-! ## Waiting for a reply -/

namespace Hub

/-- The command with this reply channel waits, or was answered, or the writer is gone. -/
def Pends (s : Hub) (p reply : Nat) : Prop :=
  ∃ host, s.hosts[p]? = some host ∧
    ((∃ command ∈ host.inbox, command.channel = some reply) ∨ host.Settles reply)

theorem Pends.step (h : s.Pends p reply) (hStep : s.step event = some s') : s'.Pends p reply := by
  obtain ⟨host, hHost, hCase⟩ := h
  obtain ⟨host', hHost', hSees⟩ := step_sees hStep hHost
  refine ⟨host', hHost', ?_⟩
  rcases hCase with ⟨command, hMem, hChannel⟩ | hSettles
  · obtain ⟨before, hFront⟩ := Host.front_of_mem hMem
    by_cases hRecv : event.Recv p
    · rcases hSees.recv hRecv hFront hChannel with hSettles | ⟨before', -, hFront'⟩
      · exact Or.inr hSettles
      · exact Or.inl ⟨command, Host.mem_of_front hFront', hChannel⟩
    · exact Or.inl ⟨command, Host.mem_of_front (hSees.front (by simp) hFront hRecv).1, hChannel⟩
  · exact Or.inr (hSettles.sees hSees)

theorem Pends.push {host : Host} {command : PartitionCommand} (hHost : s.hosts[p]? = some host)
    (hChannel : command.channel = some reply) (hHosts : s'.hosts = s.hosts.set p (host.push command)) :
    s'.Pends p reply := by
  refine ⟨host.push command, ?_, Or.inl ⟨command, ?_, hChannel⟩⟩
  · rw [hHosts]
    exact List.getElem?_set_self (List.getElem?_eq_some_iff.mp hHost).1
  · exact List.mem_append_right _ (List.mem_singleton.mpr rfl)

/-- A command that pends is settled sooner or later. -/
theorem settles_of_pends (hWriters : FairWriters e) :
    Leads (fun t => (e.state t).Pends p reply) fun t => (e.state t).Settles p reply := by
  intro t hPends
  obtain ⟨host, hHost, ⟨command, hMem, hChannel⟩ | hSettles⟩ := hPends
  · exact settles_of_inbox hWriters hChannel t ⟨host, hHost, hMem⟩
  · exact ⟨t, Nat.le_refl t, host, hHost, hSettles⟩

/-! ## The consumer and the others -/

/-- An event seen from a consumer: its own, or one that may notify it. -/
theorem step_reader {r : Reader} (h : s.step event = some s') (hr : s.readers[c]? = some r) :
    (∃ inner effect r', event = .reader c inner ∧ s.readerStep c r inner = some s' ∧
      r.Steps s effect r' ∧ s' = (s.applied effect).setReader c r' ∧
      s'.readers[c]? = some r') ∨
    ((∀ inner, event ≠ .reader c inner) ∧ (s'.readers[c]? = some r ∨
      s'.readers[c]? = some { r with future := r.future.map fun _ => true })) := by
  cases event with
  | join cursors =>
    obtain ⟨-, rfl⟩ := join_cases h
    refine Or.inr ⟨by simp, Or.inl ?_⟩
    change (s.readers ++ _)[c]? = some r
    rw [List.getElem?_append_left (List.getElem?_eq_some_iff.mp hr).1, hr]
  | reader d inner =>
    obtain ⟨r₀, hr₀, hStep⟩ := Option.bind_eq_some_iff.mp h
    change s.readerStep d r₀ inner = some s' at hStep
    obtain ⟨effect, r', hSteps, rfl, -⟩ := readerStep_cases hStep
    have hReaders : ((s.applied effect).setReader d r').readers = s.readers.set d r' := by
      rw [← applied_readers (s := s) effect]
      rfl
    by_cases hEq : d = c
    · subst hEq
      obtain rfl : r₀ = r := Option.some.inj (hr₀.symm.trans hr)
      refine Or.inl ⟨inner, effect, r', rfl, hStep, hSteps, rfl, ?_⟩
      rw [hReaders]
      exact List.getElem?_set_self (List.getElem?_eq_some_iff.mp hr).1
    · refine Or.inr ⟨fun inner' hSame => hEq (HubEvent.reader.inj hSame).1, Or.inl ?_⟩
      rw [hReaders, List.getElem?_set_ne hEq, hr]
  | call j inner =>
    obtain ⟨call, -, hStep⟩ := Option.bind_eq_some_iff.mp h
    change s.callStep j call inner = some s' at hStep
    obtain ⟨effect, call', -, rfl, -⟩ := callStep_cases hStep
    refine Or.inr ⟨by simp, Or.inl ?_⟩
    change (s.applied effect).readers[c]? = some r
    rw [applied_readers, hr]
  | command q command =>
    obtain ⟨host, -, -, rfl⟩ := command_cases h
    exact Or.inr ⟨by simp, Or.inl hr⟩
  | host q inner =>
    obtain ⟨host, host', -, -, rfl⟩ := host_cases h
    exact Or.inr ⟨by simp, Or.inl hr⟩
  | signal q =>
    refine Or.inr ⟨by simp, Or.inl ?_⟩
    obtain ⟨host, last, -, -, ⟨-, rfl⟩ | ⟨-, rfl⟩⟩ := signal_cases h
    · exact hr
    · exact hr
  | notify q =>
    obtain ⟨host, last, -, -, rfl⟩ := notify_cases h
    refine Or.inr ⟨by simp, Or.inr ?_⟩
    change (s.readers.map _)[c]? = _
    rw [List.getElem?_map, hr]
    rfl
  | _ =>
    cases h
    exact Or.inr ⟨by simp, Or.inl hr⟩

/-- A consumer that waits for a reply has its question in the inbox, or it is settled. -/
def Engaged (s : Hub) : Prop :=
  ∀ (c : Nat) (r : Reader), s.readers[c]? = some r → ∀ again i reply,
    r.stage = .awaiting again i reply → s.Pends (r.consumer.scanIndex i) reply

theorem Engaged.step (h : s.Engaged) (hStep : s.step event = some s') : s'.Engaged := by
  intro c r' hr' again i reply hStage
  have hSteps := step_cases hStep
  have hMem : r' ∈ s'.readers := List.mem_of_getElem? hr'
  have hKept : ∀ r ∈ s.readers, r.consumer = r'.consumer → r.stage = r'.stage →
      s'.Pends (r'.consumer.scanIndex i) reply := by
    intro r hr hConsumer hSame
    obtain ⟨d, hd⟩ := List.mem_iff_getElem?.mp hr
    rw [← hConsumer]
    exact (h d r hd again i reply (hSame.trans hStage)).step hStep
  rcases hSteps.reader_origin hMem with
    ⟨cursors, -, rfl⟩ | ⟨r, hr, effect, hOwn, hHosts, -⟩ | hOld | ⟨r, hr, rfl⟩
  · cases hStage
  · cases hOwn with
    | ask hAsking hHost hAccepts =>
      cases hStage
      exact .push hHost rfl hHosts
    | next hIdle => exact absurd hStage (Reader.stageAt_ne_awaiting _ _ _ _ _)
    | leave hAsking =>
      rename_i again'
      cases again' <;> cases hStage
    | take hAwaiting hHost hReply =>
      rename_i again' _ _ _ _
      cases again' <;> cases hStage
    | miss hAwaiting hHost hReply hMiss =>
      exact absurd hStage (Reader.stageAt_ne_awaiting _ _ _ _ _)
    | park hCaughtUp => cases hStage
    | enable hMarked => exact absurd hStage (Reader.stageAt_ne_awaiting _ _ _ _ _)
    | wake hWaiting hFuture => cases hStage
    | unmark hUnmarking =>
      rename_i loop
      cases loop
      · cases hStage
      · exact absurd hStage (Reader.stageAt_ne_awaiting _ _ _ _ _)
    | cancel hAwait => cases hStage
  · exact hKept r' hOld rfl rfl
  · exact hKept r hr rfl rfl

theorem engaged_at (e : Execution (courses histories)) (t : Nat) : (e.state t).Engaged := by
  refine Execution.always (e := e) (fun _ _ _ h hStep => h.step hStep) ?_ (Nat.zero_le t)
  rw [show e.state 0 = start histories from e.starts]
  intro c r hr
  cases hr

/-! ## The consumer goes on -/

theorem hosts_length_at (e : Execution (courses histories)) (t : Nat) :
    (e.state t).hosts.length = histories.length := by
  refine Execution.always (e := e) (I := fun s => s.hosts.length = histories.length)
    (fun _ _ _ h hStep => (step_cases hStep).hosts_length.trans h) ?_ (Nat.zero_le t)
  rw [show e.state 0 = start histories from e.starts]
  exact List.length_map _

/-- The partition in the `i`-th place of a scan. -/
theorem host_scanned (e : Execution (courses histories)) (hTopic : histories ≠ []) {t : Nat}
    {r : Reader} (hr : (e.state t).readers[c]? = some r) (i : Nat) :
    ∃ host, (e.state t).hosts[r.consumer.scanIndex i]? = some host := by
  have hSized := ((delivering_at e t).watching.each r (List.mem_of_getElem? hr)).sized
  have hLt : r.consumer.scanIndex i < (e.state t).hosts.length := by
    rw [← hSized]
    apply Nat.mod_lt
    rw [hSized, hosts_length_at]
    exact List.length_pos_iff.mpr hTopic
  exact ⟨_, List.getElem?_eq_getElem hLt⟩

theorem enabled_ask {r : Reader} {again : Bool} {i : Nat} {host : Host}
    (hr : s.readers[c]? = some r) (hStage : r.stage = .asking again i)
    (hHost : s.hosts[r.consumer.scanIndex i]? = some host)
    (hRoom : host.accepts = true → host.inbox.length < inboxCapacity) :
    (courses histories).Enabled (fun event => event = .reader c .ask) s := by
  refine enabled_of_step (.reader c .ask) rfl ?_
  by_cases hAccepts : host.accepts = true
  · simp [step, readerStep, hr, hStage, hHost, hAccepts, enqueue, guard, hRoom hAccepts]
  · simp [step, readerStep, hr, hStage, hHost, hAccepts]

theorem enabled_receive {r : Reader} {again : Bool} {i : Nat} (hr : s.readers[c]? = some r)
    (hStage : r.stage = .awaiting again i reply)
    (hSettles : s.Settles (r.consumer.scanIndex i) reply) :
    (courses histories).Enabled (HubEvent.Continues c) s := by
  obtain ⟨host, hHost, hSettled⟩ := hSettles
  refine enabled_of_step _ (.continues .receive (by simp) (by simp)) ?_
  cases hReply : host.reply? reply with
  | some result =>
    simp only [step, hr, Option.bind_some, Option.bind_eq_bind, readerStep, hStage, hHost, hReply]
    split
    · rfl
    · rfl
    · rfl
    · next hNone => cases hNone
  | none =>
    have hEnded : host.phase = .ended := by
      rcases hSettled with ⟨result, hMem⟩ | hEnded
      · have hFind := List.find?_eq_none.mp (Option.map_eq_none_iff.mp hReply) _ hMem
        simp at hFind
      · exact hEnded
    simp [step, hr, readerStep, hStage, hHost, hReply, guard, hEnded]

/-- The steps of a consumer that depend on nobody. -/
theorem enabled_continues {r : Reader} (hr : s.readers[c]? = some r)
    (hStage : r.stage = .caughtUp ∨ r.stage = .marked ∨ (∃ loop, r.stage = .unmarking loop) ∨
      r.stage = .waiting ∧ r.future = some true) :
    (courses histories).Enabled (HubEvent.Continues c) s := by
  rcases hStage with hStage | hStage | ⟨loop, hStage⟩ | ⟨hStage, hFuture⟩
  · refine enabled_of_step _ (.continues .park (by simp) (by simp)) ?_
    simp [step, hr, readerStep, hStage, guard]
  · refine enabled_of_step _ (.continues .enable (by simp) (by simp)) ?_
    simp [step, hr, readerStep, hStage, guard]
  · refine enabled_of_step _ (.continues .unmark (by simp) (by simp)) ?_
    simp [step, hr, readerStep, hStage]
  · refine enabled_of_step _ (.continues .wake (by simp) (by simp)) ?_
    simp [step, hr, readerStep, hStage, hFuture, guard]

/-- A consumer that is not asleep goes on. -/
theorem reader_occurs (hTopic : histories ≠ []) (hWriters : FairWriters e) (hReader : FairReader e c)
    (consumer : Consumer) (stage : Stage) {P : Nat → Prop}
    (hStands : ∀ t, P t → ∃ r, (e.state t).readers[c]? = some r ∧ r.consumer = consumer ∧
      r.stage = stage ∧ (stage = .waiting → r.future = some true))
    (hIdle : stage = .idle → e.WeaklyFair fun event => event = .reader c .next)
    (hStay : ∀ t, P t → ¬ e.Occurs (HubEvent.Of c) t → P (t + 1)) :
    Leads P fun t => P t ∧ e.Occurs (HubEvent.Of c) t := by
  have hFree : (stage = .caughtUp ∨ stage = .marked ∨ (∃ loop, stage = .unmarking loop) ∨
      stage = .waiting) → Leads P fun t => P t ∧ e.Occurs (HubEvent.Of c) t := by
    intro hFree
    refine Execution.weak_occurs hReader.continues ?_ hStay ?_
    · intro event hContinues
      obtain ⟨inner, -, -⟩ := hContinues
      exact .of inner
    · intro t hP
      obtain ⟨r, hr, -, rfl, hFuture⟩ := hStands t hP
      apply enabled_continues hr
      rcases hFree with hStage | hStage | hStage | hStage
      · exact Or.inl hStage
      · exact Or.inr (Or.inl hStage)
      · exact Or.inr (Or.inr (Or.inl hStage))
      · exact Or.inr (Or.inr (Or.inr ⟨hStage, hFuture hStage⟩))
  cases stage with
  | idle =>
    refine Execution.weak_occurs (hIdle rfl) ?_ hStay ?_
    · rintro event rfl
      exact .of .next
    · intro t hP
      obtain ⟨r, hr, -, hStage, -⟩ := hStands t hP
      refine enabled_of_step (.reader c .next) rfl ?_
      simp [step, hr, readerStep, hStage, guard]
  | asking again i =>
    refine Execution.strong_occurs hReader.asks ?_ hStay ?_
    · rintro event rfl
      exact .of .ask
    · intro t hP
      obtain ⟨r, hr, rfl, hStage, -⟩ := hStands t hP
      obtain ⟨host, hHost⟩ := host_scanned e hTopic hr i
      obtain ⟨u, hu, host', hHost', hRoom⟩ := room_of_full hWriters hHost
      rcases Leads.keep hStay hP hu with hPu | ⟨v, hv, hPv, hNow⟩
      · obtain ⟨r', hr', hConsumer, hStage', -⟩ := hStands u hPu
        rw [← hConsumer] at hHost'
        exact ⟨u, hu, Or.inl (enabled_ask hr' hStage' hHost' hRoom)⟩
      · exact ⟨v, hv, Or.inr ⟨hPv, hNow⟩⟩
  | awaiting again i reply =>
    intro t hP
    obtain ⟨r, hr, hConsumer, hStage, -⟩ := hStands t hP
    obtain ⟨u, hu, hSettles⟩ := settles_of_pends hWriters t (engaged_at e t c r hr again i reply hStage)
    rcases Leads.keep hStay hP hu with hPu | ⟨v, hv, hPv, hNow⟩
    · have hOccurs := Execution.weak_occurs (B := HubEvent.Of c) hReader.continues
        (P := fun t => P t ∧ (e.state t).Settles (consumer.scanIndex i) reply) ?_ ?_ ?_
      · rw [hConsumer] at hSettles
        obtain ⟨v, hv, hBoth, hNow⟩ := hOccurs u ⟨hPu, hSettles⟩
        exact ⟨v, hu.trans hv, hBoth.1, hNow⟩
      · intro event hContinues
        obtain ⟨inner, -, -⟩ := hContinues
        exact .of inner
      · exact fun t h hNot => ⟨hStay t h.1 hNot, h.2.later (Nat.le_succ t)⟩
      · intro t h
        obtain ⟨r, hr, rfl, hStage, -⟩ := hStands t h.1
        exact enabled_receive hr hStage h.2
    · exact ⟨v, hv, hPv, hNow⟩
  | caughtUp => exact hFree (Or.inl rfl)
  | marked => exact hFree (Or.inr (Or.inl rfl))
  | unmarking loop => exact hFree (Or.inr (Or.inr (Or.inl ⟨loop, rfl⟩)))
  | waiting => exact hFree (Or.inr (Or.inr (Or.inr rfl)))

end Hub

end Kafko
