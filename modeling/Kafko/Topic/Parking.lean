import Kafko.Topic.Wakeups

/-!
# The counter of parked consumers

`next_with_position` lowers the counter by hand on every way out of its body: with a record, with
an error, after the wake-up. A future that is dropped leaves on none of these ways. So the counter
is the number of consumers between `mark_parked` and `unmark_parked` together with the number of
calls that were dropped there (`Hub.Balanced`), and it is exact in the runs that drop no parked
call (`parked_exact_iff`).
-/

namespace Kafko

open Disk

namespace Hub

variable {s s' : Hub} {k : Nat}

/-! ## Dropped calls -/

/-- The event drops the future of a call that has marked itself as parked. -/
def dropsParked (s : Hub) : HubEvent → Bool
  | .reader c .cancel => s.readers[c]?.any Reader.isParked
  | _ => false

/-- How many parked calls are dropped in a run. -/
def leaked (s : Hub) : List HubEvent → Nat
  | [] => 0
  | event :: events =>
    (s.dropsParked event).toNat + ((s.step event).map fun s' => s'.leaked events).getD 0

/-- Whenever the future of a call is dropped in the run, the call is not parked. -/
def DropsNoParked (s : Hub) (events : List HubEvent) : Prop :=
  ∀ before c after t r, events = before ++ .reader c .cancel :: after → s.run before = some t →
    t.readers[c]? = some r → r.isParked = false

theorem leaked_cons {event : HubEvent} (h : s.step event = some s') (events : List HubEvent) :
    s.leaked (event :: events) = (s.dropsParked event).toNat + s'.leaked events := by
  rw [leaked, h]
  rfl

theorem run_cons {event : HubEvent} (h : s.step event = some s') (events : List HubEvent) :
    s.run (event :: events) = s'.run events := by
  rw [run, h]
  rfl

theorem dropsParked_eq_false {event : HubEvent} : s.dropsParked event = false ↔
    ∀ c r, event = .reader c .cancel → s.readers[c]? = some r → r.isParked = false := by
  constructor
  · intro h c r hEvent hr
    subst hEvent
    rw [dropsParked, hr] at h
    exact h
  · intro h
    unfold dropsParked
    split
    · next c =>
      cases hr : s.readers[c]? with
      | none => rfl
      | some r => exact h c r rfl hr
    · rfl

/-- By induction on the run: the first event drops nothing, and neither does the rest. -/
theorem leaked_eq_zero_iff {events : List HubEvent} (hRun : s.run events = some s') :
    s.leaked events = 0 ↔ s.DropsNoParked events := by
  induction events generalizing s with
  | nil =>
    refine ⟨?_, fun _ => rfl⟩
    intro _ before c after t r hSplit
    cases before <;> cases hSplit
  | cons event events ih =>
    obtain ⟨s₁, hStep, hRest⟩ := Option.bind_eq_some_iff.mp hRun
    rw [leaked_cons hStep, Nat.add_eq_zero_iff, ih hRest]
    constructor
    · intro ⟨hFirst, hLater⟩ before c after t r hSplit hBefore hr
      have hOff : s.dropsParked event = false := by
        cases hDrops : s.dropsParked event with
        | false => rfl
        | true =>
          rw [hDrops] at hFirst
          cases hFirst
      cases before with
      | nil =>
        obtain ⟨rfl, -⟩ := List.cons.inj hSplit
        cases hBefore
        exact dropsParked_eq_false.mp hOff c r rfl hr
      | cons first before =>
        obtain ⟨rfl, hTail⟩ := List.cons.inj hSplit
        rw [run_cons hStep] at hBefore
        exact hLater before c after t r hTail hBefore hr
    · intro h
      refine ⟨?_, ?_⟩
      · have hOff : s.dropsParked event = false := by
          apply dropsParked_eq_false.mpr
          intro c r hEvent hr
          subst hEvent
          exact h [] c events s r rfl rfl hr
        rw [hOff]
        rfl
      · intro before c after t r hSplit hBefore hr
        apply h (event :: before) c after t r
        · rw [hSplit]
          rfl
        · rw [run_cons hStep]
          exact hBefore
        · exact hr

/-! ## One step -/

/-- A parked call that is at its end with the counter unmoved was dropped. -/
theorem cancel_of_idle {c : Nat} {r r' : Reader} {event : ReaderEvent}
    (h : s.readerStep c r event = some s') (hr : s.readers[c]? = some r)
    (hParked : r.isParked = true) (hPos : 0 < s.parked) (hSame : s'.parked = s.parked)
    (hr' : s'.readers[c]? = some r') (hIdle : r'.stage = .idle) : event = .cancel := by
  have hOther : ∀ r₁ : Reader, s'.readers = s.readers.set c r₁ → r₁.stage = .idle := by
    intro r₁ hSet
    rw [hSet, List.getElem?_set_self (List.getElem?_eq_some_iff.mp hr).1] at hr'
    rw [Option.some.inj hr']
    exact hIdle
  have hStageAt : ∀ i, r.stageAt true i ≠ .idle := by
    intro i
    rcases r.stageAt_cases true i with hAt | ⟨-, ⟨-, hAt⟩ | ⟨-, hAt⟩⟩ <;> rw [hAt] <;> simp
  rw [Reader.isParked] at hParked
  cases event with
  | next =>
    simp only [readerStep, Option.bind_eq_bind, Option.bind_eq_some_iff, Option.guard_eq_some',
      Option.pure_def, Option.some.injEq] at h
    obtain ⟨_, hStage, rfl⟩ := h
    rw [hStage] at hParked
    cases hParked
  | ask =>
    rw [readerStep] at h
    split at h
    · next again i hStage =>
      rw [hStage] at hParked
      subst hParked
      obtain ⟨host, hHost, hRest⟩ := Option.bind_eq_some_iff.mp h
      split at hRest
      · obtain ⟨s₁, hSend, hEq⟩ := Option.bind_eq_some_iff.mp hRest
        rw [enqueue_eq hSend] at hEq
        cases hEq
        cases hOther _ rfl
      · cases hRest
        cases hOther _ rfl
    · cases h
  | receive =>
    rw [readerStep] at h
    split at h
    · next again i reply hStage =>
      rw [hStage] at hParked
      subst hParked
      obtain ⟨host, hHost, hRest⟩ := Option.bind_eq_some_iff.mp h
      split at hRest
      · cases hRest
        cases hOther _ rfl
      · cases hRest
        exact (hStageAt _ (hOther _ rfl)).elim
      · cases hRest
        cases hOther _ rfl
      · obtain ⟨_, -, hEq⟩ := Option.bind_eq_some_iff.mp hRest
        cases hEq
        cases hOther _ rfl
    · cases h
  | park =>
    simp only [readerStep, Option.bind_eq_bind, Option.bind_eq_some_iff, Option.guard_eq_some',
      Option.pure_def, Option.some.injEq] at h
    obtain ⟨_, hStage, rfl⟩ := h
    cases hOther _ rfl
  | enable =>
    simp only [readerStep, Option.bind_eq_bind, Option.bind_eq_some_iff, Option.guard_eq_some',
      Option.pure_def, Option.some.injEq] at h
    obtain ⟨_, hStage, rfl⟩ := h
    exact (hStageAt _ (hOther _ rfl)).elim
  | wake =>
    simp only [readerStep, Option.bind_eq_bind, Option.bind_eq_some_iff, Option.guard_eq_some',
      Option.pure_def, Option.some.injEq] at h
    obtain ⟨_, hStage, rfl⟩ := h
    cases hOther _ rfl
  | unmark =>
    rw [readerStep] at h
    split at h
    · next loop hStage =>
      cases h
      change s.parked - 1 = s.parked at hSame
      omega
    · cases h
  | cancel => rfl

/-- The counter is `k` above the number of parked consumers. -/
def Balanced (s : Hub) (k : Nat) : Prop := s.parked = s.readers.countP Reader.isParked + k

theorem Balanced.parked_pos (h : s.Balanced k) {c : Nat} {r : Reader} (hr : s.readers[c]? = some r)
    (hParked : r.isParked = true) : 0 < s.parked := by
  have hCount := List.countP_pos_iff.mpr ⟨r, List.mem_of_getElem? hr, hParked⟩
  rw [h]
  omega

theorem Balanced.reader (h : s.Balanced k) {c : Nat} {r : Reader} {event : ReaderEvent}
    (hr : s.readers[c]? = some r) (hStep : s.readerStep c r event = some s') :
    s'.Balanced (k + (s.dropsParked (.reader c event)).toNat) := by
  have hBefore : s.parked = s.readers.countP Reader.isParked + k := h
  by_cases hCancel : event = .cancel
  · subst hCancel
    simp only [readerStep, Option.bind_eq_bind, Option.bind_eq_some_iff, Option.guard_eq_some',
      Option.pure_def, Option.some.injEq] at hStep
    obtain ⟨_, -, rfl⟩ := hStep
    have hSet := countP_isParked_set hr { r with stage := .idle, future := none }
    have hOff : { r with stage := .idle, future := none }.isParked = false := rfl
    rw [hOff, Bool.toNat_false] at hSet
    have hDrops : s.dropsParked (.reader c .cancel) = r.isParked := by
      rw [dropsParked, hr]
      rfl
    rw [hDrops]
    show s.parked = (s.readers.set c _).countP Reader.isParked + (k + r.isParked.toNat)
    omega
  · have hKeeps : s.dropsParked (.reader c event) = false := by
      apply dropsParked_eq_false.mpr
      intro c' r' hEvent
      cases hEvent
      exact absurd rfl hCancel
    obtain ⟨effect, r', hOwn, hEq, -⟩ := readerStep_cases hStep
    have hSet := countP_isParked_set hr r'
    have hReaders : s'.readers = s.readers.set c r' := by
      rw [hEq]
      show (s.applied effect).readers.set c r' = _
      rw [applied_readers]
    have hCounter : s'.parked = (s.applied effect).parked := by
      rw [hEq]
      rfl
    rw [hKeeps]
    show s'.parked = s'.readers.countP Reader.isParked + k
    rw [hReaders, hCounter]
    rcases hOwn.balance (h.parked_pos hr) with hMoved | ⟨rfl, hIdle⟩
    · omega
    · have hOff : r.isParked = false := by
        by_contra hOn
        have hParked : r.isParked = true := Bool.eq_true_of_not_eq_false hOn
        have hAt : s'.readers[c]? = some r' := by
          rw [hReaders]
          exact List.getElem?_set_self (List.getElem?_eq_some_iff.mp hr).1
        exact hCancel (cancel_of_idle hStep hr hParked (h.parked_pos hr hParked) hCounter hAt hIdle)
      have hOff' : r'.isParked = false := by rw [Reader.isParked, hIdle]
      rw [hOff, hOff'] at hSet
      show s.parked = _
      omega

/-- Nobody else touches the counter or the stage of a consumer. -/
theorem Balanced.steps (h : s.Balanced k) {event : HubEvent} (hStep : s.step event = some s') :
    s'.Balanced (k + (s.dropsParked event).toNat) := by
  cases event with
  | reader c event =>
    obtain ⟨r, hr, hOwn⟩ := Option.bind_eq_some_iff.mp hStep
    exact h.reader hr hOwn
  | join cursors =>
    obtain ⟨-, rfl⟩ := join_cases hStep
    show s.parked = (s.readers ++ [_]).countP Reader.isParked + k
    rw [List.countP_append]
    exact h
  | send record =>
    cases hStep
    exact h
  | sendBatch records =>
    cases hStep
    exact h
  | sendAmong record drawn roundRobin =>
    cases hStep
    exact h
  | sendBatchAmong drawn roundRobin =>
    cases hStep
    exact h
  | call j event =>
    obtain ⟨call, hCall, hOwn⟩ := Option.bind_eq_some_iff.mp hStep
    obtain ⟨effect, call', hSteps, rfl, -⟩ := callStep_cases hOwn
    have hSame : (s.applied effect).parked = s.parked := by cases hSteps <;> rfl
    show (s.applied effect).parked = (s.applied effect).readers.countP Reader.isParked + k
    rw [applied_readers, hSame]
    exact h
  | command p command =>
    obtain ⟨host, -, -, rfl⟩ := command_cases hStep
    exact h
  | host p event =>
    obtain ⟨host, host', -, -, rfl⟩ := host_cases hStep
    exact h
  | signal p =>
    obtain ⟨host, last, -, -, ⟨-, rfl⟩ | ⟨-, rfl⟩⟩ := signal_cases hStep
    · exact h
    · exact h
  | notify p =>
    obtain ⟨host, last, -, -, rfl⟩ := notify_cases hStep
    show s.parked = (s.readers.map _).countP Reader.isParked + k
    rw [List.countP_map]
    exact h

/-! ## Every run -/

/-- The counter is above the number of parked consumers by the calls that were dropped while they
were parked. -/
theorem Balanced.run (h : s.Balanced k) {events : List HubEvent} (hRun : s.run events = some s') :
    s'.Balanced (k + s.leaked events) := by
  induction events generalizing s k with
  | nil =>
    cases hRun
    exact h
  | cons event events ih =>
    obtain ⟨s₁, hStep, hRest⟩ := Option.bind_eq_some_iff.mp hRun
    rw [leaked_cons hStep, ← Nat.add_assoc]
    exact ih (h.steps hStep) hRest

/-- The counter does what it is for. -/
structure ParkedExact (s : Hub) : Prop where
  exact : s.parked = s.readers.countP Reader.isParked
  /-- No call of `next_with_position` is in progress. -/
  rest : (∀ r ∈ s.readers, r.stage = .idle) → s.parked = 0
  /-- The writer takes the way through `notify_waiters`. -/
  pulse : ∀ p s' host last, s.step (.signal p) = some s' → s'.hosts[p]? = some host →
    host.phase = .notifying last → ∃ r ∈ s.readers, r.isParked = true

/-- The notify path is taken on a counter above zero only. -/
theorem parked_pos_of_notifying {p : Nat} {host : Host} {last : Bool}
    (hStep : s.step (.signal p) = some s') (hHost : s'.hosts[p]? = some host)
    (hPhase : host.phase = .notifying last) : 0 < s.parked := by
  obtain ⟨before, hBefore, hRest⟩ := Option.bind_eq_some_iff.mp hStep
  split at hRest
  · next last' hSignalling =>
    split at hRest
    · next hPos => exact hPos
    · cases hRest
      rw [show (s.setHost p _).hosts[p]? = some _ from
        List.getElem?_set_self (List.getElem?_eq_some_iff.mp hBefore).1] at hHost
      obtain rfl := Option.some.inj hHost
      cases last' <;> cases hPhase
  · cases hRest

theorem parkedExact_of_eq (h : s.parked = s.readers.countP Reader.isParked) : s.ParkedExact := by
  refine ⟨h, ?_, ?_⟩
  · intro hIdle
    rw [h, List.countP_eq_zero]
    intro r hr
    rw [Reader.isParked, hIdle r hr]
    simp
  · intro p s' host last hStep hHost hPhase
    have hPos := parked_pos_of_notifying hStep hHost hPhase
    rw [h] at hPos
    exact List.countP_pos_iff.mp hPos

/-- After a run the counter is exact if and only if the run drops no parked call. -/
theorem parked_exact_iff {histories : List (History Record)} {events : List HubEvent}
    (hRun : (start histories).run events = some s) :
    s.ParkedExact ↔ (start histories).DropsNoParked events := by
  have hStart : (start histories).Balanced 0 := rfl
  have hEnd : s.parked = s.readers.countP Reader.isParked +
      (0 + (start histories).leaked events) := hStart.run hRun
  rw [← leaked_eq_zero_iff hRun]
  constructor
  · intro h
    have hExact := h.exact
    omega
  · intro h
    apply parkedExact_of_eq
    omega

/-- A consumer is woken up and goes round again; dropping its call in the first scan is harmless. -/
theorem parked_exact_wokenUp : ∃ s, (start [History.empty]).run (fallAsleep ++ [.signal 0,
    .notify 0, .reader 0 .wake, .reader 0 .unmark, .reader 0 .cancel]) = some s ∧
    s.ParkedExact := by
  refine ⟨_, rfl, ?_⟩
  have hRun : (start [History.empty]).run (fallAsleep ++ [.signal 0, .notify 0, .reader 0 .wake,
    .reader 0 .unmark, .reader 0 .cancel]) = some _ := rfl
  exact (parked_exact_iff hRun).mpr ((leaked_eq_zero_iff hRun).mp rfl)

/-- The call of a consumer is dropped while it sleeps: the counter stays at one with nobody left,
and the next signal takes the notify path. -/
theorem dropped_asleep_leaks : ∃ s s' host,
    (start [History.empty]).run (fallAsleep ++ [.reader 0 .cancel]) = some s ∧
    (∀ r ∈ s.readers, r.stage = .idle) ∧ s.parked = 1 ∧ s.step (.signal 0) = some s' ∧
    s'.hosts[0]? = some host ∧ host.phase = .notifying false ∧ ¬ s.ParkedExact := by
  refine ⟨_, _, _, rfl, ?_, rfl, rfl, rfl, rfl, ?_⟩
  · intro r hr
    obtain rfl := List.mem_singleton.mp hr
    rfl
  · intro hExact
    have hCount := hExact.exact
    cases hCount

end Hub

end Kafko
