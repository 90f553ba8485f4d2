import Kafko.Offsets.Isolation

/-!
# One commit, wherever it stops

A call of `commit` is a run of the desk whose events all belong to one seat and one vector: the
temporary file is created, pieces of the encoding are written, the file is synced and renamed;
at any point an operation may fail or the machine may stop, and a call that failed may be made
again. The group's own file changes only at the rename, so whether the rename is among the events
decides what is found afterwards. What earlier calls left in the temporary file does not matter,
because the file is emptied when it is created.
-/

namespace Kafko

open Disk

namespace Desk

variable {X : Crates} {partitionCount : Nat} {groups : List String} {s s' : Desk}
  {seat : Nat} {group : String} {offsets : List UInt64}

/-- The events of a call of `commit` with `offsets`, and those that end it early. -/
inductive OfCall (seat : Nat) (offsets : List UInt64) : DeskEvent → Prop
  | create : OfCall seat offsets (.create seat offsets)
  | write (len : Nat) : OfCall seat offsets (.write seat len)
  | sync : OfCall seat offsets (.sync seat)
  | rename : OfCall seat offsets (.rename seat)
  | fail : OfCall seat offsets (.fail seat)
  | crash (kept : Nat → Nat) : OfCall seat offsets (.crash kept)

/-- The seat, if it is still there, belongs to the group, and a commit in progress is one of
`offsets`. -/
def Seated (s : Desk) (seat : Nat) (group : String) (offsets : List UInt64) : Prop :=
  ∀ t, s.seats[seat]? = some t →
    t.store.group = group ∧ ∀ c, t.commit = some c → c.offsets = offsets

theorem seat_setSeat {store : OffsetStore} {commit : Option Commit} {t : Seat}
    (h : (s.setSeat seat store commit).seats[seat]? = some t) : t = ⟨store, commit⟩ := by
  change (s.seats.set seat ⟨store, commit⟩)[seat]? = some t at h
  rw [List.getElem?_set_self'] at h
  obtain ⟨_, -, hEq⟩ := Option.map_eq_some_iff.mp h
  exact hEq.symm

theorem Seated.of_busy (h : s.Seated seat group offsets) {store : OffsetStore} {c : Commit}
    (hBusy : s.busy seat = some (store, c)) : store.group = group ∧ c.offsets = offsets := by
  obtain ⟨hGroup, hCommit⟩ := h _ (busy_eq_some.mp hBusy)
  exact ⟨hGroup, hCommit c rfl⟩

/-- The seat gets on with its call; store and completed commits stay as they are. -/
theorem Seated.goesOn (h : s.Seated seat group offsets) {store : OffsetStore}
    (commit : Option Commit) (dir : Links String) {t : Seat} (hSeat : s.seats[seat]? = some t)
    (hStore : t.store = store)
    (hCommit : ∀ c, commit = some c → c.offsets = offsets) :
    ({ s with dir := dir }.setSeat seat store commit).Seated seat group offsets ∧
      ({ s with dir := dir }.setSeat seat store commit).lastCommitted group =
        s.lastCommitted group ∧
      ∀ t', ({ s with dir := dir }.setSeat seat store commit).seats[seat]? = some t' →
        ∃ t, s.seats[seat]? = some t ∧ t'.store = t.store := by
  refine ⟨?_, rfl, ?_⟩
  · intro t' ht'
    rw [seat_setSeat ht']
    exact ⟨hStore ▸ (h t hSeat).1, hCommit⟩
  · intro t' ht'
    rw [seat_setSeat ht']
    exact ⟨t, hSeat, hStore.symm⟩

/-- What an event of a call does to the group's committed offsets, in memory and on record. -/
theorem call_step (hSound : s.Sound X partitionCount groups)
    (hSeated : s.Seated seat group offsets) {event : DeskEvent} (hCall : OfCall seat offsets event)
    (hStep : s.step X partitionCount event = some s') :
    s'.Seated seat group offsets ∧
      (event ≠ .rename seat → s'.lastCommitted group = s.lastCommitted group ∧
        ∀ t', s'.seats[seat]? = some t' → ∃ t, s.seats[seat]? = some t ∧ t'.store = t.store) ∧
      (event = .rename seat → s'.lastCommitted group = some offsets ∧
        ∀ t', s'.seats[seat]? = some t' → t'.store = ⟨group, offsets⟩) := by
  cases hCall with
  | create =>
    cases step_cases hStep with
    | @create _ _ store hIdle hCount =>
      obtain ⟨hNext, hLast, hStore⟩ := hSeated.goesOn (some ⟨offsets, _, 0, false⟩)
        (s.dir.create store.tempPath).1 (idle_eq_some.mp hIdle) rfl
        (fun c hc => by cases hc; rfl)
      exact ⟨hNext, fun _ => ⟨hLast, hStore⟩, fun hEvent => by cases hEvent⟩
  | write len =>
    cases step_cases hStep with
    | @write _ _ store c chunk hBusy hOpen hChunk =>
      obtain ⟨hNext, hLast, hStore⟩ := hSeated.goesOn
        (some { c with written := c.written + chunk.length })
        (s.dir.writeAt c.handle c.written chunk) (busy_eq_some.mp hBusy) rfl
        (fun c' hc' => by cases hc'; exact (hSeated.of_busy hBusy).2)
      exact ⟨hNext, fun _ => ⟨hLast, hStore⟩, fun hEvent => by cases hEvent⟩
  | sync =>
    cases step_cases hStep with
    | @sync _ store c hBusy hWhole =>
      obtain ⟨hNext, hLast, hStore⟩ := hSeated.goesOn (some { c with synced := true })
        (s.dir.syncAll c.handle) (busy_eq_some.mp hBusy) rfl
        (fun c' hc' => by cases hc'; exact (hSeated.of_busy hBusy).2)
      exact ⟨hNext, fun _ => ⟨hLast, hStore⟩, fun hEvent => by cases hEvent⟩
  | rename =>
    cases step_cases hStep with
    | @renamed _ store c dir hBusy hSynced hRename =>
      obtain ⟨rfl, rfl⟩ := hSeated.of_busy hBusy
      refine ⟨?_, fun hEvent => absurd rfl hEvent, fun _ => ⟨?_, ?_⟩⟩
      · intro t ht
        rw [seat_setSeat ht]
        exact ⟨rfl, fun c' hc' => by cases hc'⟩
      · change (List.find? (fun entry => entry.1 = store.group)
          ((store.group, c.offsets) :: s.completed)).map Prod.snd = some c.offsets
        rw [List.find?_cons_of_pos (by simp), Option.map_some]
      · intro t ht
        rw [seat_setSeat ht]
    | @unrenamed _ store c hBusy hRename =>
      rw [Links.rename, if_pos (temp_isSome hSound hBusy)] at hRename
      cases hRename
  | fail =>
    cases step_cases hStep with
    | @fail _ store c hBusy =>
      obtain ⟨hNext, hLast, hStore⟩ := hSeated.goesOn none s.dir
        (busy_eq_some.mp hBusy) rfl (fun c' hc' => by cases hc')
      exact ⟨hNext, fun _ => ⟨hLast, hStore⟩, fun hEvent => by cases hEvent⟩
  | crash kept =>
    cases step_cases hStep
    refine ⟨?_, fun _ => ⟨rfl, ?_⟩, fun hEvent => by cases hEvent⟩
    · intro t ht
      cases ht
    · intro t ht
      cases ht

/-- As long as the machine runs, the seat is there, and only a rename touches the group's file. -/
theorem call_step_alive (hSound : s.Sound X partitionCount groups) (hApart : TempNamesApart groups)
    (hGroup : group ∈ groups) (hSeated : s.Seated seat group offsets) {event : DeskEvent}
    (hCall : OfCall seat offsets event) (hAlive : ∀ kept, event ≠ .crash kept)
    (hStep : s.step X partitionCount event = some s') :
    s'.seats.length = s.seats.length ∧
      (event ≠ .rename seat → s'.dir.get group = s.dir.get group) := by
  have hOwn : group ≠ group ++ tempSuffix := hApart _ hGroup _ hGroup
  cases hCall with
  | create =>
    cases step_cases hStep with
    | @create _ _ store hIdle hCount =>
      have hStore := (hSeated _ (idle_eq_some.mp hIdle)).1
      refine ⟨List.length_set, fun _ => (s.dir.sameAt_create ?_).file⟩
      rw [OffsetStore.tempPath, hStore]
      exact hOwn
  | write len =>
    cases step_cases hStep with
    | @write _ _ store c chunk hBusy hOpen hChunk =>
      have hOwns := hSound.owns _ _ _ hBusy
      refine ⟨List.length_set, fun _ => (Links.sameAt_onFile _ hOwns.entry ?_).file⟩
      rw [OffsetStore.tempPath, (hSeated.of_busy hBusy).1]
      exact hOwn
  | sync =>
    cases step_cases hStep with
    | @sync _ store c hBusy hWhole =>
      have hOwns := hSound.owns _ _ _ hBusy
      refine ⟨List.length_set, fun _ => (Links.sameAt_onFile _ hOwns.entry ?_).file⟩
      rw [OffsetStore.tempPath, (hSeated.of_busy hBusy).1]
      exact hOwn
  | rename =>
    cases step_cases hStep with
    | renamed => exact ⟨List.length_set, fun hEvent => absurd rfl hEvent⟩
    | unrenamed => exact ⟨List.length_set, fun hEvent => absurd rfl hEvent⟩
  | fail =>
    cases step_cases hStep with
    | fail => exact ⟨List.length_set, fun _ => rfl⟩
  | crash kept => exact absurd rfl (hAlive kept)

/-- A seat's group was checked when its store was opened. -/
def Checked (s : Desk) : Prop := ∀ t ∈ s.seats, validateGroupName t.store.group = .ok ()

theorem Checked.setSeat {t : Desk} (h : s.Checked) (hSeats : t.seats = s.seats)
    {store : OffsetStore} {commit : Option Commit}
    (hStore : validateGroupName store.group = .ok ()) :
    (t.setSeat seat store commit).Checked := by
  intro t' ht'
  rcases mem_setSeat ht' with hNew | hOld
  · rw [hNew]
    exact hStore
  · exact h t' (hSeats ▸ hOld)

theorem Checked.step (h : s.Checked) {event : DeskEvent}
    (hStep : s.step X partitionCount event = some s') : s'.Checked := by
  have hBusy : ∀ {i store c}, s.busy i = some (store, c) →
      validateGroupName store.group = .ok () :=
    fun hb => h _ (List.mem_of_getElem? (busy_eq_some.mp hb))
  cases step_cases hStep with
  | @opened group store hOpen =>
    intro t ht
    rcases List.mem_append.mp ht with hOld | hNew
    · exact h t hOld
    · obtain ⟨_, hName, -⟩ := Res.bind_eq_ok.mp hOpen
      rw [List.mem_singleton.mp hNew]
      dsimp only
      rw [OffsetStore.group_of_open hOpen]
      exact hName
  | refused => exact h
  | create hIdle hCount =>
    exact h.setSeat rfl (h _ (List.mem_of_getElem? (idle_eq_some.mp hIdle)))
  | write hb hOpen hChunk => exact h.setSeat rfl (hBusy hb)
  | sync hb hWhole => exact h.setSeat rfl (hBusy hb)
  | renamed hb hSynced hRename =>
    have hName := hBusy hb
    exact h.setSeat rfl hName
  | unrenamed hb hRename => exact h.setSeat rfl (hBusy hb)
  | fail hb => exact h.setSeat rfl (hBusy hb)
  | crash kept =>
    intro t ht
    cases ht

theorem Checked.run (h : s.Checked) {events : List DeskEvent}
    (hRun : s.run X partitionCount events = some s') : s'.Checked := by
  induction events generalizing s with
  | nil =>
    cases hRun
    exact h
  | cons event events ih =>
    obtain ⟨t, hStep, hRest⟩ := Option.bind_eq_some_iff.mp hRun
    exact ih (h.step hStep) hRest

/-! ## A whole call -/

theorem groupsOf_call {call : List DeskEvent} (hCall : ∀ event ∈ call, OfCall seat offsets event) :
    groupsOf call = [] := by
  induction call with
  | nil => rfl
  | cons event call ih =>
    have hRest := ih fun e he => hCall e (List.mem_cons_of_mem _ he)
    cases hCall event List.mem_cons_self <;> exact hRest

/-- The desk stays sound, since no event of a call opens a store. -/
theorem call_step_sound (hSound : s.Sound X partitionCount groups)
    (hApart : TempNamesApart groups) {event : DeskEvent} (hCall : OfCall seat offsets event)
    (hAlone : s.StartsAlone event) (hStep : s.step X partitionCount event = some s') :
    s'.Sound X partitionCount groups := by
  refine step_sound hSound hApart ?_ hAlone hStep
  intro g hOpen
  subst hOpen
  cases hCall

/-- The events of a call, one after the other. -/
theorem call_run (hSound : s.Sound X partitionCount groups) (hApart : TempNamesApart groups)
    (hSeated : s.Seated seat group offsets) {call : List DeskEvent}
    (hCall : ∀ event ∈ call, OfCall seat offsets event)
    (hAlone : s.RunsAlone X partitionCount call)
    (hRun : s.run X partitionCount call = some s') :
    (.rename seat ∉ call → s'.lastCommitted group = s.lastCommitted group ∧
        ∀ t', s'.seats[seat]? = some t' → ∃ t, s.seats[seat]? = some t ∧ t'.store = t.store) ∧
      (.rename seat ∈ call → s'.lastCommitted group = some offsets ∧
        ∀ t', s'.seats[seat]? = some t' → t'.store = ⟨group, offsets⟩) := by
  induction call generalizing s with
  | nil =>
    cases hRun
    exact ⟨fun _ => ⟨rfl, fun t' ht' => ⟨t', ht', rfl⟩⟩, fun hMem => by cases hMem⟩
  | cons event call ih =>
    obtain ⟨s₁, hStep, hRest⟩ := Option.bind_eq_some_iff.mp hRun
    have hEvent := hCall event List.mem_cons_self
    obtain ⟨hSeated₁, hKeeps, hRenames⟩ := call_step hSound hSeated hEvent hStep
    have hSound₁ := call_step_sound hSound hApart hEvent hAlone.1 hStep
    obtain ⟨hOld, hNew⟩ := ih hSound₁ hSeated₁ (fun e he => hCall e (List.mem_cons_of_mem _ he))
      (hAlone.2 s₁ hStep) hRest
    constructor
    · intro hNotMem
      obtain ⟨hHead, hTail⟩ := not_or.mp (List.mem_cons.not.mp hNotMem)
      obtain ⟨hLast, hStore⟩ := hOld hTail
      obtain ⟨hLast₁, hStore₁⟩ := hKeeps (Ne.symm hHead)
      refine ⟨hLast.trans hLast₁, ?_⟩
      intro t' ht'
      obtain ⟨t₁, ht₁, hEq⟩ := hStore t' ht'
      obtain ⟨t, ht, hEq₁⟩ := hStore₁ t₁ ht₁
      exact ⟨t, ht, hEq.trans hEq₁⟩
    · intro hMem
      by_cases hTail : .rename seat ∈ call
      · exact hNew hTail
      · -- the rename was the first event, and nothing after it changes what it did
        have hHead : event = .rename seat :=
          (Or.resolve_right (List.mem_cons.mp hMem) hTail).symm
        obtain ⟨hLast, hStore⟩ := hOld hTail
        obtain ⟨hLast₁, hStore₁⟩ := hRenames hHead
        refine ⟨hLast.trans hLast₁, ?_⟩
        intro t' ht'
        obtain ⟨t₁, ht₁, hEq⟩ := hStore t' ht'
        exact hEq.trans (hStore₁ t₁ ht₁)

theorem call_run_alive (hSound : s.Sound X partitionCount groups) (hApart : TempNamesApart groups)
    (hGroup : group ∈ groups) (hSeated : s.Seated seat group offsets) {call : List DeskEvent}
    (hCall : ∀ event ∈ call, OfCall seat offsets event)
    (hAlive : ∀ event ∈ call, ∀ kept, event ≠ .crash kept)
    (hAlone : s.RunsAlone X partitionCount call)
    (hRun : s.run X partitionCount call = some s') :
    s'.seats.length = s.seats.length ∧
      (.rename seat ∉ call → s'.dir.get group = s.dir.get group) := by
  induction call generalizing s with
  | nil =>
    cases hRun
    exact ⟨rfl, fun _ => rfl⟩
  | cons event call ih =>
    obtain ⟨s₁, hStep, hRest⟩ := Option.bind_eq_some_iff.mp hRun
    have hEvent := hCall event List.mem_cons_self
    have hSeated₁ := (call_step hSound hSeated hEvent hStep).1
    have hSound₁ := call_step_sound hSound hApart hEvent hAlone.1 hStep
    obtain ⟨hLen₁, hFile₁⟩ := call_step_alive hSound hApart hGroup hSeated hEvent
      (hAlive event List.mem_cons_self) hStep
    obtain ⟨hLen, hFile⟩ := ih hSound₁ hSeated₁ (fun e he => hCall e (List.mem_cons_of_mem _ he))
      (fun e he => hAlive e (List.mem_cons_of_mem _ he)) (hAlone.2 s₁ hStep) hRest
    refine ⟨hLen.trans hLen₁, ?_⟩
    intro hNotMem
    obtain ⟨hHead, hTail⟩ := not_or.mp (List.mem_cons.not.mp hNotMem)
    exact (hFile hTail).trans (hFile₁ (Ne.symm hHead))

end Desk

/-- A commit is atomic: wherever it fails or the machine stops, a store opened afterwards has the
offsets committed before if the rename did not happen, and the new ones if it did. Without the
rename a process that goes on has the old offsets in memory too, and the group's file is as it
was; with it, its offsets are the ones that would be read. -/
theorem Desk.commit_is_atomic (X : Crates) (partitionCount : Nat)
    (hFits : partitionCount < 2 ^ 32) {history call : List DeskEvent} {s s' : Desk}
    (hHistory : Desk.empty.run X partitionCount history = some s)
    (hHistoryAlone : Desk.empty.RunsAlone X partitionCount history)
    (hApart : TempNamesApart (Desk.groupsOf history)) {seat : Nat} {store : OffsetStore}
    (hIdle : s.idle seat = some store) (offsets : List UInt64)
    (hCall : ∀ event ∈ call, OfCall seat offsets event)
    (hCallAlone : s.RunsAlone X partitionCount call)
    (hRun : s.run X partitionCount call = some s') :
    ∃ old, OffsetStore.open X s.dir store.group partitionCount = .ok ⟨store.group, old⟩ ∧
      (∀ committed, s.lastCommitted store.group = some committed → old = committed) ∧
      (.rename seat ∉ call →
        OffsetStore.open X s'.dir store.group partitionCount = .ok ⟨store.group, old⟩ ∧
        ((∀ event ∈ call, ∀ kept, event ≠ .crash kept) →
          s'.dir.get store.group = s.dir.get store.group ∧
          ∃ commit, s'.seats[seat]? = some ⟨store, commit⟩)) ∧
      (.rename seat ∈ call →
        OffsetStore.open X s'.dir store.group partitionCount = .ok ⟨store.group, offsets⟩ ∧
        ((∀ event ∈ call, ∀ kept, event ≠ .crash kept) →
          ∃ commit, s'.seats[seat]? = some ⟨⟨store.group, offsets⟩, commit⟩)) := by
  have hSeat := idle_eq_some.mp hIdle
  have hSound : s.Sound X partitionCount (groupsOf history) :=
    run_sound empty_sound hApart (List.Subset.refl _) hHistoryAlone hHistory
  have hGroup : store.group ∈ groupsOf history :=
    hSound.named _ (List.mem_of_getElem? hSeat)
  have hChecked : s.Checked := Checked.run (fun t ht => by cases ht) hHistory
  have hName : validateGroupName store.group = .ok () := hChecked _ (List.mem_of_getElem? hSeat)
  have hSeated : s.Seated seat store.group offsets := by
    intro t ht
    obtain rfl := Option.some.inj (hSeat.symm.trans ht)
    exact ⟨rfl, fun c hc => by cases hc⟩
  have hSound' : s'.Sound X partitionCount (groupsOf history) := by
    refine run_sound hSound hApart ?_ hCallAlone hRun
    rw [groupsOf_call hCall]
    exact List.nil_subset _
  have hOpen := (hSound'.files _ hGroup).open hName hFits
  obtain ⟨hOld, hNew⟩ := call_run hSound hApart hSeated hCall hCallAlone hRun
  -- the seat outlives a call that no crash interrupts
  have hStays : (∀ event ∈ call, ∀ kept, event ≠ .crash kept) →
      ∃ t, s'.seats[seat]? = some t := by
    intro hAlive
    obtain ⟨hLen, -⟩ := call_run_alive hSound hApart hGroup hSeated hCall hAlive hCallAlone hRun
    obtain ⟨hBound, -⟩ := List.getElem?_eq_some_iff.mp hSeat
    exact ⟨_, List.getElem?_eq_getElem (hLen ▸ hBound)⟩
  refine ⟨_, (hSound.files _ hGroup).open hName hFits, ?_, ?_, ?_⟩
  · intro committed hLast
    rw [hLast, Option.getD_some]
  · intro hNotMem
    obtain ⟨hLast, hStore⟩ := hOld hNotMem
    rw [hLast] at hOpen
    refine ⟨hOpen, ?_⟩
    intro hAlive
    obtain ⟨-, hFile⟩ := call_run_alive hSound hApart hGroup hSeated hCall hAlive hCallAlone hRun
    obtain ⟨⟨store', commit⟩, ht'⟩ := hStays hAlive
    obtain ⟨t, ht, hEq⟩ := hStore _ ht'
    obtain rfl := Option.some.inj (hSeat.symm.trans ht)
    obtain rfl : store' = store := hEq
    exact ⟨hFile hNotMem, commit, ht'⟩
  · intro hMem
    obtain ⟨hLast, hStore⟩ := hNew hMem
    rw [hLast] at hOpen
    refine ⟨hOpen, ?_⟩
    intro hAlive
    obtain ⟨⟨store', commit⟩, ht'⟩ := hStays hAlive
    obtain rfl : store' = ⟨store.group, offsets⟩ := hStore _ ht'
    exact ⟨commit, ht'⟩

/-- Group `g` has committed `[7]`, a later commit failed half way, and the next one gets as far as
a synced temporary file when the machine stops. -/
def interruptedCommit : List DeskEvent :=
  [.open "g"] ++ commitSteps 0 7 ++ [.create 0 [3], .write 0 30, .fail 0]

theorem Desk.commit_is_atomic_interrupted :
    ∃ s s', Desk.empty.run Crates.uncompressed 1 interruptedCommit = some s ∧
      s.run Crates.uncompressed 1
        [.create 0 [8], .write 0 9, .write 0 11, .sync 0, .crash fun _ => 0] = some s' ∧
      OffsetStore.open Crates.uncompressed s'.dir "g" 1 = .ok ⟨"g", [7]⟩ := by
  have hRuns : (Desk.empty.run Crates.uncompressed 1 interruptedCommit).map
      (fun s => (s.idle 0, s.lastCommitted "g", (s.run Crates.uncompressed 1
        [.create 0 [8], .write 0 9, .write 0 11, .sync 0, .crash fun _ => 0]).isSome,
        decide (s.RunsAlone Crates.uncompressed 1
          [.create 0 [8], .write 0 9, .write 0 11, .sync 0, .crash fun _ => 0]))) =
      some (some ⟨"g", [7]⟩, some [7], true, true) := by
    decide +kernel
  obtain ⟨s, hHistory, hAll⟩ := Option.map_eq_some_iff.mp hRuns
  simp only [Prod.mk.injEq, decide_eq_true_eq] at hAll
  obtain ⟨hIdle, hLast, hSome, hAlone⟩ := hAll
  obtain ⟨s', hRun⟩ := Option.isSome_iff_exists.mp hSome
  refine ⟨s, s', hHistory, hRun, ?_⟩
  obtain ⟨old, -, hOld, hKept, -⟩ := Desk.commit_is_atomic Crates.uncompressed 1 (by decide)
    hHistory (by decide +kernel) (by decide) hIdle [8] (by
      intro event hMem
      simp only [List.mem_cons, List.not_mem_nil, or_false] at hMem
      obtain rfl | rfl | rfl | rfl | rfl := hMem
      · exact .create
      · exact .write 9
      · exact .write 11
      · exact .sync
      · exact .crash _) hAlone hRun
  rw [hOld [7] hLast] at hKept
  exact (hKept (by simp)).1

end Kafko
