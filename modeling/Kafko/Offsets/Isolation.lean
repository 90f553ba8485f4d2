import Kafko.Offsets.OffsetStore

/-!
# What a group finds when it comes back

Two groups share the directory of their topic and nothing else, as long as no group's file
is another group's temporary file. The invariant `Desk.Sound` speaks about a set of such
names: the file of each of them is settled and holds the group's last completed commit, and
each commit in progress owns its temporary file. Every operation of every commit keeps it,
and so does a crash.
-/

namespace Kafko

open Disk

/-- No group of the list uses another one's file as its temporary file. -/
def TempNamesApart (groups : List String) : Prop :=
  ∀ a ∈ groups, ∀ b ∈ groups, a ≠ b ++ tempSuffix

instance (groups : List String) : Decidable (TempNamesApart groups) := by
  unfold TempNamesApart
  infer_instance

theorem append_tempSuffix_inj {a b : String} (h : a ++ tempSuffix = b ++ tempSuffix) : a = b := by
  have hChars := congrArg String.toList h
  rw [String.toList_append, String.toList_append] at hChars
  exact String.toList_inj.mp (List.append_cancel_right hChars)

namespace OffsetStore

variable {X : Crates} {dir : Links String} {group : String} {partitionCount : Nat}

theorem group_of_open {store : OffsetStore}
    (h : OffsetStore.open X dir group partitionCount = .ok store) : store.group = group := by
  obtain ⟨-, -, hRead⟩ := Res.bind_eq_ok.mp h
  split at hRead
  · obtain ⟨committed, -, hStore⟩ := Res.bind_eq_ok.mp hRead
    cases hStore
    rfl
  · cases hRead
    rfl

theorem open_of_absent (hName : validateGroupName group = .ok ()) (h : dir.get group = none) :
    OffsetStore.open X dir group partitionCount =
      .ok ⟨group, List.replicate partitionCount 0⟩ := by
  unfold OffsetStore.open Links.read
  rw [hName, Res.ok_bind, h]
  rfl

theorem open_of_settled (hName : validateGroupName group = .ok ()) {f : File}
    {offsets : List UInt64} (h : dir.get group = some f) (hf : f.Settled (encode X offsets))
    (hCount : offsets.length = partitionCount) (hFits : partitionCount < 2 ^ 32) :
    OffsetStore.open X dir group partitionCount = .ok ⟨group, offsets⟩ := by
  unfold OffsetStore.open Links.read
  rw [hName, Res.ok_bind, h, Option.map_some, hf.data]
  dsimp only
  rw [decode_encode X (hCount ▸ hFits), overlay_zeros hCount, Res.ok_bind]

end OffsetStore

namespace Desk

variable {X : Crates} {partitionCount : Nat} {groups : List String} {group : String}
  {s s' : Desk}

/-- A commit that has not been renamed owns the temporary file of its group. -/
structure Owns (X : Crates) (partitionCount : Nat) (dir : Links String) (store : OffsetStore)
    (c : Commit) : Prop where
  count : c.offsets.length = partitionCount
  entry : dir.entries store.tempPath = some c.handle
  data : (dir.files c.handle).data = (OffsetStore.encode X c.offsets).take c.written
  within : c.written ≤ (OffsetStore.encode X c.offsets).length
  settled : c.synced = true → (dir.files c.handle).Settled (OffsetStore.encode X c.offsets)

/-- What the directory says about a group: the last completed commit. -/
def Holds (X : Crates) (partitionCount : Nat) (s : Desk) (group : String) : Prop :=
  match s.lastCommitted group with
  | none => s.dir.get group = none
  | some offsets => offsets.length = partitionCount ∧
      ∃ f, s.dir.get group = some f ∧ f.Settled (OffsetStore.encode X offsets)

structure Sound (X : Crates) (partitionCount : Nat) (groups : List String) (s : Desk) :
    Prop where
  named : ∀ seat ∈ s.seats, seat.store.group ∈ groups
  files : ∀ group ∈ groups, s.Holds X partitionCount group
  owns : ∀ i store c, s.busy i = some (store, c) → Owns X partitionCount s.dir store c
  alone : ∀ i j store store' c c', s.busy i = some (store, c) → s.busy j = some (store', c') →
    store.group = store'.group → i = j

/-- The documented use of a group: no commit starts while another one of the group is in
progress. -/
def StartsAlone (s : Desk) : DeskEvent → Prop
  | .create seat _ => ∀ store ∈ s.idle seat, ∀ other ∈ s.seats, other.commit.isSome →
      other.store.group ≠ store.group
  | _ => True

instance (s : Desk) (event : DeskEvent) : Decidable (s.StartsAlone event) := by
  cases event <;> unfold StartsAlone <;> infer_instance

/-- Every step of a run is a documented use. -/
def RunsAlone (X : Crates) (partitionCount : Nat) (s : Desk) : List DeskEvent → Prop
  | [] => True
  | event :: events => s.StartsAlone event ∧
      ∀ s' ∈ s.step X partitionCount event, RunsAlone X partitionCount s' events

instance decidableRunsAlone (X : Crates) (partitionCount : Nat) (s : Desk) :
    (events : List DeskEvent) → Decidable (s.RunsAlone X partitionCount events)
  | [] => inferInstanceAs (Decidable True)
  | _ :: events =>
    have (s' : Desk) := decidableRunsAlone X partitionCount s' events
    inferInstanceAs (Decidable (_ ∧ _))

/-- The groups whose stores a run opens. -/
def groupsOf : List DeskEvent → List String
  | [] => []
  | .open group :: events => group :: groupsOf events
  | _ :: events => groupsOf events

/-! ## What a step does -/

inductive Steps (X : Crates) (partitionCount : Nat) (s : Desk) : DeskEvent → Desk → Prop
  | opened {group : String} {store : OffsetStore}
      (hOpen : OffsetStore.open X s.dir group partitionCount = .ok store) :
      Steps X partitionCount s (.open group) { s with seats := s.seats ++ [⟨store, none⟩] }
  | refused {group : String} : Steps X partitionCount s (.open group) s
  | create {seat : Nat} {offsets : List UInt64} {store : OffsetStore}
      (hIdle : s.idle seat = some store) (hCount : offsets.length = partitionCount) :
      Steps X partitionCount s (.create seat offsets)
        ({ s with dir := (s.dir.create store.tempPath).1 }.setSeat seat store
          (some ⟨offsets, (s.dir.create store.tempPath).2, 0, false⟩))
  | write {seat len : Nat} {store : OffsetStore} {c : Commit} {chunk : Bytes}
      (hBusy : s.busy seat = some (store, c)) (hOpen : c.synced = false)
      (hChunk : ((OffsetStore.encode X c.offsets).drop c.written).take len = chunk) :
      Steps X partitionCount s (.write seat len)
        ({ s with dir := s.dir.writeAt c.handle c.written chunk }.setSeat seat store
          (some { c with written := c.written + chunk.length }))
  | sync {seat : Nat} {store : OffsetStore} {c : Commit} (hBusy : s.busy seat = some (store, c))
      (hWhole : c.written = (OffsetStore.encode X c.offsets).length) :
      Steps X partitionCount s (.sync seat)
        ({ s with dir := s.dir.syncAll c.handle }.setSeat seat store
          (some { c with synced := true }))
  | renamed {seat : Nat} {store : OffsetStore} {c : Commit} {dir : Links String}
      (hBusy : s.busy seat = some (store, c)) (hSynced : c.synced = true)
      (hRename : s.dir.rename store.tempPath store.filePath = some dir) :
      Steps X partitionCount s (.rename seat)
        ({ s with dir := dir, completed := (store.group, c.offsets) :: s.completed }.setSeat seat
          { store with committed := c.offsets } none)
  | unrenamed {seat : Nat} {store : OffsetStore} {c : Commit}
      (hBusy : s.busy seat = some (store, c))
      (hRename : s.dir.rename store.tempPath store.filePath = none) :
      Steps X partitionCount s (.rename seat) (s.setSeat seat store none)
  | fail {seat : Nat} {store : OffsetStore} {c : Commit} (hBusy : s.busy seat = some (store, c)) :
      Steps X partitionCount s (.fail seat) (s.setSeat seat store none)
  | crash (kept : Nat → Nat) :
      Steps X partitionCount s (.crash kept) { s with dir := s.dir.crash kept, seats := [] }

theorem step_cases {event : DeskEvent} (hStep : s.step X partitionCount event = some s') :
    s.Steps X partitionCount event s' := by
  cases event with
  | «open» group =>
    rw [step] at hStep
    split at hStep
    · next store hOpen =>
      cases hStep
      exact Steps.opened hOpen
    · cases hStep
      exact Steps.refused
  | create seat offsets =>
    obtain ⟨store, hIdle, hRest⟩ := Option.bind_eq_some_iff.mp hStep
    obtain ⟨_, hGuard, hEnd⟩ := Option.bind_eq_some_iff.mp hRest
    cases hEnd
    exact Steps.create hIdle ((Option.guard_eq_some' ..).mp hGuard)
  | write seat len =>
    obtain ⟨⟨store, c⟩, hBusy, hRest⟩ := Option.bind_eq_some_iff.mp hStep
    obtain ⟨_, hGuard, hEnd⟩ := Option.bind_eq_some_iff.mp hRest
    cases hEnd
    exact Steps.write hBusy ((Option.guard_eq_some' ..).mp hGuard) rfl
  | sync seat =>
    obtain ⟨⟨store, c⟩, hBusy, hRest⟩ := Option.bind_eq_some_iff.mp hStep
    obtain ⟨_, hGuard, hEnd⟩ := Option.bind_eq_some_iff.mp hRest
    cases hEnd
    exact Steps.sync hBusy ((Option.guard_eq_some' ..).mp hGuard)
  | rename seat =>
    obtain ⟨⟨store, c⟩, hBusy, hRest⟩ := Option.bind_eq_some_iff.mp hStep
    obtain ⟨_, hGuard, hEnd⟩ := Option.bind_eq_some_iff.mp hRest
    split at hEnd
    · next dir hRename =>
      cases hEnd
      exact Steps.renamed hBusy ((Option.guard_eq_some' ..).mp hGuard) hRename
    · next hRename =>
      cases hEnd
      exact Steps.unrenamed hBusy hRename
  | fail seat =>
    obtain ⟨⟨store, c⟩, hBusy, hEnd⟩ := Option.bind_eq_some_iff.mp hStep
    cases hEnd
    exact Steps.fail hBusy
  | crash kept =>
    cases hStep
    exact Steps.crash kept

/-! ## Seats -/

theorem busy_eq_some {i : Nat} {store : OffsetStore} {c : Commit} :
    s.busy i = some (store, c) ↔ s.seats[i]? = some ⟨store, some c⟩ := by
  unfold busy
  rcases s.seats[i]? with _ | ⟨store', _ | c'⟩ <;> simp

theorem idle_eq_some {i : Nat} {store : OffsetStore} :
    s.idle i = some store ↔ s.seats[i]? = some ⟨store, none⟩ := by
  unfold idle
  rcases s.seats[i]? with _ | ⟨store', _ | c'⟩ <;> simp

/-- The commits in progress after a seat has changed. -/
theorem busy_setSeat {i j : Nat} {store store' : OffsetStore} {commit : Option Commit}
    {c : Commit} (h : (s.setSeat i store commit).busy j = some (store', c)) :
    (j = i ∧ store' = store ∧ commit = some c) ∨ (j ≠ i ∧ s.busy j = some (store', c)) := by
  rw [busy_eq_some] at h
  change (s.seats.set i ⟨store, commit⟩)[j]? = _ at h
  by_cases hEq : j = i
  · subst hEq
    rw [List.getElem?_set] at h
    split at h
    · split at h
      · cases h
        exact .inl ⟨rfl, rfl, rfl⟩
      · cases h
    · exact absurd rfl ‹¬ _›
  · rw [List.getElem?_set_ne (Ne.symm hEq)] at h
    exact .inr ⟨hEq, busy_eq_some.mpr h⟩

theorem mem_setSeat {i : Nat} {store : OffsetStore} {commit : Option Commit} {seat : Seat}
    (h : seat ∈ (s.setSeat i store commit).seats) : seat.store = store ∨ seat ∈ s.seats := by
  rcases List.mem_or_eq_of_mem_set h with hOld | rfl
  · exact .inr hOld
  · exact .inl rfl

theorem group_of_busy (h : s.Sound X partitionCount groups) {i : Nat} {store : OffsetStore}
    {c : Commit} (hBusy : s.busy i = some (store, c)) : store.group ∈ groups :=
  h.named _ (List.mem_of_getElem? (busy_eq_some.mp hBusy))

/-! ## Steps -/

theorem Owns.sameAt {dir dir' : Links String} {store : OffsetStore} {c : Commit}
    (h : Owns X partitionCount dir store c) (hSame : dir.SameAt dir' store.tempPath) :
    Owns X partitionCount dir' store c := by
  have hFile := hSame.files h.entry
  refine ⟨h.count, hSame.entry.trans h.entry, ?_, h.within, ?_⟩
  · rw [hFile]
    exact h.data
  · rw [hFile]
    exact h.settled

theorem Holds.of_same {group : String} (h : s.Holds X partitionCount group)
    (hFile : s'.dir.get group = s.dir.get group)
    (hLast : s'.lastCommitted group = s.lastCommitted group) :
    s'.Holds X partitionCount group := by
  unfold Holds at *
  rw [hLast, hFile]
  exact h

/-- A seat does something that concerns only the two files of its group. -/
theorem Sound.setSeat (h : s.Sound X partitionCount groups) (hApart : TempNamesApart groups)
    {seat : Nat} {store : OffsetStore} {commit : Option Commit} {dir : Links String}
    {completed : List (String × List UInt64)} (hGroup : store.group ∈ groups)
    (hOthers : ∀ j store' c, j ≠ seat → s.busy j = some (store', c) →
      store'.group ≠ store.group)
    (hSame : ∀ name, name ≠ store.tempPath → name ≠ store.filePath → s.dir.SameAt dir name)
    (hLast : ∀ group, group ≠ store.group →
      (Desk.mk dir s.seats completed).lastCommitted group = s.lastCommitted group)
    (hFile : (Desk.mk dir s.seats completed).Holds X partitionCount store.group)
    (hOwns : ∀ c, commit = some c → Owns X partitionCount dir store c) :
    ((Desk.mk dir s.seats completed).setSeat seat store commit).Sound X partitionCount
      groups := by
  have hCases : ∀ {j store' c},
      ((Desk.mk dir s.seats completed).setSeat seat store commit).busy j = some (store', c) →
      (j = seat ∧ store' = store ∧ commit = some c) ∨
        (j ≠ seat ∧ s.busy j = some (store', c)) := fun hBusy => busy_setSeat hBusy
  refine ⟨?_, ?_, ?_, ?_⟩
  · intro member hMember
    rcases mem_setSeat hMember with hStore | hOld
    · rw [hStore]
      exact hGroup
    · exact h.named member hOld
  · intro group hMem
    by_cases hEq : group = store.group
    · rw [hEq]
      exact hFile
    · have hTemp : group ≠ store.tempPath := hApart group hMem store.group hGroup
      exact (h.files group hMem).of_same (hSame group hTemp hEq).file (hLast group hEq)
  · intro j store' c hBusy
    rcases hCases hBusy with ⟨rfl, rfl, hCommit⟩ | ⟨hne, hOld⟩
    · exact hOwns c hCommit
    · apply (h.owns j store' c hOld).sameAt
      have hMem := group_of_busy h hOld
      apply hSame
      · intro hEq
        exact hOthers j store' c hne hOld (append_tempSuffix_inj hEq)
      · intro hEq
        exact hApart store.group hGroup store'.group hMem hEq.symm
  · intro j k store₁ store₂ c₁ c₂ hj hk hSameGroup
    rcases hCases hj with ⟨rfl, rfl, -⟩ | ⟨hj', hjOld⟩
    · rcases hCases hk with ⟨rfl, -, -⟩ | ⟨hk', hkOld⟩
      · rfl
      · exact absurd hSameGroup.symm (hOthers k store₂ c₂ hk' hkOld)
    · rcases hCases hk with ⟨rfl, rfl, -⟩ | ⟨hk', hkOld⟩
      · exact absurd hSameGroup (hOthers j store₁ c₁ hj' hjOld)
      · exact h.alone j k store₁ store₂ c₁ c₂ hjOld hkOld hSameGroup

/-- A change to the temporary file leaves the group's own file as it was. -/
theorem Sound.setTemp (h : s.Sound X partitionCount groups) (hApart : TempNamesApart groups)
    {seat : Nat} {store : OffsetStore} {commit : Option Commit} {dir : Links String}
    (hGroup : store.group ∈ groups)
    (hOthers : ∀ j store' c, j ≠ seat → s.busy j = some (store', c) →
      store'.group ≠ store.group)
    (hSame : ∀ name, name ≠ store.tempPath → s.dir.SameAt dir name)
    (hOwns : ∀ c, commit = some c → Owns X partitionCount dir store c) :
    ({ s with dir := dir }.setSeat seat store commit).Sound X partitionCount groups := by
  refine h.setSeat hApart hGroup hOthers (fun name hTemp _ => hSame name hTemp)
    (fun _ _ => rfl) ?_ hOwns
  have hOwn : store.group ≠ store.tempPath := hApart _ hGroup _ hGroup
  exact (h.files _ hGroup).of_same (hSame _ hOwn).file rfl

theorem others_of_busy (h : s.Sound X partitionCount groups) {seat : Nat} {store : OffsetStore}
    {c : Commit} (hBusy : s.busy seat = some (store, c)) :
    ∀ j store' c', j ≠ seat → s.busy j = some (store', c') → store'.group ≠ store.group :=
  fun j store' c' hne hOther hEq => hne (h.alone j seat store' store c' c hOther hBusy hEq)

theorem create_sound (h : s.Sound X partitionCount groups) (hApart : TempNamesApart groups)
    {seat : Nat} {offsets : List UInt64} (hAlone : s.StartsAlone (.create seat offsets))
    (hStep : s.step X partitionCount (.create seat offsets) = some s') :
    s'.Sound X partitionCount groups := by
  cases step_cases hStep with
  | @create _ _ store hIdle hCount =>
    have hGroup : store.group ∈ groups := h.named _ (List.mem_of_getElem? (idle_eq_some.mp hIdle))
    obtain ⟨hEntry, hEmpty⟩ := s.dir.create_self store.tempPath
    apply h.setTemp hApart hGroup
    · intro j store' c _ hBusy
      exact hAlone store hIdle _ (List.mem_of_getElem? (busy_eq_some.mp hBusy)) rfl
    · intro name hne
      exact s.dir.sameAt_create hne
    · intro c hc
      cases hc
      exact ⟨hCount, hEntry, by simpa using hEmpty, Nat.zero_le _, by simp⟩

theorem write_sound (h : s.Sound X partitionCount groups) (hApart : TempNamesApart groups)
    {seat len : Nat} (hStep : s.step X partitionCount (.write seat len) = some s') :
    s'.Sound X partitionCount groups := by
  cases step_cases hStep with
  | @write _ _ store c _ hBusy hOpen hChunk =>
    subst hChunk
    have hOwns := h.owns _ _ _ hBusy
    apply h.setTemp hApart (group_of_busy h hBusy) (others_of_busy h hBusy)
    · intro name hne
      exact Links.sameAt_onFile _ hOwns.entry hne
    · intro c' hc'
      cases hc'
      refine ⟨hOwns.count, hOwns.entry, ?_, ?_, ?_⟩
      · -- the next bytes of the encoding are written behind the ones that are there
        have hLen : (s.dir.files c.handle).data.length = c.written := by
          rw [hOwns.data, List.length_take, Nat.min_eq_left hOwns.within]
        rw [Links.writeAt, Links.files_onFile_self, File.writeAt_end hLen, hOwns.data]
        rw [List.take_add, List.take_eq_take_min]
        simp
      · have := hOwns.within
        simp only [List.length_take, List.length_drop]
        omega
      · intro hSynced
        rw [hOpen] at hSynced
        cases hSynced

theorem sync_sound (h : s.Sound X partitionCount groups) (hApart : TempNamesApart groups)
    {seat : Nat} (hStep : s.step X partitionCount (.sync seat) = some s') :
    s'.Sound X partitionCount groups := by
  cases step_cases hStep with
  | @sync _ store c hBusy hWhole =>
    have hOwns := h.owns _ _ _ hBusy
    apply h.setTemp hApart (group_of_busy h hBusy) (others_of_busy h hBusy)
    · intro name hne
      exact Links.sameAt_onFile _ hOwns.entry hne
    · intro c' hc'
      cases hc'
      have hFile : (s.dir.syncAll c.handle).files c.handle = (s.dir.files c.handle).sync :=
        Links.files_onFile_self _
      refine ⟨hOwns.count, hOwns.entry, ?_, hOwns.within, fun _ => ?_⟩
      · rw [hFile]
        exact hOwns.data
      · have hData := hOwns.data
        rw [hWhole, List.take_length] at hData
        rw [hFile, ← hData]
        exact File.settled_sync _

/-- The file a commit wants to rename is there. -/
theorem temp_isSome (h : s.Sound X partitionCount groups) {seat : Nat} {store : OffsetStore}
    {c : Commit} (hBusy : s.busy seat = some (store, c)) :
    (s.dir.entries store.tempPath).isSome := by
  rw [(h.owns _ _ _ hBusy).entry]
  rfl

theorem rename_sound (h : s.Sound X partitionCount groups) (hApart : TempNamesApart groups)
    {seat : Nat} (hStep : s.step X partitionCount (.rename seat) = some s') :
    s'.Sound X partitionCount groups := by
  cases step_cases hStep with
  | @renamed _ store c _ hBusy hSynced hRename =>
    have hOwns := h.owns _ _ _ hBusy
    have hGroup := group_of_busy h hBusy
    rw [Links.rename, if_pos (temp_isSome h hBusy)] at hRename
    cases hRename
    refine h.setSeat (s := s) hApart hGroup ?_ ?_ ?_ ?_ ?_
    · exact fun j store' c' hne hj => others_of_busy h hBusy j store' c' hne hj
    · intro name hTemp hFile
      exact Links.sameAt_move hTemp hFile
    · intro group hne
      unfold lastCommitted
      rw [List.find?_cons_of_neg (by simpa using Ne.symm hne)]
    · unfold Holds lastCommitted
      rw [List.find?_cons_of_pos (by simp)]
      refine ⟨hOwns.count, _, ?_, hOwns.settled hSynced⟩
      exact (s.dir.get_move_target _ _).trans (Links.get_of_entries hOwns.entry)
    · intro c' hc'
      cases hc'
  | unrenamed hBusy hRename =>
    rw [Links.rename, if_pos (temp_isSome h hBusy)] at hRename
    cases hRename

theorem fail_sound (h : s.Sound X partitionCount groups) (hApart : TempNamesApart groups)
    {seat : Nat} (hStep : s.step X partitionCount (.fail seat) = some s') :
    s'.Sound X partitionCount groups := by
  cases step_cases hStep with
  | fail hBusy =>
    apply h.setTemp hApart (group_of_busy h hBusy) (others_of_busy h hBusy)
    · intro name _
      exact Links.SameAt.refl _ _
    · intro c' hc'
      cases hc'

theorem crash_sound (h : s.Sound X partitionCount groups) (kept : Nat → Nat) :
    ({ s with dir := s.dir.crash kept, seats := [] } : Desk).Sound X partitionCount groups := by
  refine ⟨by simp, ?_, by simp [busy], by simp [busy]⟩
  intro group hGroup
  have hOld := h.files group hGroup
  obtain ⟨k, hGet⟩ := s.dir.get_crash kept group
  unfold Holds at *
  change match s.lastCommitted group with
    | none => (s.dir.crash kept).get group = none
    | some offsets => offsets.length = partitionCount ∧ ∃ f,
        (s.dir.crash kept).get group = some f ∧ f.Settled (OffsetStore.encode X offsets)
  rw [hGet]
  cases hLast : s.lastCommitted group with
  | none =>
    rw [hLast] at hOld
    rw [hOld, Option.map_none]
  | some offsets =>
    rw [hLast] at hOld
    obtain ⟨hCount, f, hf, hSettled⟩ := hOld
    exact ⟨hCount, f.crash k, by rw [hf, Option.map_some], hSettled.crash k⟩

theorem open_sound (h : s.Sound X partitionCount groups) {group : String}
    (hGroup : group ∈ groups)
    (hStep : s.step X partitionCount (.open group) = some s') :
    s'.Sound X partitionCount groups := by
  cases step_cases hStep with
  | @opened _ store hOpen =>
    have hName := OffsetStore.group_of_open hOpen
    have hBusy : ∀ j store' c, busy { s with seats := s.seats ++ [⟨store, none⟩] } j =
        some (store', c) → s.busy j = some (store', c) := by
      intro j store' c hj
      rw [busy_eq_some] at hj ⊢
      change (s.seats ++ [⟨store, none⟩])[j]? = _ at hj
      rw [List.getElem?_append] at hj
      split at hj
      · exact hj
      · have := List.mem_of_getElem? hj
        simp at this
    refine ⟨?_, h.files, fun j store' c hj => h.owns j store' c (hBusy _ _ _ hj), ?_⟩
    · intro seat hSeat
      rcases List.mem_append.mp hSeat with hOld | hNew
      · exact h.named seat hOld
      · rw [List.mem_singleton.mp hNew]
        exact hName ▸ hGroup
    · intro j k store₁ store₂ c₁ c₂ hj hk
      exact h.alone j k store₁ store₂ c₁ c₂ (hBusy _ _ _ hj) (hBusy _ _ _ hk)
  | refused => exact h

theorem step_sound (h : s.Sound X partitionCount groups) (hApart : TempNamesApart groups)
    {event : DeskEvent} (hGroups : ∀ group, event = .open group → group ∈ groups)
    (hAlone : s.StartsAlone event) (hStep : s.step X partitionCount event = some s') :
    s'.Sound X partitionCount groups := by
  cases event with
  | «open» group => exact open_sound h (hGroups group rfl) hStep
  | create seat offsets => exact create_sound h hApart hAlone hStep
  | write seat len => exact write_sound h hApart hStep
  | sync seat => exact sync_sound h hApart hStep
  | rename seat => exact rename_sound h hApart hStep
  | fail seat => exact fail_sound h hApart hStep
  | crash kept =>
    cases hStep
    exact crash_sound h kept

theorem groupsOf_cons_subset (event : DeskEvent) (events : List DeskEvent) :
    groupsOf events ⊆ groupsOf (event :: events) := by
  cases event <;> simp [groupsOf]

theorem run_sound (h : s.Sound X partitionCount groups) (hApart : TempNamesApart groups)
    {events : List DeskEvent} (hGroups : groupsOf events ⊆ groups)
    (hAlone : s.RunsAlone X partitionCount events)
    (hRun : s.run X partitionCount events = some s') : s'.Sound X partitionCount groups := by
  induction events generalizing s with
  | nil =>
    cases hRun
    exact h
  | cons event events ih =>
    rw [run, Option.bind_eq_bind, Option.bind_eq_some_iff] at hRun
    obtain ⟨t, hStep, hRest⟩ := hRun
    refine ih (step_sound h hApart ?_ hAlone.1 hStep)
      (fun g hg => hGroups (groupsOf_cons_subset event events hg)) (hAlone.2 t hStep) hRest
    intro group hOpen
    subst hOpen
    exact hGroups List.mem_cons_self

theorem empty_sound : empty.Sound X partitionCount groups := by
  refine ⟨by simp [empty], ?_, by simp [empty, busy], by simp [empty, busy]⟩
  intro group _
  rfl

theorem Holds.open (h : s.Holds X partitionCount group) (hName : validateGroupName group = .ok ())
    (hFits : partitionCount < 2 ^ 32) :
    OffsetStore.open X s.dir group partitionCount =
      .ok ⟨group, (s.lastCommitted group).getD (List.replicate partitionCount 0)⟩ := by
  unfold Holds at h
  cases hLast : s.lastCommitted group with
  | none =>
    rw [hLast] at h
    exact OffsetStore.open_of_absent hName h
  | some offsets =>
    rw [hLast] at h
    obtain ⟨hCount, f, hf, hSettled⟩ := h
    exact OffsetStore.open_of_settled hName hf hSettled hCount hFits

end Desk

/-- Whatever the consumers of a topic do and wherever the machine crashes, a group that opens
its store again finds its own last completed commit, if no group in use is called like
another one's temporary file and no group runs two commits at a time. -/
theorem Desk.groups_are_isolated (X : Crates) (partitionCount : Nat)
    (hFits : partitionCount < 2 ^ 32) {events : List DeskEvent} {s : Desk}
    (hRun : Desk.empty.run X partitionCount events = some s)
    (hAlone : Desk.empty.RunsAlone X partitionCount events) (group : String)
    (hName : validateGroupName group = .ok ())
    (hApart : TempNamesApart (group :: Desk.groupsOf events)) :
    OffsetStore.open X s.dir group partitionCount =
      .ok ⟨group, (s.lastCommitted group).getD (List.replicate partitionCount 0)⟩ := by
  have hSound := run_sound empty_sound hApart (List.subset_cons_self _ _) hAlone hRun
  exact (hSound.files group List.mem_cons_self).open hName hFits

/-- A commit of one offset through a seat, without interruption. -/
def commitSteps (seat : Nat) (offset : UInt64) : List DeskEvent :=
  [.create seat [offset], .write seat 20, .sync seat, .rename seat]

/-- Group `b` commits; `a` has written a part of its encoding when `b` begins another commit;
`b`'s is complete when the machine crashes and takes what it can. -/
def interruptedRun : List DeskEvent :=
  [.open "a", .open "b"] ++ commitSteps 1 7 ++ [.create 0 [3], .write 0 5] ++
    commitSteps 1 8 ++ [.write 0 9, .crash fun _ => 0, .open "a"]

theorem Desk.groups_are_isolated_interrupted :
    ∃ s, Desk.empty.run Crates.uncompressed 1 interruptedRun = some s ∧
      OffsetStore.open Crates.uncompressed s.dir "b" 1 = .ok ⟨"b", [8]⟩ := by
  have hRuns : (Desk.empty.run Crates.uncompressed 1 interruptedRun).map
      (fun s => s.lastCommitted "b") = some (some [8]) := by
    decide +kernel
  obtain ⟨s, hRun, hLast⟩ := Option.map_eq_some_iff.mp hRuns
  refine ⟨s, hRun, ?_⟩
  have hOpen := Desk.groups_are_isolated Crates.uncompressed 1 (by decide) hRun
    (by decide +kernel) "b" (by decide) (by decide)
  rw [hLast] at hOpen
  exact hOpen

/-- Two groups commit one after the other, the first one called like the other's temporary
file. The second commit takes its file away. -/
theorem Desk.commit_resets_another_group :
    validateGroupName "x" = .ok () ∧ validateGroupName "x.tmp" = .ok () ∧
      ∃ s, Desk.empty.run Crates.uncompressed 1
          ([.open "x", .open "x.tmp"] ++ commitSteps 1 7 ++ commitSteps 0 1) = some s ∧
        s.lastCommitted "x.tmp" = some [7] ∧
        OffsetStore.open Crates.uncompressed s.dir "x.tmp" 1 = .ok ⟨"x.tmp", [0]⟩ := by
  refine ⟨by decide, by decide, ?_⟩
  have hRuns : (Desk.empty.run Crates.uncompressed 1
      ([.open "x", .open "x.tmp"] ++ commitSteps 1 7 ++ commitSteps 0 1)).map
        (fun s => (s.lastCommitted "x.tmp",
          OffsetStore.open Crates.uncompressed s.dir "x.tmp" 1)) =
      some (some [7], .ok ⟨"x.tmp", [0]⟩) := by
    decide +kernel
  obtain ⟨s, hRun, hBoth⟩ := Option.map_eq_some_iff.mp hRuns
  rw [Prod.mk.injEq] at hBoth
  exact ⟨s, hRun, hBoth.1, hBoth.2⟩

end Kafko
