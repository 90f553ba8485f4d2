import Kafko.Topic.Replies

/-!
# Parked consumers and the signal

A consumer that has found nothing marks itself as parked, enables its `Notified` future and scans
once more before it waits. Its last questions go through the inboxes of the writers. A writer
answers a question at the end of a wake-up and signals right after it, and it takes nothing else
from its inbox before that. So as long as a waiting consumer has not been notified, every writer
is still on its way to the signal, and the partitions are as the consumer was told
(`Reader.Informed`).
-/

namespace Kafko

open Disk

/-! ## One partition -/

namespace Host

variable {s s' : Hub} {host host' : Host} {offset reply : Nat}

/-- There is nothing at this offset, and the writer has yet to signal. -/
def Quiet (host : Host) (offset : Nat) : Prop :=
  host.Pending ∧ host.history.get offset = none

/-- A parked consumer has asked for the record at an offset. If it was told that there is none
then there is none, and the writer has yet to signal. -/
structure Watched (host : Host) (offset reply : Nat) : Prop where
  asked : ∀ c ∈ host.inbox, c.channel = some reply → c = .readAt offset reply
  told : ∀ result, (reply, result) ∈ host.sent → host.Pending ∧
    ∀ found, result = .ok found → (∀ record, found ≠ .record (some record)) →
      host.history.get offset = none

theorem Pending.not_serving (h : host.Pending) : host.phase ≠ .serving := by
  obtain ⟨last, hPhase | hPhase⟩ := h <;> simp [hPhase]

theorem Pending.not_ended (h : host.Pending) : host.phase ≠ .ended := by
  obtain ⟨last, hPhase | hPhase⟩ := h <;> simp [hPhase]

theorem Quiet.moves (h : host.Quiet offset) (hMoves : host.Moves s s' host')
    (hParked : 0 < s.parked) (hUntold : ∃ r ∈ s'.readers, r.future = some false) :
    host'.Quiet offset := by
  obtain ⟨hPending, hNone⟩ := h
  cases hMoves with
  | push command hFresh hNext => exact ⟨hPending, hNone⟩
  | act hActs =>
    cases hActs with
    | turn faults hPhase hWake => exact absurd hPhase hPending.not_serving
    | panic faults message hPhase hAppends => exact absurd hPhase hPending.not_serving
    | retention oldest hPhase hLe => exact absurd hPhase hPending.not_serving
    | close => exact ⟨hPending, hNone⟩
    | finish hPhase => exact absurd hPhase hPending.not_serving
  | load hPhase hLoaded => exact ⟨⟨_, Or.inr rfl⟩, hNone⟩
  | pass hPhase hZero => exact absurd hZero (Nat.ne_of_gt hParked)
  | pulse hPhase hTold =>
    obtain ⟨r, hr, hFuture⟩ := hUntold
    exact absurd hFuture (hTold r hr)

/-- A question is the last command of the wake-up that answers it. -/
theorem readAt_last {taken before after : List PartitionCommand} (hWake : Wakeable taken)
    (hTaken : taken = before ++ .readAt offset reply :: after) : after = [] := by
  by_contra hNe
  have hMem : .readAt offset reply ∈ taken.dropLast := by
    rw [hTaken, List.dropLast_append_of_ne_nil (List.cons_ne_nil _ _),
      List.dropLast_cons_of_ne_nil hNe]
    exact List.mem_append_right _ List.mem_cons_self
  cases hWake.2.1 _ hMem

theorem Watched.moves (h : host.Watched offset reply) (hMoves : host.Moves s s' host')
    (hReply : reply < s.nextReply) (hParked : 0 < s.parked)
    (hUntold : ∃ r ∈ s'.readers, r.future = some false) : host'.Watched offset reply := by
  cases hMoves with
  | push command hFresh hNext =>
    refine ⟨?_, h.told⟩
    intro c hMem hChannel
    rcases List.mem_append.mp hMem with hOld | hNew
    · exact h.asked c hOld hChannel
    · rw [List.mem_singleton.mp hNew] at hChannel
      exact absurd (hFresh reply hChannel) (Nat.ne_of_lt hReply)
  | act hActs =>
    -- While the writer is serving nothing has been sent to the consumer yet.
    have hUnsent : host.phase = .serving → ∀ result, (reply, result) ∉ host.sent := by
      intro hPhase result hMem
      exact (h.told result hMem).1.not_serving hPhase
    cases hActs with
    | turn faults hPhase hWake =>
      refine ⟨fun c hMem => h.asked c (List.mem_of_mem_drop hMem), ?_⟩
      intro result hMem
      rcases mem_sent_answer hMem with
        hOld | ⟨_, c, _, fault, added, added', hIn, hTaken, hAnswer, hState, hLast⟩
      · exact absurd hOld (hUnsent hPhase result)
      · refine ⟨⟨false, Or.inl rfl⟩, ?_⟩
        obtain rfl := h.asked c (List.mem_of_mem_take hIn) (History.respond_channel hAnswer)
        have hNil : added' = [] := hLast (readAt_last hWake hTaken)
        intro found hFound hMiss
        subst hFound hNil
        show (host.answer faults).history.get offset = none
        obtain ⟨hServe, hAnswer⟩ := History.respond_ok hAnswer
        rw [hState, History.append_nil, hServe]
        simp only [History.serve, List.mem_singleton, Prod.mk.injEq, Except.ok.injEq,
          true_and] at hAnswer
        cases hGet : (host.history.append added).get offset with
        | none => exact hGet
        | some record => exact absurd (hAnswer.trans (by rw [hGet])) (hMiss record)
    | panic faults message hPhase hAppends =>
      refine ⟨fun c hMem => (List.not_mem_nil hMem).elim, ?_⟩
      intro result hMem
      rcases mem_sent_answer hMem with hOld | ⟨_, c, _, _, _, _, hIn, -, hAnswer, -, -⟩
      · exact absurd hOld (hUnsent hPhase result)
      · obtain rfl := h.asked c (List.mem_of_mem_take hIn) (History.respond_channel hAnswer)
        cases hAppends _ hIn
    | retention oldest hPhase hLe =>
      exact ⟨h.asked, fun result hMem => absurd hMem (hUnsent hPhase result)⟩
    | close => exact ⟨h.asked, h.told⟩
    | finish hPhase => exact ⟨h.asked, fun result hMem => absurd hMem (hUnsent hPhase result)⟩
  | load hPhase hLoaded =>
    exact ⟨h.asked, fun result hMem => ⟨⟨_, Or.inr rfl⟩, (h.told result hMem).2⟩⟩
  | pass hPhase hZero => exact absurd hZero (Nat.ne_of_gt hParked)
  | pulse hPhase hTold =>
    obtain ⟨r, hr, hFuture⟩ := hUntold
    exact absurd hFuture (hTold r hr)

theorem Channels.watched (h : host.Channels reply) :
    (host.push (.readAt offset reply)).Watched offset reply := by
  refine ⟨?_, ?_⟩
  · intro c hMem hChannel
    rcases List.mem_append.mp hMem with hOld | hNew
    · exact absurd (h.inbox c hOld reply hChannel) (Nat.lt_irrefl _)
    · exact List.mem_singleton.mp hNew
  · intro result hMem
    exact absurd (h.sent _ hMem) (Nat.lt_irrefl _)

end Host

/-! ## One consumer -/

namespace Hub

variable {s s' : Hub} {p offset reply : Nat}

def QuietAt (s : Hub) (p offset : Nat) : Prop :=
  ∃ host, s.hosts[p]? = some host ∧ host.Quiet offset

def WatchedAt (s : Hub) (p offset reply : Nat) : Prop :=
  reply < s.nextReply ∧ ∃ host, s.hosts[p]? = some host ∧ host.Watched offset reply

theorem QuietAt.steps (h : s.QuietAt p offset) (hStep : s.Steps s') (hParked : 0 < s.parked)
    (hUntold : ∃ r ∈ s'.readers, r.future = some false) : s'.QuietAt p offset := by
  obtain ⟨host, hHost, hQuiet⟩ := h
  obtain ⟨host', hHost', rfl | hMoves⟩ := hStep.moves hHost
  · exact ⟨host', hHost', hQuiet⟩
  · exact ⟨host', hHost', hQuiet.moves hMoves hParked hUntold⟩

theorem WatchedAt.steps (h : s.WatchedAt p offset reply) (hStep : s.Steps s')
    (hParked : 0 < s.parked) (hUntold : ∃ r ∈ s'.readers, r.future = some false) :
    s'.WatchedAt p offset reply := by
  obtain ⟨hReply, host, hHost, hWatched⟩ := h
  refine ⟨hReply.trans_le hStep.nextReply_le, ?_⟩
  obtain ⟨host', hHost', rfl | hMoves⟩ := hStep.moves hHost
  · exact ⟨host', hHost', hWatched⟩
  · exact ⟨host', hHost', hWatched.moves hMoves hReply hParked hUntold⟩

theorem Fresh.watchedAt {host : Host} (h : s.Fresh) (hHost : s.hosts[p]? = some host)
    (hHosts : s'.hosts = (s.applied (.sends p host (.readAt offset s.nextReply))).hosts)
    (hNext : s'.nextReply = s.nextReply + 1) : s'.WatchedAt p offset s.nextReply := by
  refine ⟨?_, host.push (.readAt offset s.nextReply), ?_, (h p host hHost).watched⟩
  · rw [hNext]
    exact Nat.lt_succ_self _
  · rw [hHosts]
    exact List.getElem?_set_self (List.getElem?_eq_some_iff.mp hHost).1

end Hub

namespace Reader

variable {s s' : Hub} {r r' : Reader} {effect : Effect}

/-- Between `enable` and the end of `notified.await`. -/
def enabled (r : Reader) : Bool :=
  match r.stage with
  | .asking again _ | .awaiting again _ _ => again
  | .waiting => true
  | _ => false

/-- The first `i` partitions of the scan have nothing at their cursors. -/
def Scanned (s : Hub) (r : Reader) (i : Nat) : Prop :=
  ∀ j < i, s.QuietAt (r.consumer.scanIndex j) (r.consumer.position (r.consumer.scanIndex j))

/-- What an enabled future that was not notified says about the partitions. -/
def Informed (s : Hub) (r : Reader) : Prop :=
  match r.stage with
  | .asking _ i => r.Scanned s i
  | .awaiting _ i reply => r.Scanned s i ∧
    s.WatchedAt (r.consumer.scanIndex i) (r.consumer.position (r.consumer.scanIndex i)) reply
  | .waiting => r.Scanned s r.consumer.cursors.length
  | _ => True

structure Watching (s : Hub) (r : Reader) : Prop where
  sized : r.consumer.cursors.length = s.hosts.length
  armed : r.future.isSome = r.enabled
  informed : r.future = some false → r.Informed s

theorem isParked_of_enabled (h : r.enabled = true) : r.isParked = true := by
  unfold enabled at h
  unfold isParked
  cases hStage : r.stage <;> simp_all

theorem stageAt_cases (r : Reader) (again : Bool) (i : Nat) :
    r.stageAt again i = .asking again i ∨
      r.consumer.cursors.length ≤ i ∧
        (again = true ∧ r.stageAt again i = .waiting ∨
          again = false ∧ r.stageAt again i = .caughtUp) := by
  unfold stageAt
  split
  · exact Or.inl rfl
  · next hLe =>
    refine Or.inr ⟨Nat.le_of_not_lt hLe, ?_⟩
    cases again
    · exact Or.inr ⟨rfl, rfl⟩
    · exact Or.inl ⟨rfl, rfl⟩

theorem enabled_stageAt {again : Bool} {i : Nat} (h : r'.stage = r.stageAt again i) :
    r'.enabled = again := by
  unfold enabled
  rw [h]
  rcases r.stageAt_cases again i with hStage | ⟨-, ⟨rfl, hStage⟩ | ⟨rfl, hStage⟩⟩ <;> rw [hStage]

theorem isParked_stageAt {again : Bool} {i : Nat} (h : r'.stage = r.stageAt again i) :
    r'.isParked = again := by
  unfold isParked
  rw [h]
  rcases r.stageAt_cases again i with hStage | ⟨-, ⟨rfl, hStage⟩ | ⟨rfl, hStage⟩⟩ <;> rw [hStage]

/-- The counter moves with the consumer, unless a parked call is dropped: the consumer is then
idle and the counter has not moved. -/
theorem Steps.balance (h : r.Steps s effect r') (hPos : r.isParked = true → 0 < s.parked) :
    s.parked + r'.isParked.toNat = (s.applied effect).parked + r.isParked.toNat ∨
      effect = .none ∧ r'.stage = .idle := by
  cases h with
  | next hStage =>
    left
    have hOff : r.isParked = false := by rw [isParked, hStage]
    rw [isParked_stageAt (r := r) (i := 0) rfl, hOff]
    rfl
  | ask hStage hHost hAccepts =>
    left
    rename_i again i host
    have hAgain : r.isParked = again := by rw [isParked, hStage]
    rw [hAgain]
    rfl
  | leave hStage =>
    left
    rename_i again
    have hAgain : r.isParked = again := by
      rw [isParked]
      obtain ⟨i, hStage⟩ | ⟨i, reply, hStage⟩ := hStage <;> rw [hStage]
    have hLeft : (r.leave again).isParked = again := by cases again <;> rfl
    rw [hLeft, hAgain]
    rfl
  | take hStage hHost hReply =>
    left
    rename_i again i reply host record
    have hAgain : r.isParked = again := by rw [isParked, hStage]
    have hLeft : (r.take again (r.consumer.scanIndex i) record).isParked = again := by
      cases again <;> rfl
    rw [hLeft, hAgain]
    rfl
  | miss hStage hHost hReply hMiss =>
    left
    rename_i again i reply host result
    have hAgain : r.isParked = again := by rw [isParked, hStage]
    rw [isParked_stageAt (r := r) (i := i + 1) rfl, hAgain]
    rfl
  | park hStage =>
    left
    have hOff : r.isParked = false := by rw [isParked, hStage]
    rw [hOff]
    rfl
  | enable hStage =>
    left
    have hMarked : r.isParked = true := by rw [isParked, hStage]
    rw [isParked_stageAt (r := r) (i := 0) rfl, hMarked]
    rfl
  | wake hStage hFuture =>
    left
    have hMarked : r.isParked = true := by rw [isParked, hStage]
    rw [hMarked]
    rfl
  | unmark hStage =>
    left
    rename_i loop
    have hMarked : r.isParked = true := by rw [isParked, hStage]
    have hLeft : { r with stage := if loop then r.stageAt false 0 else .idle }.isParked = false := by
      cases loop
      · rfl
      · exact isParked_stageAt (r := r) (i := 0) rfl
    have hCounted := hPos hMarked
    rw [hLeft, hMarked]
    show s.parked + 0 = s.parked - 1 + 1
    omega
  | cancel hStage => exact Or.inr ⟨rfl, rfl⟩

theorem informed_stageAt {i : Nat} (hStage : r'.stage = r.stageAt true i)
    (hConsumer : r'.consumer = r.consumer) (h : r.Scanned s i) : r'.Informed s := by
  have hScanned : ∀ k, r.Scanned s k → r'.Scanned s k := by
    intro k hk
    rw [Scanned, hConsumer]
    exact hk
  unfold Informed
  rw [hStage]
  rcases r.stageAt_cases true i with hAt | ⟨hLe, ⟨-, hAt⟩ | ⟨hFalse, -⟩⟩
  · rw [hAt]
    exact hScanned i h
  · rw [hAt]
    refine hScanned _ fun j hj => h j (hj.trans_le ?_)
    rwa [hConsumer]
  · cases hFalse

/-- The partitions a consumer was told about stay as they are until it is notified. -/
theorem Scanned.steps {i : Nat} (h : r.Scanned s i) (hStep : s.Steps s') (hParked : 0 < s.parked)
    (hUntold : ∃ r ∈ s'.readers, r.future = some false) : r.Scanned s' i :=
  fun j hj => (h j hj).steps hStep hParked hUntold

theorem Informed.steps (h : r.Informed s) (hStep : s.Steps s') (hParked : 0 < s.parked)
    (hUntold : ∃ r ∈ s'.readers, r.future = some false) : r.Informed s' := by
  unfold Informed at h ⊢
  cases hStage : r.stage with
  | asking again i =>
    rw [hStage] at h
    exact h.steps hStep hParked hUntold
  | awaiting again i reply =>
    rw [hStage] at h
    exact ⟨h.1.steps hStep hParked hUntold, h.2.steps hStep hParked hUntold⟩
  | waiting =>
    rw [hStage] at h
    exact h.steps hStep hParked hUntold
  | _ => trivial

theorem enabled_of_future (h : r.Watching s) (hFuture : r.future = some false) :
    r.enabled = true := by
  rw [← h.armed, hFuture]
  rfl

/-- A step of the consumer itself. -/
theorem Watching.own (h : r.Watching s) (hFresh : s.Fresh) (hOwn : r.Steps s effect r')
    (hStep : s.Steps s') (hHosts : s'.hosts = (s.applied effect).hosts)
    (hNext : s'.nextReply = (s.applied effect).nextReply) (hr' : r' ∈ s'.readers)
    (hParked : r.isParked = true → 0 < s.parked) : r'.Watching s' := by
  have hLength := hStep.hosts_length
  have hStay : r'.future = some false → r.future = some false → ∀ i, r.Scanned s i →
      r.Scanned s' i := by
    intro hUntold hFuture i hScanned
    have hPos := hParked (isParked_of_enabled (enabled_of_future h hFuture))
    exact hScanned.steps hStep hPos ⟨r', hr', hUntold⟩
  cases hOwn with
  | next hStage =>
    have hOff : r.enabled = false := by rw [enabled, hStage]
    refine ⟨h.sized.trans hLength.symm, ?_, ?_⟩
    · rw [enabled_stageAt (r := r) (i := 0) rfl, ← hOff]
      exact h.armed
    · intro hFuture
      have hOn := enabled_of_future h hFuture
      rw [hOff] at hOn
      cases hOn
  | ask hStage hHost hAccepts =>
    rename_i again i host
    refine ⟨h.sized.trans hLength.symm, ?_, ?_⟩
    · have hArmed := h.armed
      rw [enabled, hStage] at hArmed
      exact hArmed
    · intro hFuture
      have hBefore := h.informed hFuture
      rw [Informed, hStage] at hBefore
      exact ⟨hStay hFuture hFuture i hBefore, hFresh.watchedAt hHost hHosts hNext⟩
  | leave hStage =>
    rename_i again
    refine ⟨h.sized.trans hLength.symm, ?_, fun hFuture => by cases hFuture⟩
    cases again <;> rfl
  | take hStage hHost hReply =>
    rename_i again i reply host record
    refine ⟨?_, ?_, fun hFuture => by cases hFuture⟩
    · rw [hLength, ← h.sized]
      exact List.length_set
    · cases again <;> rfl
  | miss hStage hHost hReply hMiss =>
    rename_i again i reply host result
    refine ⟨h.sized.trans hLength.symm, ?_, ?_⟩
    · rw [enabled_stageAt (r := r) (i := i + 1) rfl]
      have hArmed := h.armed
      rw [enabled, hStage] at hArmed
      exact hArmed
    · intro hFuture
      have hOn := enabled_of_future h hFuture
      rw [enabled, hStage] at hOn
      subst hOn
      have hBefore := h.informed hFuture
      rw [Informed, hStage] at hBefore
      obtain ⟨hScanned, -, host₀, hHost₀, hWatched⟩ := hBefore
      obtain rfl : host₀ = host := Option.some.inj (hHost₀.symm.trans hHost)
      obtain ⟨hPending, hNone⟩ := hWatched.told _ hReply
      have hAll : r.Scanned s (i + 1) := by
        intro j hj
        rcases Nat.lt_succ_iff_lt_or_eq.mp hj with hj | rfl
        · exact hScanned j hj
        · exact ⟨host₀, hHost, hPending, hNone result rfl hMiss⟩
      exact informed_stageAt rfl rfl (hStay hFuture hFuture _ hAll)
  | park hStage =>
    have hOff : r.enabled = false := by rw [enabled, hStage]
    refine ⟨h.sized.trans hLength.symm, h.armed.trans hOff, fun _ => trivial⟩
  | enable hStage =>
    refine ⟨h.sized.trans hLength.symm, ?_, ?_⟩
    · rw [enabled_stageAt (r := r) (i := 0) rfl]
      rfl
    · intro _
      exact informed_stageAt rfl rfl fun j hj => absurd hj (Nat.not_lt_zero j)
  | wake hStage hFuture =>
    exact ⟨h.sized.trans hLength.symm, rfl, fun hFuture => by cases hFuture⟩
  | unmark hStage =>
    rename_i loop
    have hOff : r.enabled = false := by rw [enabled, hStage]
    refine ⟨h.sized.trans hLength.symm, ?_, ?_⟩
    · apply (h.armed.trans hOff).trans
      cases loop
      · rfl
      · exact (enabled_stageAt (r := r) (i := 0) rfl).symm
    · intro hFuture
      have hOn := enabled_of_future h hFuture
      rw [hOff] at hOn
      cases hOn
  | cancel hStage =>
    exact ⟨h.sized.trans hLength.symm, rfl, fun hFuture => by cases hFuture⟩

end Reader

/-! ## Every reachable state -/

namespace Hub

variable {s s' : Hub}

structure Watching (s : Hub) : Prop where
  fresh : s.Fresh
  counted : s.readers.countP Reader.isParked ≤ s.parked
  each : ∀ r ∈ s.readers, r.Watching s

theorem Watching.parked_pos (h : s.Watching) {r : Reader} (hr : r ∈ s.readers)
    (hParked : r.isParked = true) : 0 < s.parked :=
  (List.countP_pos_iff.mpr ⟨r, hr, hParked⟩).trans_le h.counted

theorem countP_isParked_set {readers : List Reader} {c : Nat} {r : Reader}
    (hr : readers[c]? = some r) (r' : Reader) :
    (readers.set c r').countP Reader.isParked + r.isParked.toNat =
      readers.countP Reader.isParked + r'.isParked.toNat := by
  obtain ⟨hLt, rfl⟩ := List.getElem?_eq_some_iff.mp hr
  rw [List.countP_set hLt]
  cases hOld : readers[c].isParked with
  | false => cases r'.isParked <;> simp
  | true =>
    have hPos : 0 < readers.countP Reader.isParked :=
      List.countP_pos_iff.mpr ⟨readers[c], List.getElem_mem hLt, hOld⟩
    cases r'.isParked <;> simp <;> omega

theorem Watching.counted_steps (h : s.Watching) (hStep : s.Steps s') :
    s'.readers.countP Reader.isParked ≤ s'.parked := by
  have hCounted := h.counted
  cases hStep with
  | join cursors hLen =>
    rw [List.countP_append]
    exact hCounted
  | reader hr hOwn =>
    rename_i c r r' effect
    have hBalance := hOwn.balance (h.parked_pos (List.mem_of_getElem? hr))
    have hSet := countP_isParked_set hr r'
    show ((s.applied effect).readers.set c r').countP Reader.isParked ≤ (s.applied effect).parked
    rw [applied_readers]
    rcases hBalance with hMoved | ⟨rfl, hIdle⟩
    · omega
    · have hOff : r'.isParked = false := by rw [Reader.isParked, hIdle]
      rw [hOff, Bool.toNat_false] at hSet
      show (s.readers.set c r').countP Reader.isParked ≤ s.parked
      omega
  | call hCall hOwn =>
    rename_i k call call' effect
    have hSame : (s.applied effect).parked = s.parked := by cases hOwn <;> rfl
    show (s.applied effect).readers.countP Reader.isParked ≤ (s.applied effect).parked
    rw [applied_readers, hSame]
    exact hCounted
  | notify hq hPhase =>
    rw [List.countP_map]
    exact hCounted
  | _ => exact hCounted

theorem Watching.steps (h : s.Watching) (hStep : s.Steps s') : s'.Watching := by
  refine ⟨h.fresh.steps hStep, h.counted_steps hStep, ?_⟩
  intro r' hr'
  rcases hStep.reader_origin hr' with
    ⟨cursors, hLen, rfl⟩ | ⟨r, hr, effect, hOwn, hHosts, hNext⟩ | hOld | ⟨r, hr, rfl⟩
  · exact ⟨hLen.trans hStep.hosts_length.symm, rfl, fun hFuture => by cases hFuture⟩
  · exact (h.each r hr).own h.fresh hOwn hStep hHosts hNext hr' (h.parked_pos hr)
  · have hBefore := h.each r' hOld
    refine ⟨hBefore.sized.trans hStep.hosts_length.symm, hBefore.armed, ?_⟩
    intro hFuture
    have hOn := Reader.enabled_of_future hBefore hFuture
    exact (hBefore.informed hFuture).steps hStep
      (h.parked_pos hOld (Reader.isParked_of_enabled hOn)) ⟨r', hr', hFuture⟩
  · have hBefore := h.each r hr
    refine ⟨hBefore.sized.trans hStep.hosts_length.symm, ?_, ?_⟩
    · rw [Option.isSome_map]
      exact hBefore.armed
    · intro hFuture
      cases hOld : r.future <;> simp [hOld] at hFuture

theorem watching_start (histories : List (History Record)) : (start histories).Watching :=
  ⟨fresh_start histories, Nat.le_refl _, fun _ hr => (List.not_mem_nil hr).elim⟩

theorem watching_run {histories : List (History Record)} {events : List HubEvent}
    (hRun : (start histories).run events = some s) : s.Watching :=
  run_induction (fun _ _ hStep h => h.steps hStep) (watching_start histories) hRun

/-- A waiting consumer that was not notified has been told about every partition. -/
theorem Watching.quiet (h : s.Watching) {r : Reader} (hr : r ∈ s.readers)
    (hStage : r.stage = .waiting) (hFuture : r.future = some false) {p : Nat} {host : Host}
    (hHost : s.hosts[p]? = some host) : host.Quiet (r.consumer.position p) := by
  have hWatching := h.each r hr
  have hInformed := hWatching.informed hFuture
  rw [Reader.Informed, hStage] at hInformed
  have hLt : p < r.consumer.cursors.length := by
    rw [hWatching.sized]
    exact (List.getElem?_eq_some_iff.mp hHost).1
  have hMem : p ∈ (List.range' 0 r.consumer.cursors.length).map r.consumer.scanIndex :=
    (Consumer.scanIndex_perm r.consumer).mem_iff.mpr (List.mem_range.mpr hLt)
  obtain ⟨j, hj, rfl⟩ := List.mem_map.mp hMem
  have hjLt : j < r.consumer.cursors.length := by simpa using (List.mem_range'_1.mp hj).2
  obtain ⟨host₀, hHost₀, hQuiet⟩ := hInformed j hjLt
  obtain rfl : host₀ = host := Option.some.inj (hHost₀.symm.trans hHost)
  exact hQuiet

/-- No lost wakeup: no partition has a record at the cursor of a waiting consumer that was not
notified, once its writer has signalled after the append. -/
theorem no_lost_wakeup {histories : List (History Record)} {events : List HubEvent}
    (hRun : (start histories).run events = some s) {r : Reader} (hr : r ∈ s.readers)
    (hStage : r.stage = .waiting) (hFuture : r.future = some false) :
    ¬ ∃ (p : Nat) (host : Host), s.hosts[p]? = some host ∧
      (host.history.get (r.consumer.position p)).isSome = true ∧
      r.consumer.position p < host.signalled := by
  intro ⟨p, host, hHost, hReadable, hSignalled⟩
  have hQuiet := (watching_run hRun).quiet hr hStage hFuture hHost
  rw [hQuiet.2] at hReadable
  cases hReadable

/-- A consumer at the end of one empty partition goes to sleep. -/
def fallAsleep : List HubEvent :=
  [.join [0], .reader 0 .next, .reader 0 .ask, .host 0 (.turn [none]), .signal 0,
    .reader 0 .receive, .reader 0 .park, .reader 0 .enable, .reader 0 .ask, .host 0 (.turn [none]),
    .reader 0 .receive]

theorem no_lost_wakeup_fallAsleep : ∃ s r, (start [History.empty]).run fallAsleep = some s ∧
    r ∈ s.readers ∧ r.stage = .waiting ∧ r.future = some false ∧
    ¬ ∃ (p : Nat) (host : Host), s.hosts[p]? = some host ∧
      (host.history.get (r.consumer.position p)).isSome = true ∧
      r.consumer.position p < host.signalled := by
  refine ⟨_, _, rfl, List.mem_singleton.mpr rfl, rfl, rfl, ?_⟩
  have hRun : (start [History.empty]).run fallAsleep = some _ := rfl
  exact no_lost_wakeup hRun (List.mem_singleton.mpr rfl) rfl rfl

/-- A consumer is told that a writer has ended, for whatever reason: it is not left waiting, and
the way back to its first scan is open. -/
theorem ended_writer_wakes_consumers {histories : List (History Record)} {events : List HubEvent}
    (hRun : (start histories).run events = some s) {p : Nat} {host : Host}
    (hHost : s.hosts[p]? = some host) (hEnded : host.phase = .ended) {c : Nat} {r : Reader}
    (hr : s.readers[c]? = some r) (hStage : r.stage = .waiting) :
    r.future = some true ∧ (s.step (.reader c .wake)).isSome = true := by
  have hWatching := watching_run hRun
  have hMem := List.mem_of_getElem? hr
  have hTold : r.future = some true := by
    cases hFuture : r.future with
    | none =>
      have hArmed := (hWatching.each r hMem).armed
      rw [Reader.enabled, hStage, hFuture] at hArmed
      cases hArmed
    | some told =>
      cases told with
      | true => rfl
      | false => exact absurd hEnded (hWatching.quiet hMem hStage hFuture hHost).1.not_ended
  refine ⟨hTold, ?_⟩
  simp [step, hr, readerStep, hStage, hTold]

theorem ended_writer_wakes_consumers_shutdown : ∃ s host r,
    (start [History.empty]).run (fallAsleep ++ [.signal 0, .notify 0, .host 0 .close,
      .host 0 .finish, .signal 0, .notify 0]) = some s ∧
    s.hosts[0]? = some host ∧ host.phase = .ended ∧ s.readers[0]? = some r ∧ r.stage = .waiting ∧
    r.future = some true ∧ (s.step (.reader 0 .wake)).isSome = true := by
  refine ⟨_, _, _, rfl, rfl, rfl, rfl, rfl, ?_⟩
  have hRun : (start [History.empty]).run (fallAsleep ++ [.signal 0, .notify 0, .host 0 .close,
    .host 0 .finish, .signal 0, .notify 0]) = some _ := rfl
  exact ended_writer_wakes_consumers hRun (p := 0) (c := 0) rfl rfl rfl rfl

end Hub

end Kafko
