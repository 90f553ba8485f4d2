import Kafko.Topic.Waiting
import Kafko.Topic.Rotation

/-!
# Every record is delivered

A consumer that keeps calling `next_with_position` gets to every record at or behind its cursors,
whatever the other tasks do, if the scheduler is fair, its calls do not fail and retention does not
overtake it. Within a call the scan comes closer to the partition of the record with every answer;
when a scan has come past it the next one begins in front of it; and each record taken from another
partition moves the start of the next scan closer. Going to sleep does not lose any time, because a
consumer does not stay asleep while there is a record at one of its cursors.
-/

namespace Kafko

open Disk Systems

variable {histories : List (History Record)} {e : Execution (Hub.courses histories)} {s s' : Hub}
  {p q c x k reply : Nat} {event : HubEvent}

/-! ## The way to a record -/

namespace Host

variable {host host' : Host} {offset : Nat}

/-- If this question is answered at all then with a record. -/
structure Certain (host : Host) (offset reply : Nat) : Prop where
  asked : ∀ command ∈ host.inbox, command.channel = some reply → command = .readAt offset reply
  told : ∀ result, (reply, .ok result) ∈ host.sent → ∃ record, result = .record (some record)

theorem Channels.certain (h : host.Channels reply) :
    (host.push (.readAt offset reply)).Certain offset reply := by
  refine ⟨?_, ?_⟩
  · intro command hMem hChannel
    rcases List.mem_append.mp hMem with hOld | hNew
    · exact absurd (h.inbox command hOld reply hChannel) (Nat.lt_irrefl _)
    · exact List.mem_singleton.mp hNew
  · intro result hMem
    exact absurd (h.sent _ hMem) (Nat.lt_irrefl _)

theorem Certain.answer (h : host.Certain offset reply) (hOldest : host.history.oldest ≤ offset)
    (hNext : offset < host.history.next) (faults : List (Option KafkoError)) :
    (host.answer faults).Certain offset reply := by
  refine ⟨fun command hMem => h.asked command (List.mem_of_mem_drop hMem), ?_⟩
  intro result hMem
  rcases mem_sent_answer hMem with hOld | ⟨_, command, _, fault, added, _, hIn, -, hAnswer, -, -⟩
  · exact h.told result hOld
  · obtain rfl := h.asked command (List.mem_of_mem_take hIn) (History.respond_channel hAnswer)
    obtain ⟨-, hServed⟩ := History.respond_ok hAnswer
    obtain ⟨-, hResult⟩ := Prod.mk.inj (List.mem_singleton.mp hServed)
    obtain rfl := Except.ok.inj hResult
    have hLt : offset < (host.history.records ++ added).length := by
      rw [List.length_append]
      exact Nat.lt_add_right _ hNext
    refine ⟨(host.history.records ++ added)[offset], congrArg Reply.record ?_⟩
    rw [History.get, if_pos (show (host.history.append added).oldest ≤ offset from hOldest)]
    exact List.getElem?_eq_getElem hLt

theorem Certain.moves (h : host.Certain offset reply) (hOldest : host.history.oldest ≤ offset)
    (hNext : offset < host.history.next) (hReply : reply < s.nextReply)
    (hMoves : host.Moves s s' host') : host'.Certain offset reply := by
  cases hMoves with
  | push command hFresh =>
    refine ⟨?_, h.told⟩
    intro command' hMem hChannel
    rcases List.mem_append.mp hMem with hOld | hNew
    · exact h.asked command' hOld hChannel
    · rw [List.mem_singleton.mp hNew] at hChannel
      exact absurd (hFresh reply hChannel) (Nat.ne_of_lt hReply)
  | act hActs =>
    cases hActs with
    | turn faults hPhase hWake =>
      have hAfter := h.answer hOldest hNext faults
      exact ⟨hAfter.asked, hAfter.told⟩
    | panic faults message hPhase hAppends =>
      have hAfter := h.answer hOldest hNext faults
      exact ⟨fun command hMem => (List.not_mem_nil hMem).elim, hAfter.told⟩
    | _ => exact ⟨h.asked, h.told⟩
  | _ => exact ⟨h.asked, h.told⟩

end Host

/-- How far a call has to go until it asks the `k`-th of `n` partitions, if it has not asked it in
this scan. -/
def Stage.toGo (n k : Nat) : Stage → Nat
  | .asking _ i => 2 * (k - i) + 1
  | .awaiting _ i _ => 2 * (k - i)
  | .idle => 2 * n + 1
  | .unmarking _ | .marked => 2 * n + 2
  | .caughtUp | .waiting => 2 * n + 3

/-- How far a scan has to go until its end. -/
def Stage.toEnd (n : Nat) : Stage → Nat
  | .asking _ i => 2 * (n - i) + 1
  | .awaiting _ i _ => 2 * (n - i)
  | _ => 0

/-- The `k`-th partition is still to be asked, or has been asked and will answer with a record. -/
def Stage.InFront (host : Host) (offset k : Nat) : Stage → Prop
  | .asking _ i => i ≤ k
  | .awaiting _ i reply => i < k ∨ i = k ∧ host.Certain offset reply
  | _ => True

namespace Reader

variable {r r' : Reader} {effect : Effect} {host host' : Host} {m : Nat}

/-- How far a consumer is from the record at an offset of partition `q`. A scan that may have come
past the partition goes on to its end. -/
inductive Nears (host : Host) (q offset : Nat) (r : Reader) : Nat → Prop
  | inFront {k : Nat} (hk : k < r.consumer.cursors.length) (hPlace : r.consumer.scanIndex k = q)
    (hFront : r.stage.InFront host offset k) :
    Nears host q offset r (k * (2 * r.consumer.cursors.length + 4) +
      r.stage.toGo r.consumer.cursors.length k)
  | past (hScans : (∃ again i, r.stage = .asking again i) ∨
      ∃ again i reply, r.stage = .awaiting again i reply) :
    Nears host q offset r (r.consumer.cursors.length * (2 * r.consumer.cursors.length + 4) +
      r.stage.toEnd r.consumer.cursors.length)

theorem exists_place (r : Reader) {q : Nat} (hq : q < r.consumer.cursors.length) :
    ∃ k < r.consumer.cursors.length, r.consumer.scanIndex k = q := by
  obtain ⟨k, hk, hPlace⟩ := List.mem_map.mp
    ((Consumer.scanIndex_perm r.consumer).mem_iff.mpr (List.mem_range.mpr hq))
  rw [List.mem_range'_1] at hk
  exact ⟨k, by omega, hPlace⟩

/-- Wherever a consumer is, it is on the way. -/
theorem exists_nears (host : Host) (offset : Nat) (hq : q < r.consumer.cursors.length) :
    ∃ m, r.Nears host q offset m := by
  obtain ⟨k, hk, hPlace⟩ := r.exists_place hq
  cases hStage : r.stage with
  | asking again i => exact ⟨_, .past (Or.inl ⟨again, i, hStage⟩)⟩
  | awaiting again i reply => exact ⟨_, .past (Or.inr ⟨again, i, reply, hStage⟩)⟩
  | _ => exact ⟨_, .inFront hk hPlace (by rw [hStage]; trivial)⟩

/-- Steps of others. -/
theorem Nears.other (h : r.Nears host q x m) (hConsumer : r'.consumer = r.consumer)
    (hStage : r'.stage = r.stage)
    (hCertain : ∀ again i reply, r.stage = .awaiting again i reply → host.Certain x reply →
      host'.Certain x reply) : r'.Nears host' q x m := by
  cases h with
  | @inFront k hk hPlace hFront =>
    rw [← hStage, ← hConsumer]
    refine .inFront (by rwa [hConsumer]) (by rwa [hConsumer]) ?_
    rw [hStage]
    cases hAt : r.stage with
    | awaiting again i reply =>
      rw [hAt] at hFront
      rcases hFront with hLt | ⟨hEq, hSure⟩
      · exact Or.inl hLt
      · exact Or.inr ⟨hEq, hCertain again i reply hAt hSure⟩
    | _ =>
      rw [hAt] at hFront
      exact hFront
  | past hScans =>
    rw [← hStage, ← hConsumer]
    exact .past (by rwa [hStage])

/-- Nothing is left of the larger part of the measure. -/
theorem fewer {k k' b y y' : Nat} (hLt : k' < k) (hy : y' < b) : k' * b + y' < k * b + y := by
  have hMul : (k' + 1) * b ≤ k * b := Nat.mul_le_mul_right b hLt
  rw [Nat.succ_mul] at hMul
  omega

theorem nears_inFront {n k : Nat} (hn : r.consumer.cursors.length = n) (hk : k < n)
    (hPlace : r.consumer.scanIndex k = q) (hFront : r.stage.InFront host x k) :
    r.Nears host q x (k * (2 * n + 4) + r.stage.toGo n k) := by
  subst hn
  exact .inFront hk hPlace hFront

theorem stageAt_asking {again : Bool} {i : Nat} (h : i < r.consumer.cursors.length) :
    r.stageAt again i = .asking again i := if_pos h

/-- After a record of another partition. -/
theorem nears_take (host : Host) (x : Nat) {again : Bool} {i k : Nat} {record : Record}
    (hk : k < r.consumer.cursors.length)
    (hPlace : (r.take again (r.consumer.scanIndex i) record).consumer.scanIndex k = q) :
    ∃ y < 2 * r.consumer.cursors.length + 4,
      (r.take again (r.consumer.scanIndex i) record).Nears host q x
        (k * (2 * r.consumer.cursors.length + 4) + y) := by
  have hLen : (r.take again (r.consumer.scanIndex i) record).consumer.cursors.length =
      r.consumer.cursors.length := List.length_set
  have hStage : (r.take again (r.consumer.scanIndex i) record).stage =
      if again then .unmarking false else .idle := rfl
  refine ⟨_, ?_, nears_inFront hLen hk hPlace ?_⟩
  · rw [hStage]
    cases again
    · change 2 * r.consumer.cursors.length + 1 < _
      omega
    · change 2 * r.consumer.cursors.length + 2 < _
      omega
  · rw [hStage]
    cases again <;> trivial

/-- A step of the consumer itself, in a call that is not lost. -/
theorem Nears.own (h : r.Nears host q x m) (hq : q < r.consumer.cursors.length)
    (hHost : s.hosts[q]? = some host) (hPosition : r.consumer.position q = x) (hFresh : s.Fresh)
    (hOwn : r.Steps s effect r') (hHosts : s'.hosts = (s.applied effect).hosts)
    (hHost' : s'.hosts[q]? = some host') (hKept : ∀ again, r.atAwait = true → r' ≠ r.leave again) :
    r'.consumer.position q = x + 1 ∨
      r'.consumer.position q = x ∧ ∃ m' < m, r'.Nears host' q x m' := by
  have hPos : 0 < r.consumer.cursors.length := Nat.zero_lt_of_lt hq
  cases hOwn with
  | next hStage =>
    refine Or.inr ⟨hPosition, ?_⟩
    cases h with
    | @inFront k hk hPlace _ =>
      refine ⟨_, ?_, nears_inFront rfl hk hPlace ?_⟩
      · simp only [stageAt_asking hPos, hStage, Stage.toGo]
        omega
      · simp only [stageAt_asking hPos, Stage.InFront]
        exact Nat.zero_le k
    | past hScans => simp [hStage] at hScans
  | @ask again i host₀ hStage hAsked hAccepts =>
    refine Or.inr ⟨hPosition, ?_⟩
    cases h with
    | @inFront k hk hPlace hFront =>
      rw [hStage] at hFront
      refine ⟨_, ?_, nears_inFront rfl hk hPlace ?_⟩
      · simp only [hStage, Stage.toGo]
        omega
      · rcases Nat.lt_or_eq_of_le hFront with hLt | hEq
        · exact Or.inl hLt
        · -- The question about the record itself.
          subst hEq
          refine Or.inr ⟨rfl, ?_⟩
          rw [hPlace] at hAsked hHosts
          obtain rfl : host₀ = host := Option.some.inj (hAsked.symm.trans hHost)
          have hSet : s'.hosts = s.hosts.set q (host₀.push (.readAt x s.nextReply)) := by
            rw [← hPosition]
            exact hHosts
          rw [hSet, List.getElem?_set_self (List.getElem?_eq_some_iff.mp hHost).1] at hHost'
          obtain rfl := Option.some.inj hHost'
          exact (hFresh q host₀ hHost).certain
    | past hScans =>
      refine ⟨_, ?_, .past (Or.inr ⟨again, i, s.nextReply, rfl⟩)⟩
      simp only [hStage, Stage.toEnd]
      omega
  | @leave again hStage =>
    refine absurd rfl (hKept again ?_)
    rcases hStage with ⟨i, hStage⟩ | ⟨i, reply, hStage⟩ <;> rw [atAwait, hStage]
  | @take again i reply host₀ record hStage hAsked hReply =>
    have hPlaced : r.consumer.scanIndex i < r.consumer.cursors.length := Nat.mod_lt _ hPos
    have hCursors : (r.take again (r.consumer.scanIndex i) record).consumer.cursors =
        r.consumer.cursors.set (r.consumer.scanIndex i)
          (r.consumer.position (r.consumer.scanIndex i) + 1) := rfl
    have hAfter := Consumer.position_set hPlaced hCursors q
    by_cases hSame : r.consumer.scanIndex i = q
    · rw [if_pos hSame] at hAfter
      exact Or.inl (hAfter.trans (by rw [hSame, hPosition]))
    · rw [if_neg hSame, hPosition] at hAfter
      refine Or.inr ⟨hAfter, ?_⟩
      cases h with
      | @inFront k hk hPlace hFront =>
        rw [hStage] at hFront
        rcases hFront with hLt | ⟨hEq, -⟩
        · have hMoved : (r.take again (r.consumer.scanIndex i) record).consumer.scanIndex (k - i - 1) =
              r.consumer.scanIndex k := Consumer.scanIndex_moved List.length_set rfl hLt
          obtain ⟨y, hy, hNears⟩ := nears_take host' x (by omega) (hMoved.trans hPlace)
          exact ⟨_, fewer (by omega) hy, hNears⟩
        · rw [hEq] at hSame
          exact absurd hPlace hSame
      | past hScans =>
        obtain ⟨k, hk, hPlace⟩ := (r.take again (r.consumer.scanIndex i) record).exists_place
          (q := q) (by rw [hCursors, List.length_set]; exact hq)
        rw [hCursors, List.length_set] at hk
        obtain ⟨y, hy, hNears⟩ := nears_take host' x hk hPlace
        exact ⟨_, fewer hk hy, hNears⟩
  | @miss again i reply host₀ result hStage hAsked hReply hMiss =>
    refine Or.inr ⟨hPosition, ?_⟩
    cases h with
    | @inFront k hk hPlace hFront =>
      rw [hStage] at hFront
      rcases hFront with hLt | ⟨rfl, hSure⟩
      · refine ⟨_, ?_, nears_inFront rfl hk hPlace ?_⟩
        · simp only [stageAt_asking (show i + 1 < r.consumer.cursors.length by omega), hStage,
            Stage.toGo]
          omega
        · simp only [stageAt_asking (show i + 1 < r.consumer.cursors.length by omega),
            Stage.InFront]
          exact hLt
      · rw [hPlace] at hAsked
        obtain rfl : host₀ = host := Option.some.inj (hAsked.symm.trans hHost)
        obtain ⟨record, hRecord⟩ := hSure.told result hReply
        exact absurd hRecord (hMiss record)
    | past hScans =>
      by_cases hMore : i + 1 < r.consumer.cursors.length
      · refine ⟨_, ?_, .past (Or.inl ⟨again, i + 1, stageAt_asking hMore⟩)⟩
        simp only [stageAt_asking hMore, hStage, Stage.toEnd]
        omega
      · obtain ⟨k, hk, hPlace⟩ := r.exists_place hq
        have hEnd : r.stageAt again (i + 1) = .waiting ∨ r.stageAt again (i + 1) = .caughtUp := by
          rw [stageAt, if_neg hMore]
          cases again
          · exact Or.inr rfl
          · exact Or.inl rfl
        refine ⟨_, fewer hk ?_, nears_inFront rfl hk hPlace ?_⟩
        · rcases hEnd with hEnd | hEnd <;> simp only [hEnd, Stage.toGo] <;> omega
        · rcases hEnd with hEnd | hEnd <;> simp only [hEnd, Stage.InFront]
  | park hStage =>
    refine Or.inr ⟨hPosition, ?_⟩
    cases h with
    | @inFront k hk hPlace _ =>
      refine ⟨_, ?_, nears_inFront rfl hk hPlace trivial⟩
      simp only [hStage, Stage.toGo]
      omega
    | past hScans => simp [hStage] at hScans
  | enable hStage =>
    refine Or.inr ⟨hPosition, ?_⟩
    cases h with
    | @inFront k hk hPlace _ =>
      refine ⟨_, ?_, nears_inFront rfl hk hPlace ?_⟩
      · simp only [stageAt_asking hPos, hStage, Stage.toGo]
        omega
      · simp only [stageAt_asking hPos, Stage.InFront]
        exact Nat.zero_le k
    | past hScans => simp [hStage] at hScans
  | wake hStage hFuture =>
    refine Or.inr ⟨hPosition, ?_⟩
    cases h with
    | @inFront k hk hPlace _ =>
      refine ⟨_, ?_, nears_inFront rfl hk hPlace trivial⟩
      simp only [hStage, Stage.toGo]
      omega
    | past hScans => simp [hStage] at hScans
  | @unmark loop hStage =>
    refine Or.inr ⟨hPosition, ?_⟩
    cases h with
    | @inFront k hk hPlace _ =>
      refine ⟨_, ?_, nears_inFront rfl hk hPlace ?_⟩
      · cases loop
        · simp only [hStage, Stage.toGo, Bool.false_eq_true, if_false]
          omega
        · simp only [stageAt_asking hPos, hStage, Stage.toGo, if_true]
          omega
      · cases loop
        · simp only [Bool.false_eq_true, if_false, Stage.InFront]
        · simp only [stageAt_asking hPos, if_true, Stage.InFront]
          exact Nat.zero_le k
    | past hScans => simp [hStage] at hScans
  | cancel hStage => exact absurd rfl (hKept false hStage)

end Reader

/-! ## Delivery -/

namespace Hub

/-- A call of the consumer ends without a record: it fails, or its future is dropped. -/
def LosesCall (s s' : Hub) (c : Nat) : Prop :=
  ∃ r again, s.readers[c]? = some r ∧ r.atAwait = true ∧ s'.readers[c]? = some (r.leave again)

/-- Retention has not overtaken the consumer in partition `q`. -/
def NotOvertaken (s : Hub) (c q : Nat) : Prop :=
  ∀ (r : Reader) (host : Host), s.readers[c]? = some r → s.hosts[q]? = some host →
    host.history.oldest ≤ r.consumer.position q

/-- The consumer is `m` away from the record at an offset. -/
structure Seeks (s : Hub) (c q x m : Nat) (r : Reader) (host : Host) : Prop where
  consumer : s.readers[c]? = some r
  partition : s.hosts[q]? = some host
  position : r.consumer.position q = x
  held : x < host.history.next
  nears : r.Nears host q x m

variable {m : Nat} {r : Reader} {host : Host} {t : Nat}

theorem Seeks.sized (h : (e.state t).Seeks c q x m r host) : q < r.consumer.cursors.length := by
  rw [((delivering_at e t).watching.each r (List.mem_of_getElem? h.consumer)).sized]
  exact (List.getElem?_eq_some_iff.mp h.partition).1

/-- A consumer does not sleep through a record. -/
theorem Seeks.awake (h : (e.state t).Seeks c q x m r host) (hKept : (e.state t).NotOvertaken c q)
    (hStage : r.stage = .waiting) : r.future = some true := by
  have hMem := List.mem_of_getElem? h.consumer
  have hWatching := (delivering_at e t).watching
  have hArmed := (hWatching.each r hMem).armed
  rw [Reader.enabled, hStage] at hArmed
  obtain ⟨told, hFuture⟩ := Option.isSome_iff_exists.mp hArmed
  cases told with
  | true => exact hFuture
  | false =>
    obtain ⟨-, hNone⟩ := hWatching.quiet hMem hStage hFuture h.partition
    have hOldest := hKept r host h.consumer h.partition
    rw [h.position] at hNone hOldest
    rw [History.get, if_pos hOldest, List.getElem?_eq_none_iff] at hNone
    exact absurd h.held (Nat.not_lt_of_le hNone)

/-- Between two steps of the consumer. -/
theorem Seeks.other (h : (e.state t).Seeks c q x m r host) (hKept : (e.state t).NotOvertaken c q)
    (hNot : ¬ e.Occurs (HubEvent.Of c) t) :
    ∃ r' host', (e.state (t + 1)).Seeks c q x m r' host' ∧ r'.consumer = r.consumer ∧
      r'.stage = r.stage := by
  rcases e.next t with ⟨-, hState⟩ | ⟨event, hLabel, hStep⟩
  · rw [hState]
    exact ⟨r, host, h, rfl, rfl⟩
  · obtain ⟨host', hHost', hCase⟩ := (step_cases hStep).moves h.partition
    have hCertain : ∀ again i reply, r.stage = .awaiting again i reply → host.Certain x reply →
        host'.Certain x reply := by
      intro again i reply hStage hSure
      rcases hCase with rfl | hMoves
      · exact hSure
      · have hDelivers := (delivering_at e t).each r (List.mem_of_getElem? h.consumer)
        have hOldest := hKept r host h.consumer h.partition
        rw [h.position] at hOldest
        exact hSure.moves hOldest h.held (hDelivers.owed again i reply hStage).1 hMoves
    have hHeld : x < host'.history.next := by
      rcases hCase with rfl | hMoves
      · exact h.held
      · exact h.held.trans_le hMoves.next_le
    have hSeeks : ∀ r' : Reader, (e.state (t + 1)).readers[c]? = some r' →
        r'.consumer = r.consumer → r'.stage = r.stage →
        (e.state (t + 1)).Seeks c q x m r' host' := by
      intro r' hr' hConsumer hStage
      refine ⟨hr', hHost', ?_, hHeld, h.nears.other hConsumer hStage hCertain⟩
      rw [hConsumer]
      exact h.position
    rcases step_reader hStep h.consumer with ⟨inner, _, _, rfl, -⟩ | ⟨-, hSame | hTold⟩
    · exact absurd ⟨_, .of inner, hLabel⟩ hNot
    · exact ⟨r, host', hSeeks r hSame rfl rfl, rfl, rfl⟩
    · exact ⟨_, host', hSeeks _ hTold rfl rfl, rfl, rfl⟩

/-- A step of the consumer. -/
theorem Seeks.own (h : (e.state t).Seeks c q x m r host)
    (hLoses : ¬ (e.state t).LosesCall (e.state (t + 1)) c) (hNow : e.Occurs (HubEvent.Of c) t) :
    (∃ r', (e.state (t + 1)).readers[c]? = some r' ∧ r'.consumer.position q = x + 1) ∨
      ∃ m' < m, ∃ r' host', (e.state (t + 1)).Seeks c q x m' r' host' := by
  obtain ⟨_, ⟨inner⟩, hLabel⟩ := hNow
  rcases e.next t with ⟨hNone, -⟩ | ⟨event, hLabel', hStep⟩
  · rw [hLabel] at hNone
    cases hNone
  obtain rfl : HubEvent.reader c inner = event := Option.some.inj (hLabel.symm.trans hLabel')
  obtain ⟨host', hHost', hCase⟩ := (step_cases hStep).moves h.partition
  rcases step_reader hStep h.consumer with ⟨_, effect, r', -, -, hOwn, hState, hr'⟩ | ⟨hOther, -⟩
  · have hHosts : (e.state (t + 1)).hosts = ((e.state t).applied effect).hosts := by
      rw [hState]
      rfl
    have hKept : ∀ again, r.atAwait = true → r' ≠ r.leave again := by
      intro again hAwait hEq
      rw [hEq] at hr'
      exact hLoses ⟨r, again, h.consumer, hAwait, hr'⟩
    have hHeld : x < host'.history.next := by
      rcases hCase with rfl | hMoves
      · exact h.held
      · exact h.held.trans_le hMoves.next_le
    rcases h.nears.own h.sized h.partition h.position (delivering_at e t).watching.fresh hOwn hHosts
      hHost' hKept with hDone | ⟨hPosition, m', hLess, hNears⟩
    · exact Or.inl ⟨r', hr', hDone⟩
    · exact Or.inr ⟨m', hLess, r', host', hr', hHost', hPosition, hHeld, hNears⟩
  · exact absurd rfl (hOther inner)

/-- The consumer gets to the next record of a partition. -/
theorem advances (hWriters : FairWriters e) (hReader : FairReader e c)
    (hCalls : e.WeaklyFair fun event => event = .reader c .next) {T : Nat}
    (hLoses : ∀ t, T ≤ t → ¬ (e.state t).LosesCall (e.state (t + 1)) c)
    (hKept : ∀ t, T ≤ t → (e.state t).NotOvertaken c q) (hT : T ≤ t)
    (hSeeks : (e.state t).Seeks c q x m r host) :
    ∃ u, t ≤ u ∧ ∃ r', (e.state u).readers[c]? = some r' ∧ r'.consumer.position q = x + 1 := by
  have hTopic : histories ≠ [] := by
    have hLt := (List.getElem?_eq_some_iff.mp hSeeks.partition).1
    rw [hosts_length_at] at hLt
    exact List.length_pos_iff.mp (Nat.zero_lt_of_lt hLt)
  refine Leads.by_measure
    (P := fun m t => T ≤ t ∧ ∃ r host, (e.state t).Seeks c q x m r host)
    (Q := fun t => ∃ r', (e.state t).readers[c]? = some r' ∧ r'.consumer.position q = x + 1)
    ?_ m t ⟨hT, r, host, hSeeks⟩
  intro m t hAt
  obtain ⟨hT, r, host, hSeeks⟩ := hAt
  have hOccurs := reader_occurs (c := c) hTopic hWriters hReader r.consumer r.stage
    (P := fun t => T ≤ t ∧ ∃ r' host', (e.state t).Seeks c q x m r' host' ∧
      r'.consumer = r.consumer ∧ r'.stage = r.stage) ?_ (fun _ => hCalls) ?_
  · obtain ⟨u, hu, ⟨hTu, r', host', hSeeks', -, -⟩, hNow⟩ :=
      hOccurs t ⟨hT, r, host, hSeeks, rfl, rfl⟩
    refine ⟨u + 1, Nat.le_succ_of_le hu, ?_⟩
    rcases hSeeks'.own (hLoses u hTu) hNow with hDone | ⟨m', hLess, r'', host'', hSeeks''⟩
    · exact Or.inl hDone
    · exact Or.inr ⟨m', hLess, Nat.le_succ_of_le hTu, r'', host'', hSeeks''⟩
  · intro u hAt
    obtain ⟨hTu, r', host', hSeeks', hConsumer, hStage⟩ := hAt
    refine ⟨r', hSeeks'.consumer, hConsumer, hStage, fun hWaiting => ?_⟩
    exact hSeeks'.awake (hKept u hTu) (hStage.trans hWaiting)
  · intro u hAt hNot
    obtain ⟨hTu, r', host', hSeeks', hConsumer, hStage⟩ := hAt
    obtain ⟨r'', host'', hSeeks'', hConsumer', hStage'⟩ := hSeeks'.other (hKept u hTu) hNot
    exact ⟨Nat.le_succ_of_le hTu, r'', host'', hSeeks'', hConsumer'.trans hConsumer,
      hStage'.trans hStage⟩

/-- A consumer keeps the cursors it was built with in mind. -/
theorem start_kept {t u : Nat} (hr : (e.state t).readers[c]? = some r) (hLe : t ≤ u) :
    ∃ r', (e.state u).readers[c]? = some r' ∧ r'.start = r.start := by
  refine Execution.always (e := e)
    (I := fun s => ∃ r', s.readers[c]? = some r' ∧ r'.start = r.start) ?_ ⟨r, hr, rfl⟩ hLe
  intro s event s' hKept hStep
  obtain ⟨r₁, hr₁, hStart⟩ := hKept
  rcases step_reader hStep hr₁ with ⟨_, _, r₂, -, -, hOwn, -, hr₂⟩ | ⟨-, hSame | hTold⟩
  · refine ⟨r₂, hr₂, Eq.trans ?_ hStart⟩
    cases hOwn <;> rfl
  · exact ⟨r₁, hSame, hStart⟩
  · exact ⟨_, hTold, hStart⟩

theorem recordAt_kept {t u o : Nat} {record : Record}
    (h : (e.state t).recordAt q o = some record) (hLe : t ≤ u) :
    (e.state u).recordAt q o = some record :=
  Execution.always (e := e) (I := fun s => s.recordAt q o = some record)
    (fun _ _ _ hRecord hStep => (step_cases hStep).recordAt hRecord) h hLe

/-- Everything between the start and the cursor was delivered. -/
theorem delivered_of_position {o : Nat} {record : Record} {r : Reader}
    (hr : (e.state t).readers[c]? = some r) (hRecord : (e.state t).recordAt q o = some record)
    (hStart : startAt r.start q ≤ o) (hPosition : o < r.consumer.position q) :
    (⟨q, o⟩, record) ∈ r.delivered := by
  have hDelivers := (delivering_at e t).each r (List.mem_of_getElem? hr)
  have hMem : o ∈ offsetsOf q r.delivered := by
    rw [hDelivers.consecutive q, List.mem_range'_1]
    rw [hDelivers.cursors q] at hPosition
    exact ⟨hStart, hPosition⟩
  obtain ⟨⟨position, found⟩, hd, rfl⟩ := List.mem_map.mp hMem
  obtain ⟨hIn, hSame⟩ := List.mem_filter.mp hd
  obtain ⟨p, o⟩ := position
  obtain rfl : p = q := of_decide_eq_true hSame
  have hHeld := hDelivers.held _ hIn
  rw [hRecord] at hHeld
  obtain rfl := Option.some.inj hHeld
  exact hIn

/-- The cursor of a consumer that goes on calling passes every record at or behind it. -/
theorem position_reached (hWriters : FairWriters e) (hReader : FairReader e c)
    (hCalls : e.WeaklyFair fun event => event = .reader c .next) {T : Nat}
    (hLoses : ∀ t, T ≤ t → ¬ (e.state t).LosesCall (e.state (t + 1)) c)
    (hKept : ∀ t, T ≤ t → (e.state t).NotOvertaken c q) {r : Reader} {o : Nat} {record : Record}
    (hr : (e.state T).readers[c]? = some r) (hRecord : (e.state T).recordAt q o = some record)
    (hAhead : r.consumer.position q ≤ o) :
    ∃ t, T ≤ t ∧ ∃ r', (e.state t).readers[c]? = some r' ∧ r'.consumer.position q = o + 1 := by
  -- By induction on the number of records before it.
  have hAll : ∀ (d t : Nat) (r' : Reader), T ≤ t → (e.state t).readers[c]? = some r' →
      r'.consumer.position q + d = o + 1 →
      ∃ u, T ≤ u ∧ ∃ r'', (e.state u).readers[c]? = some r'' ∧
        r''.consumer.position q = o + 1 := by
    intro d
    induction d with
    | zero => exact fun t r' hT hr' hEnd => ⟨t, hT, r', hr', hEnd⟩
    | succ d ih =>
      intro t r' hT hr' hMore
      obtain ⟨host, hHost, hHeld⟩ := recordAt_eq_some.mp (recordAt_kept hRecord hT)
      have hLt : o < host.history.next := (List.getElem?_eq_some_iff.mp hHeld).1
      have hSized := ((delivering_at e t).watching.each r' (List.mem_of_getElem? hr')).sized
      obtain ⟨m, hNears⟩ := r'.exists_nears host (r'.consumer.position q)
        (by rw [hSized]; exact (List.getElem?_eq_some_iff.mp hHost).1)
      obtain ⟨u, hu, r'', hr'', hPosition⟩ := advances hWriters hReader hCalls hLoses hKept hT
        ⟨hr', hHost, rfl, by omega, hNears⟩
      exact ih u r'' (hT.trans hu) hr'' (by omega)
  obtain ⟨d, hd⟩ := Nat.exists_eq_add_of_le (Nat.le_succ_of_le hAhead)
  exact hAll d T r (Nat.le_refl T) hr hd.symm

/-- A record that was behind the cursor and that the cursor has passed was delivered. -/
theorem delivered_of_passed {T t o : Nat} {record : Record} {r r' : Reader} (hLe : T ≤ t)
    (hr : (e.state T).readers[c]? = some r) (hRecord : (e.state T).recordAt q o = some record)
    (hAhead : r.consumer.position q ≤ o) (hr' : (e.state t).readers[c]? = some r')
    (hPosition : r'.consumer.position q = o + 1) : (⟨q, o⟩, record) ∈ r'.delivered := by
  obtain ⟨r'', hr'', hStart⟩ := start_kept hr hLe
  obtain rfl : r' = r'' := Option.some.inj (hr'.symm.trans hr'')
  apply delivered_of_position hr' (recordAt_kept hRecord hLe)
  · rw [hStart]
    have hCursors := ((delivering_at e T).each r (List.mem_of_getElem? hr)).cursors q
    omega
  · omega

/-- Every record at or behind the cursor of a consumer that goes on calling is delivered, if its
calls do not fail and retention does not overtake it. -/
theorem records_delivered (hWriters : FairWriters e) (hReader : FairReader e c)
    (hCalls : e.WeaklyFair fun event => event = .reader c .next) {T : Nat}
    (hLoses : ∀ t, T ≤ t → ¬ (e.state t).LosesCall (e.state (t + 1)) c)
    (hKept : ∀ t, T ≤ t → (e.state t).NotOvertaken c q) {r : Reader} {o : Nat} {record : Record}
    (hr : (e.state T).readers[c]? = some r) (hRecord : (e.state T).recordAt q o = some record)
    (hAhead : r.consumer.position q ≤ o) :
    ∃ t, T ≤ t ∧ ∃ r', (e.state t).readers[c]? = some r' ∧ (⟨q, o⟩, record) ∈ r'.delivered := by
  obtain ⟨t, hT, r', hr', hPosition⟩ :=
    position_reached hWriters hReader hCalls hLoses hKept hr hRecord hAhead
  exact ⟨t, hT, r', hr', delivered_of_passed hT hr hRecord hAhead hr' hPosition⟩

end Hub

/-! ## Topics in which nothing goes wrong -/

/-- Nothing is closed, fails, is retired or is dropped. -/
inductive HubEvent.Smooth : HubEvent → Prop
  | join (cursors : List Nat) : Smooth (.join cursors)
  | send (record : Record) : Smooth (.send record)
  | sendBatch (records : List Record) : Smooth (.sendBatch records)
  | sendAmong (record : Record) (drawn roundRobin : UInt64) :
    Smooth (.sendAmong record drawn roundRobin)
  | sendBatchAmong (drawn : List (Record × UInt64)) (roundRobin : UInt64) :
    Smooth (.sendBatchAmong drawn roundRobin)
  | reader (c : Nat) (inner : ReaderEvent) (h : inner ≠ .cancel) : Smooth (.reader c inner)
  | call (k : Nat) (inner : CallEvent) (h : inner ≠ .abandon) : Smooth (.call k inner)
  | command (p : Nat) (command : PartitionCommand) : Smooth (.command p command)
  | turn (p : Nat) (faults : List (Option KafkoError)) (h : ∀ fault ∈ faults, fault = none) :
    Smooth (.host p (.turn faults))
  | signal (p : Nat) : Smooth (.signal p)
  | notify (p : Nat) : Smooth (.notify p)

/-- A partition to which nothing of this has happened. -/
structure Host.Calm (host : Host) : Prop where
  phase : host.phase = .serving ∨ host.phase = .signalling false ∨ host.phase = .notifying false
  closed : host.closed = false
  oldest : host.history.oldest = 0
  sent : ∀ reply error, (reply, .error error) ∉ host.sent

namespace Host

variable {host host' : Host}

theorem Calm.accepts (h : host.Calm) : host.accepts = true := by
  rw [Host.accepts, h.closed]
  rcases h.phase with hPhase | hPhase | hPhase <;> simp [hPhase]

theorem answers_of_no_faults {h : History Record} {faults : List (Option KafkoError)}
    {commands : List PartitionCommand} (hNone : ∀ fault ∈ faults, fault = none) {reply : Nat}
    {error : KafkoError} : (reply, .error error) ∉ (h.respondAll faults commands).1 := by
  have hServe : ∀ (h : History Record) command, (reply, .error error) ∉ (h.serve none command).1 := by
    intro h command hMem
    cases command with
    | append record t => simp [History.serve] at hMem
    | appendBatch records t =>
      simp only [History.serve] at hMem
      split at hMem <;> simp at hMem
    | readAt offset t => simp [History.serve] at hMem
    | sync t => simp [History.serve] at hMem
    | _ => cases hMem
  induction faults generalizing h commands with
  | nil => exact List.not_mem_nil
  | cons fault faults ih =>
    cases commands with
    | nil => exact List.not_mem_nil
    | cons command commands =>
      obtain rfl := hNone fault List.mem_cons_self
      intro hMem
      rcases List.mem_append.mp hMem with hHere | hLater
      · exact hServe h command hHere
      · exact ih (fun fault hMem => hNone fault (List.mem_cons_of_mem _ hMem)) hLater

theorem Calm.resume (h : host.Calm) {last : Bool}
    (hPhase : host.phase = .signalling last ∨ host.phase = .notifying last) :
    ({ host with phase := .resume last, signalled := host.history.next } : Host).Calm := by
  refine ⟨Or.inl ?_, h.closed, h.oldest, h.sent⟩
  cases last with
  | false => rfl
  | true =>
    rcases h.phase with hCalm | hCalm | hCalm <;> rcases hPhase with hPhase | hPhase <;>
      simp [hCalm] at hPhase

theorem Calm.sees (h : host.Calm) (hSees : host.Sees p event host') (hSmooth : event.Smooth) :
    host'.Calm := by
  cases hSees with
  | same => exact h
  | push => exact ⟨h.phase, h.closed, h.oldest, h.sent⟩
  | @act inner _ hAct =>
    cases hSmooth with
    | turn _ faults hNone =>
      simp only [Host.act, Option.bind_eq_bind, Option.bind_eq_some_iff, Option.guard_eq_some',
        Option.pure_def, Option.some.injEq] at hAct
      obtain ⟨_, -, rfl⟩ := hAct
      refine ⟨Or.inr (Or.inl rfl), h.closed, (answer_oldest faults).trans h.oldest, ?_⟩
      intro reply error hMem
      rcases List.mem_append.mp hMem with hOld | hNew
      · exact h.sent reply error hOld
      · exact answers_of_no_faults hNone hNew
  | @load last hPhase =>
    refine ⟨Or.inr (Or.inr ?_), h.closed, h.oldest, h.sent⟩
    rcases h.phase with hCalm | hCalm | hCalm
    · simp [hCalm] at hPhase
    · rw [hCalm] at hPhase
      rw [WriterPhase.signalling.inj hPhase]
    · simp [hCalm] at hPhase
  | pass hPhase => exact h.resume (Or.inl hPhase)
  | pulse hPhase => exact h.resume (Or.inr hPhase)

end Host

namespace Hub

def Calm (s : Hub) : Prop := ∀ (p : Nat) (host : Host), s.hosts[p]? = some host → host.Calm

theorem Calm.step (h : s.Calm) (hStep : s.step event = some s') (hSmooth : event.Smooth) :
    s'.Calm := by
  intro p host' hHost'
  have hLt : p < s.hosts.length := by
    rw [← (step_cases hStep).hosts_length]
    exact (List.getElem?_eq_some_iff.mp hHost').1
  obtain ⟨host₁, hHost₁, hSees⟩ := step_sees hStep (List.getElem?_eq_getElem hLt)
  obtain rfl : host₁ = host' := Option.some.inj (hHost₁.symm.trans hHost')
  exact (h p _ (List.getElem?_eq_getElem hLt)).sees hSees hSmooth

theorem stage_of_lost {r r' : Reader} {again : Bool} (hSet : s'.readers = s.readers.set c r')
    (hr : s.readers[c]? = some r) (hLost : s'.readers[c]? = some (r.leave again)) :
    r' = r.leave again := by
  rw [hSet, List.getElem?_set_self (List.getElem?_eq_some_iff.mp hr).1] at hLost
  exact Option.some.inj hLost

/-- In a calm topic a call is not lost. -/
theorem Calm.keepsCall (h : s.Calm) (hStep : s.step event = some s') (hSmooth : event.Smooth) :
    ¬ s.LosesCall s' c := by
  intro hLoses
  obtain ⟨r, again, hr, hAwait, hLost⟩ := hLoses
  rcases step_reader hStep hr with ⟨inner, effect, r', rfl, hInner, -, -, -⟩ | ⟨-, hr'⟩
  · cases hSmooth with
    | reader _ _ hNotCancel =>
      cases inner with
      | ask =>
        rw [readerStep] at hInner
        split at hInner
        · next again' i hStage =>
          dsimp only at hInner
          obtain ⟨host, hHost, hRest⟩ := Option.bind_eq_some_iff.mp hInner
          rw [if_pos (h _ host hHost).accepts] at hRest
          obtain ⟨s₁, hSend, hEq⟩ := Option.bind_eq_some_iff.mp hRest
          cases hEq
          obtain rfl := enqueue_eq hSend
          have hStage' := congrArg Reader.stage (stage_of_lost (s := s) rfl hr hLost)
          cases again <;> cases hStage'
        · cases hInner
      | receive =>
        rw [readerStep] at hInner
        split at hInner
        · next again' i reply hStage =>
          dsimp only at hInner
          obtain ⟨host, hHost, hRest⟩ := Option.bind_eq_some_iff.mp hInner
          split at hRest
          · cases hRest
            have hDelivered := congrArg Reader.delivered (stage_of_lost (s := s) rfl hr hLost)
            have hLen := congrArg List.length hDelivered
            simp [Reader.take, Reader.leave] at hLen
          · cases hRest
            have hStage' := congrArg Reader.stage (stage_of_lost (s := s) rfl hr hLost)
            rcases r.stageAt_cases again' (i + 1) with hNext | ⟨-, ⟨-, hNext⟩ | ⟨-, hNext⟩⟩ <;>
              rw [hNext] at hStage' <;> cases again <;> cases hStage'
          · next error hReply =>
            exact (h _ host hHost).sent reply error (Host.mem_sent_of_reply hReply)
          · obtain ⟨_, hGuard, -⟩ := Option.bind_eq_some_iff.mp hRest
            have hEnded := (Option.guard_eq_some' ()).mp hGuard
            rcases (h _ host hHost).phase with hPhase | hPhase | hPhase <;> simp [hPhase] at hEnded
        · cases hInner
      | wake =>
        simp only [readerStep, Option.bind_eq_bind, Option.bind_eq_some_iff, Option.guard_eq_some',
          Option.pure_def, Option.some.injEq] at hInner
        obtain ⟨_, -, rfl⟩ := hInner
        have hStage' := congrArg Reader.stage (stage_of_lost (s := s) rfl hr hLost)
        cases again <;> cases hStage'
      | cancel => exact hNotCancel rfl
      | unmark =>
        rw [readerStep] at hInner
        split at hInner
        · next loop hStage => simp [Reader.atAwait, hStage] at hAwait
        · cases hInner
      | _ =>
        simp only [readerStep, Option.bind_eq_bind, Option.bind_eq_some_iff, Option.guard_eq_some',
          Option.pure_def, Option.some.injEq] at hInner
        obtain ⟨_, hStage, -⟩ := hInner
        simp [Reader.atAwait, hStage] at hAwait
  · have hStage : r.stage = (r.leave again).stage := by
      rcases hr' with hSame | hTold
      · exact congrArg Reader.stage (Option.some.inj (hSame.symm.trans hLost))
      · have hEq := Option.some.inj (hTold.symm.trans hLost)
        have hStage' := congrArg Reader.stage hEq
        exact hStage'
    rw [Reader.atAwait, hStage] at hAwait
    cases again <;> cases hAwait

theorem calm_start (hWhole : ∀ h ∈ histories, h.oldest = 0) : (start histories).Calm := by
  intro p host hHost
  obtain ⟨h, hMem, rfl⟩ := List.mem_map.mp (List.mem_of_getElem? hHost)
  exact ⟨Or.inl rfl, rfl, hWhole h hMem, fun _ _ => List.not_mem_nil⟩

section Smooth

variable (hWhole : ∀ h ∈ histories, h.oldest = 0)
  (hSmooth : ∀ t event, e.label t = some event → event.Smooth)

include hWhole hSmooth

theorem calm_at (t : Nat) : (e.state t).Calm := by
  induction t with
  | zero =>
    rw [show e.state 0 = start histories from e.starts]
    exact calm_start hWhole
  | succ t ih =>
    rcases e.next t with ⟨-, hState⟩ | ⟨event, hLabel, hStep⟩
    · rwa [hState]
    · exact ih.step hStep (hSmooth t event hLabel)

theorem keepsCall_at (c t : Nat) : ¬ (e.state t).LosesCall (e.state (t + 1)) c := by
  rcases e.next t with ⟨-, hState⟩ | ⟨event, hLabel, hStep⟩
  · rw [hState]
    intro hLoses
    obtain ⟨r, again, hr, hAwait, hLost⟩ := hLoses
    have hStage := congrArg Reader.stage (Option.some.inj (hr.symm.trans hLost))
    rw [Reader.atAwait, hStage] at hAwait
    cases again <;> cases hAwait
  · exact (calm_at hWhole hSmooth t).keepsCall hStep (hSmooth t event hLabel)

theorem notOvertaken_at (c q t : Nat) : (e.state t).NotOvertaken c q := by
  intro r host _ hHost
  rw [(calm_at hWhole hSmooth t q host hHost).oldest]
  exact Nat.zero_le _

end Smooth

/-- A topic with one record, and a consumer that takes it. -/
def taking : List HubEvent :=
  [.join [0], .reader 0 .next, .reader 0 .ask, .host 0 (.turn [none]), .signal 0,
    .reader 0 .receive, .reader 0 .next]

/-- The consumer looks for another one, goes to sleep and is woken by its own question. -/
def looking : List HubEvent :=
  [.reader 0 .ask, .host 0 (.turn [none]), .signal 0, .reader 0 .receive, .reader 0 .park,
    .reader 0 .enable, .reader 0 .ask, .host 0 (.turn [none]), .signal 0, .notify 0,
    .reader 0 .receive, .reader 0 .wake, .reader 0 .unmark]

def asked (sent : List (Nat × Except KafkoError Reply)) : Host :=
  ⟨⟨[⟨7, none, []⟩], 0⟩, [], sent, .serving, false, none, 1⟩

def lookingAt (stage : Stage) (future : Option Bool) : Reader :=
  ⟨⟨[1], 0⟩, stage, future, [0], [(⟨0, 0⟩, ⟨7, none, []⟩)]⟩

/-- Before it looks. -/
def looksAgain (calls : List SendCall) (roundRobin : UInt64)
    (sent : List (Nat × Except KafkoError Reply)) (nextReply : Nat) : Hub :=
  ⟨[asked sent], 0, [lookingAt (.asking false 0) none], calls, roundRobin, nextReply⟩

variable {calls : List SendCall} {roundRobin : UInt64}

theorem reply_concat {host : Host} {sent : List (Nat × Except KafkoError Reply)} {n : Nat}
    {result : Except KafkoError Reply} (hSent : host.sent = sent ++ [(n, result)])
    (hFresh : ∀ e ∈ sent, e.1 < n) : host.reply? n = some result := by
  have hNone : sent.find? (fun e => e.1 = n) = none := by
    rw [List.find?_eq_none]
    intro e he hEq
    have hLt := hFresh e he
    simp only [decide_eq_true_eq] at hEq
    omega
  rw [Host.reply?, hSent, List.find?_append, hNone]
  simp

theorem misses {sent : List (Nat × Except KafkoError Reply)} {n parked nextReply : Nat} {again : Bool}
    {future : Option Bool} (hReply : (asked sent).reply? n = some (.ok (.record none))) :
    step ⟨[asked sent], parked, [lookingAt (.awaiting again 0 n) future], calls, roundRobin,
        nextReply⟩ (.reader 0 .receive) =
      some ⟨[asked sent], parked, [lookingAt (if again then .waiting else .caughtUp) future], calls,
        roundRobin, nextReply⟩ := by
  simp [step, readerStep, lookingAt, Consumer.scanIndex, hReply, setReader, Reader.stageAt]

theorem looking_runs {sent : List (Nat × Except KafkoError Reply)} {n : Nat}
    (hFresh : ∀ e ∈ sent, e.1 < n) : ∃ sent', (∀ e ∈ sent', e.1 < n + 2) ∧
      (courses histories).Runs (looksAgain calls roundRobin sent n) looking
        (looksAgain calls roundRobin sent' (n + 2)) := by
  have hFresh' : ∀ e ∈ sent ++ [(n, Except.ok (Reply.record none))], e.1 < n + 1 := by
    intro e he
    rcases List.mem_append.mp he with hOld | hNew
    · exact Nat.lt_succ_of_lt (hFresh e hOld)
    · rw [List.mem_singleton.mp hNew]
      exact Nat.lt_succ_self n
  refine ⟨sent ++ [(n, .ok (.record none))] ++ [(n + 1, .ok (.record none))], ?_, ?_⟩
  · intro e he
    rcases List.mem_append.mp he with hOld | hNew
    · exact Nat.lt_succ_of_lt (hFresh' e hOld)
    · rw [List.mem_singleton.mp hNew]
      exact Nat.lt_succ_self (n + 1)
  · exact System.Runs.append
      (runs_of_run [.reader 0 .ask, .host 0 (.turn [none]), .signal 0] rfl)
      (.step (misses (reply_concat rfl hFresh)) (System.Runs.append
        (runs_of_run [.reader 0 .park, .reader 0 .enable, .reader 0 .ask, .host 0 (.turn [none]),
          .signal 0, .notify 0] rfl)
        (.step (misses (reply_concat rfl hFresh'))
          (runs_of_run [.reader 0 .wake, .reader 0 .unmark] rfl))))

theorem smooth_alone : HubEvent.Smooth (.host 0 (.turn [none])) :=
  .turn 0 [none] fun _ hMem => List.mem_singleton.mp hMem

theorem smooth_looking {event : HubEvent} (h : event ∈ looking) : event.Smooth := by
  have hReader : ∀ inner : ReaderEvent, inner ≠ .cancel → HubEvent.Smooth (.reader 0 inner) :=
    fun inner hNe => .reader 0 inner hNe
  simp only [looking, List.mem_cons, List.not_mem_nil, or_false] at h
  rcases h with rfl | rfl | rfl | rfl | rfl | rfl | rfl | rfl | rfl | rfl | rfl | rfl | rfl
  · exact hReader _ (by simp)
  · exact smooth_alone
  · exact .signal 0
  · exact hReader _ (by simp)
  · exact hReader _ (by simp)
  · exact hReader _ (by simp)
  · exact hReader _ (by simp)
  · exact smooth_alone
  · exact .signal 0
  · exact .notify 0
  · exact hReader _ (by simp)
  · exact hReader _ (by simp)
  · exact hReader _ (by simp)

def Looks (calls : List SendCall) (roundRobin : UInt64) (s : Hub) : Prop :=
  ∃ sent n, (∀ e ∈ sent, e.1 < n) ∧ s = looksAgain calls roundRobin sent n

theorem Looks.runs (h : s.Looks calls roundRobin) :
    ∃ s', (courses histories).Runs s looking s' ∧ s'.Looks calls roundRobin := by
  obtain ⟨sent, n, hFresh, rfl⟩ := h
  obtain ⟨sent', hFresh', hRuns⟩ := looking_runs hFresh
  exact ⟨_, hRuns, sent', n + 2, hFresh', rfl⟩

theorem Looks.rests (h : s.Looks calls roundRobin) : s.Rests := by
  obtain ⟨sent, n, -, rfl⟩ := h
  intro p host hHost
  obtain rfl := List.mem_singleton.mp (List.mem_of_getElem? hHost)
  exact ⟨rfl, Or.inl ⟨rfl, rfl⟩⟩

theorem Looks.not_next (h : s.Looks calls roundRobin) :
    ¬ (courses histories).Enabled (fun event => event = .reader 0 .next) s := by
  obtain ⟨sent, n, -, rfl⟩ := h
  intro hEnabled
  obtain ⟨_, s', rfl, hStep⟩ := hEnabled
  cases hStep

/-- A fair run in which the consumer looks for records for ever. -/
theorem exists_looking {first : List HubEvent} {s : Hub} (hRun : (start histories).run first = some s)
    (hLooks : s.Looks calls roundRobin) (hFirst : ∀ event ∈ first, event.Smooth) :
    ∃ e : Execution (courses histories), FairWriters e ∧ FairReader e 0 ∧
      (e.WeaklyFair fun event => event = .reader 0 .next) ∧
      (∀ t event, e.label t = some event → event.Smooth) ∧
      (∀ (i : Nat) (event : HubEvent), first[i]? = some event → e.label i = some event) ∧
      ∀ t, ∃ u, t ≤ u ∧ (e.state u).Looks calls roundRobin := by
  obtain ⟨e, -, hBegins, hLabels, hLoops, hBack⟩ :=
    Execution.exists_lasso rfl (runs_of_run first hRun) hLooks (List.cons_ne_nil _ _)
      fun s h => Looks.runs h
  have hOften : ∀ (A : HubEvent → Prop) (event : HubEvent), event ∈ looking → A event →
      ∀ t, ∃ u, t ≤ u ∧ e.Occurs A u := by
    intro A event hMem hA t
    obtain ⟨u, hu, hLabel⟩ := hLoops event hMem t
    exact ⟨u, hu, event, hA, hLabel⟩
  refine ⟨e, ?_, ⟨?_, ?_⟩, ?_, ?_, hBegins, hBack⟩
  · apply fairWriters_of_rests
    intro t
    obtain ⟨u, hu, hThere⟩ := hBack t
    exact ⟨u, hu, hThere.rests⟩
  · intro t _
    exact hOften _ (.reader 0 .park) (by simp [looking]) (.continues .park (by simp) (by simp)) t
  · exact Execution.stronglyFair_of_occurs (hOften _ (.reader 0 .ask) (by simp [looking]) rfl)
  · apply Execution.weaklyFair_of_disabled
    intro t
    obtain ⟨u, hu, hThere⟩ := hBack t
    exact ⟨u, hu, hThere.not_next⟩
  · intro t event hLabel
    obtain ⟨event', hLabel', hMem | hMem⟩ := hLabels t
    · obtain rfl := Option.some.inj (hLabel.symm.trans hLabel')
      exact hFirst event hMem
    · obtain rfl := Option.some.inj (hLabel.symm.trans hLabel')
      exact smooth_looking hMem

/-- The topic of this run. -/
abbrev oneRecord : List (History Record) := [⟨[⟨7, none, []⟩], 0⟩]

theorem smooth_taking {event : HubEvent} (h : event ∈ taking) : event.Smooth := by
  have hReader : ∀ inner : ReaderEvent, inner ≠ .cancel → HubEvent.Smooth (.reader 0 inner) :=
    fun inner hNe => .reader 0 inner hNe
  simp only [taking, List.mem_cons, List.not_mem_nil, or_false] at h
  rcases h with rfl | rfl | rfl | rfl | rfl | rfl | rfl
  · exact .join [0]
  · exact hReader _ (by simp)
  · exact hReader _ (by simp)
  · exact smooth_alone
  · exact .signal 0
  · exact hReader _ (by simp)
  · exact hReader _ (by simp)

theorem records_delivered_looking : ∃ (e : Execution (courses oneRecord)) (t : Nat) (r : Reader),
    FairWriters e ∧ FairReader e 0 ∧ (e.state t).readers[0]? = some r ∧
      (⟨0, 0⟩, ⟨7, none, []⟩) ∈ r.delivered := by
  have hRun : (start oneRecord).run taking =
      some (looksAgain [] 0 [(0, .ok (.record (some ⟨7, none, []⟩)))] 1) := rfl
  obtain ⟨e, hWriters, hReader, hCalls, hSmooth, hBegins, -⟩ :=
    exists_looking hRun ⟨_, 1, by simp, rfl⟩ fun event hMem => smooth_taking hMem
  have hWhole : ∀ h ∈ oneRecord, h.oldest = 0 := by simp [oneRecord]
  have hJoined : e.state 1 = _ := state_eq [.join [0]] (fun i event hi => by
    cases i with
    | zero => exact hBegins 0 event hi
    | succ i => cases hi) rfl
  have hr : (e.state 1).readers[0]? = some ⟨⟨[0], 0⟩, .idle, none, [0], []⟩ := by
    rw [hJoined]
    rfl
  have hRecord : (e.state 1).recordAt 0 0 = some ⟨7, none, []⟩ := by
    rw [hJoined]
    rfl
  obtain ⟨t, -, r, hFound, hDelivered⟩ := records_delivered hWriters hReader hCalls
    (fun t _ => keepsCall_at hWhole hSmooth 0 t) (fun t _ => notOvertaken_at hWhole hSmooth 0 0 t) hr
    hRecord (Nat.le_refl 0)
  exact ⟨e, t, r, hWriters, hReader, hFound, hDelivered⟩

end Hub

end Kafko
