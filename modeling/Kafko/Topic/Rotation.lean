import Kafko.Topic.Consumer

/-!
# The rotation of a merged consumer

A scan starts behind the partition the last record came from. A partition with a record at the
consumer's cursor is asked unless an earlier one has a record, and each record taken from another
partition brings the start of the next scan closer: the number of places between the start and the
partition is a measure that falls with every call (`scanIndex_moved`). Nothing the other tasks
append in the meantime takes the record away.
-/

namespace Kafko

open Disk

variable {X : Crates} {env : Env FileName} {config : LogConfig}

/-! ## What appending leaves in place -/

/-- Only retention lets go of an offset. -/
theorem exec_retains {log : Log} {w : World FileName} {L : Layout} (hClean : Clean env)
    (hLive : Live log w.store L) {op : LogOp} (hOp : op ≠ .applyRetention) :
    wp env (op.exec X)
      { ok := fun _ log' _ => log'.oldestBase = log.oldestBase ∧ log.nextOffset ≤ log'.nextOffset
        err := fun _ log' _ => log'.oldestBase = log.oldestBase ∧ log.nextOffset ≤ log'.nextOffset
        panic := fun _ _ _ => True
        crash := fun _ _ => True } log w := by
  have hSame : ∀ {log' d L'}, Live log' d L' → L'.oldest = L.oldest → L.next ≤ L'.next →
      log'.oldestBase = log.oldestBase ∧ log.nextOffset ≤ log'.nextOffset := by
    intro log' d L' hLive' hOldest hNext
    rw [hLive'.oldestBase, hLive.oldestBase, hLive'.nextOffset, hLive.nextOffset]
    exact ⟨hOldest, hNext⟩
  have hAppend : ∀ {α : Type} {rotates : Bool} {fs : List LogFrame} {value : α} {prog : LogIO Log α}
      (reply : α → Reply), wp env prog (appendPost env X log L rotates fs value) log w →
      wp env (do let a ← prog; pure (reply a))
        { ok := fun _ log' _ =>
            log'.oldestBase = log.oldestBase ∧ log.nextOffset ≤ log'.nextOffset
          err := fun _ log' _ =>
            log'.oldestBase = log.oldestBase ∧ log.nextOffset ≤ log'.nextOffset
          panic := fun _ _ _ => True
          crash := fun _ _ => True } log w := by
    intro α rotates fs value prog reply hProg
    refine wp_bind_of hProg ?_ ?_ (fun _ _ _ _ => trivial) (fun _ _ _ => trivial)
    · intro a log' w' hPost
      obtain ⟨-, -, -, -, hLive'⟩ := hPost
      apply hSame hLive' (Layout.oldest_step L rotates fs)
      rw [Layout.next_step]
      exact Nat.le_add_right _ _
    · intro e log' w' hPost
      obtain ⟨-, ⟨-, hLive'⟩ | ⟨-, hLive'⟩, -⟩ := hPost
      · exact hSame hLive' rfl (Nat.le_refl _)
      · exact hSame hLive' rfl (Nat.le_of_eq (Layout.next_rotate L).symm)
  cases op with
  | append r => exact hAppend .offset (Log.append_spec hClean hLive X r rfl)
  | appendBatch rs =>
    cases rs with
    | nil => exact ⟨rfl, Nat.le_refl _⟩
    | cons r rs => exact hAppend .offsets (Log.appendBatch_spec hClean hLive X r rs rfl)
  | sync =>
    refine wp_bind_of (Log.sync_spec hLive) ?_ ?_ (fun _ _ _ _ => trivial) (fun _ _ _ => trivial)
    · intro _ log' w' hPost
      obtain ⟨rfl, -⟩ := hPost
      exact ⟨rfl, Nat.le_refl _⟩
    · intro _ log' w' hPost
      obtain ⟨-, rfl, -⟩ := hPost
      exact ⟨rfl, Nat.le_refl _⟩
  | readRecordAt offset =>
    refine wp_bind_of (Log.readRecordAt_keeps hClean.fullReads hLive X offset) ?_ ?_
      (fun _ _ _ _ => trivial) (fun _ _ _ => trivial)
    · intro _ log' w' hPost
      exact hSame hPost.2.1 rfl (Nat.le_refl _)
    · intro _ log' w' hPost
      exact hSame hPost.2.1 rfl (Nat.le_refl _)
  | applyRetention => exact absurd rfl hOp

namespace OpenPartition

variable {p : OpenPartition} {offset : Nat}

/-- As long as the writer lives the partition retains the record. -/
def Keeps (p : OpenPartition) (offset : Nat) : Prop := p.panicked = none → p.Retains offset

theorem Keeps.perform (hX : X.Lawful) (h : p.Keeps offset) (hReach : p.Reachable X config)
    (hEnv : CleanFailures env) {op : LogOp} (hOp : op ≠ .applyRetention) :
    (p.perform X env op).2.Keeps offset := by
  unfold OpenPartition.perform
  cases hPanic : p.panicked with
  | some payload =>
    intro hNone
    rw [hPanic] at hNone
    cases hNone
  | none =>
    obtain ⟨-, held, hGrown⟩ := hReach hPanic
    obtain ⟨L, hLive, -⟩ := (hGrown.filled hX).2
    obtain ⟨hOldest, hNext⟩ := h hPanic
    have hRetains := exec_retains (X := X) hEnv.clean hLive hOp
    rcases hRun : op.exec X env p.log p.world with ⟨r, log, w⟩
    rw [wp, hRun] at hRetains
    cases r with
    | ok reply =>
      obtain ⟨hBase, hLe⟩ := hRetains
      exact fun _ => ⟨hBase.trans_le hOldest, hNext.trans_le hLe⟩
    | err e =>
      obtain ⟨hBase, hLe⟩ := hRetains
      exact fun _ => ⟨hBase.trans_le hOldest, hNext.trans_le hLe⟩
    | panic payload =>
      intro hNone
      cases hNone
    | crash =>
      intro hNone
      cases hNone

/-- A partition that keeps the record does not answer that there is none. -/
theorem Keeps.answers (hX : X.Lawful) (h : p.Keeps offset) (hReach : p.Reachable X config)
    (hEnv : CleanFailures env) {reply : Reply}
    (hReply : (p.perform X env (.readRecordAt offset)).1 = .ok reply) :
    ∃ record, reply = .record (some record) := by
  by_contra hNone
  have hMiss : ∀ record, reply ≠ .record (some record) := fun record hEq => hNone ⟨record, hEq⟩
  have hAlive : p.panicked = none := by
    cases hPanic : p.panicked with
    | none => rfl
    | some payload =>
      rw [OpenPartition.perform, hPanic] at hReply
      cases hReply
  exact read_none hX hReach hEnv hReply hMiss (h hAlive)

end OpenPartition

/-- Appends, syncs and reads of other tasks. -/
structure Activity.Appends (X : Crates) (config : LogConfig) (a : Activity) : Prop where
  fits : a.Fits X config
  retains : a.op ≠ .applyRetention

namespace Topic

variable {t : Topic} {q offset : Nat}

/-- The record at the offset stays with its partition. -/
def Keeps (t : Topic) (q offset : Nat) : Prop :=
  ∀ partition, t.partitions[q]? = some partition → partition.Keeps offset

theorem Keeps.perform (hX : X.Lawful) (h : t.Keeps q offset) (hTopic : t.Reachable X)
    {a : Activity} (ha : a.Appends X t.config) : (t.perform X a).Keeps q offset := by
  intro partition hPartition
  change (t.partitions.modify a.partition _)[q]? = some partition at hPartition
  rw [List.getElem?_modify] at hPartition
  obtain ⟨old, hOld, rfl⟩ := Option.map_eq_some_iff.mp hPartition
  have hKeeps := h old hOld
  split
  · exact hKeeps.perform hX (hTopic old (List.mem_of_getElem? hOld)) ha.fits.env ha.retains
  · exact hKeeps

theorem Keeps.performAll (hX : X.Lawful) (h : t.Keeps q offset) (hTopic : t.Reachable X)
    {activities : List Activity} (hAppends : ∀ a ∈ activities, a.Appends X t.config) :
    (t.performAll X activities).Keeps q offset := by
  induction activities generalizing t with
  | nil => exact h
  | cons a activities ih =>
    have ha := hAppends a List.mem_cons_self
    exact ih (h.perform hX hTopic ha) (perform_reachable hX hTopic ha.fits)
      (fun b hb => hAppends b (List.mem_cons_of_mem _ hb))

/-- The question of a scan is answered. -/
theorem ask_reachable (hX : X.Lawful) (hTopic : t.Reachable X) (hEnv : CleanFailures env) {p : Nat}
    {partition : OpenPartition} (hPartition : t.partitions[p]? = some partition) (offset : Nat) :
    (t.setPartition p (partition.perform X env (.readRecordAt offset)).2).Reachable X := by
  intro other hOther
  rcases List.mem_or_eq_of_mem_set hOther with hOld | rfl
  · exact hTopic other hOld
  · exact OpenPartition.perform_reachable hX (hTopic partition (List.mem_of_getElem? hPartition))
      hEnv (by simp [LogOp.records])

theorem Keeps.ask (hX : X.Lawful) (h : t.Keeps q offset) (hTopic : t.Reachable X)
    (hEnv : CleanFailures env) {p : Nat} {partition : OpenPartition}
    (hPartition : t.partitions[p]? = some partition) (asked : Nat) :
    (t.setPartition p (partition.perform X env (.readRecordAt asked)).2).Keeps q offset := by
  intro other hOther
  change (t.partitions.set p _)[q]? = some other at hOther
  rw [List.getElem?_set] at hOther
  split at hOther
  · next hEq =>
    subst hEq
    split at hOther
    · cases hOther
      exact (h partition hPartition).perform hX
        (hTopic partition (List.mem_of_getElem? hPartition)) hEnv (by simp)
    · cases hOther
  · exact h other hOther

end Topic

/-! ## One scan -/

namespace Consumer

variable {c : Consumer} {t : Topic} {envs : Nat → Env FileName} {between : Nat → List Activity}

/-- A scan leaves the topic reachable. -/
theorem scanFrom_reachable (hX : X.Lawful) (hTopic : t.Reachable X)
    (hBetween : ∀ j, ∀ a ∈ between j, a.Fits X t.config) (hEnvs : ∀ j, CleanFailures (envs j))
    (i left : Nat) : (scanFrom X envs between c i left t).topic.Reachable X ∧
      (scanFrom X envs between c i left t).topic.config = t.config ∧
      (scanFrom X envs between c i left t).topic.partitions.length = t.partitions.length := by
  induction left generalizing i t with
  | zero => exact ⟨hTopic, rfl, rfl⟩
  | succ left ih =>
    obtain ⟨hReach, hConfig, hLen⟩ := Topic.performAll_reachable hX hTopic (hBetween i)
    rw [scanFrom]
    dsimp only
    cases hPartition : (t.performAll X (between i)).partitions[c.scanIndex i]? with
    | none => exact ⟨hReach, hConfig, hLen⟩
    | some partition =>
      have hAsked := Topic.ask_reachable hX hReach (hEnvs i) hPartition
        (c.position (c.scanIndex i))
      have hSameLen : ((t.performAll X (between i)).partitions.set (c.scanIndex i)
          (partition.perform X (envs i) (.readRecordAt (c.position (c.scanIndex i)))).2).length =
          t.partitions.length := by
        rw [List.length_set, hLen]
      dsimp only
      split
      · exact ⟨hAsked, hConfig, hSameLen⟩
      · exact ⟨hAsked, hConfig, hSameLen⟩
      · obtain ⟨hEnd, hEndConfig, hEndLen⟩ := ih hAsked (by
          change ∀ j, ∀ a ∈ between j, a.Fits X (t.performAll X (between i)).config
          rw [hConfig]
          exact hBetween) (i + 1)
        exact ⟨hEnd, hEndConfig.trans hConfig, hEndLen.trans hSameLen⟩

/-- A scan that returns a record has asked no partition before it that keeps one. -/
theorem scanFrom_found (hX : X.Lawful) (hTopic : t.Reachable X)
    (hBetween : ∀ j, ∀ a ∈ between j, a.Appends X t.config) (hEnvs : ∀ j, CleanFailures (envs j))
    {q : Nat} (hKeeps : t.Keeps q (c.position q)) {i left : Nat} {d : RecordPosition × Record}
    (hResult : (scanFrom X envs between c i left t).result = .ok (some d)) :
    ∃ j, i ≤ j ∧ j < i + left ∧ d.1 = ⟨c.scanIndex j, c.position (c.scanIndex j)⟩ ∧
      (scanFrom X envs between c i left t).consumer =
        ⟨c.cursors.set (c.scanIndex j) (c.position (c.scanIndex j) + 1),
          (c.scanIndex j + 1) % c.cursors.length⟩ ∧
      ∀ k, i ≤ k → k < j → c.scanIndex k ≠ q := by
  induction left generalizing i t with
  | zero => cases hResult
  | succ left ih =>
    obtain ⟨hReach, hConfig, -⟩ := Topic.performAll_reachable hX hTopic
      fun a ha => (hBetween i a ha).fits
    have hStill := hKeeps.performAll hX hTopic (hBetween i)
    rw [scanFrom] at hResult ⊢
    dsimp only at hResult ⊢
    cases hPartition : (t.performAll X (between i)).partitions[c.scanIndex i]? with
    | none =>
      rw [hPartition] at hResult
      cases hResult
    | some partition =>
      rw [hPartition] at hResult
      dsimp only at hResult ⊢
      have hAsked := Topic.ask_reachable hX hReach (hEnvs i) hPartition
        (c.position (c.scanIndex i))
      have hStill' := hStill.ask hX hReach (hEnvs i) hPartition (c.position (c.scanIndex i))
      cases hAnswer : (partition.perform X (envs i)
          (.readRecordAt (c.position (c.scanIndex i)))).1 with
      | error e =>
        rw [hAnswer] at hResult
        cases hResult
      | ok reply =>
        rw [hAnswer] at hResult
        by_cases hFound : ∃ record, reply = .record (some record)
        · obtain ⟨record, rfl⟩ := hFound
          cases hResult
          exact ⟨i, Nat.le_refl i, by omega, rfl, rfl, fun k hk hlt => by omega⟩
        · -- no record here, so this is not the partition that keeps one
          have hOther : c.scanIndex i ≠ q := by
            rintro rfl
            exact hFound ((hStill partition hPartition).answers hX
              (hReach partition (List.mem_of_getElem? hPartition)) (hEnvs i) hAnswer)
          split at hResult
          · next hErr => cases hErr
          · next record hReply =>
            cases hReply
            exact absurd ⟨record, rfl⟩ hFound
          · obtain ⟨j, hLe, hLt, hAt, hConsumer, hBefore⟩ := ih hAsked (by
              change ∀ j, ∀ a ∈ between j, a.Appends X (t.performAll X (between i)).config
              rw [hConfig]
              exact hBetween) hStill' hResult
            refine ⟨j, by omega, by omega, hAt, hConsumer, ?_⟩
            intro k hk hlt
            by_cases hEq : k = i
            · rw [hEq]
              exact hOther
            · exact hBefore k (by omega) hlt

/-- A scan that starts behind the `j`-th place of this one reaches the places after it that much
earlier. -/
theorem scanIndex_moved {c' : Consumer} {i j : Nat} (hLen : c'.cursors.length = c.cursors.length)
    (hStart : c'.scanStart = (c.scanIndex j + 1) % c.cursors.length) (hLt : j < i) :
    c'.scanIndex (i - j - 1) = c.scanIndex i := by
  unfold scanIndex at *
  rw [hLen, hStart, Nat.mod_add_mod, Nat.add_assoc, Nat.mod_add_mod]
  congr 1
  omega

/-! ## A run of calls -/

/-- What surrounds one call: what other tasks do before it and between its questions, and the
environments in which the questions are answered. -/
structure Turn where
  before : List Activity
  between : Nat → List Activity
  envs : Nat → Env FileName

/-- Nothing fails with traces, and nothing is retired. -/
structure Turn.Appends (X : Crates) (config : LogConfig) (turn : Turn) : Prop where
  before : ∀ a ∈ turn.before, a.Appends X config
  between : ∀ i, ∀ a ∈ turn.between i, a.Appends X config
  envs : ∀ i, CleanFailures (turn.envs i)

/-- A call of `try_take_next`: the consumer and the topic it begins with, and its scan. -/
structure TakeCall where
  consumer : Consumer
  topic : Topic
  scan : Scan

/-- Calls one after the other. -/
def takeCalls (X : Crates) : List Turn → Consumer → Topic → List TakeCall
  | [], _, _ => []
  | turn :: turns, c, t =>
    let t := t.performAll X turn.before
    let scan := c.tryTakeNext X turn.envs turn.between t
    ⟨c, t, scan⟩ :: takeCalls X turns scan.consumer scan.topic

/-- Before the call the partition holds a record at the cursor. -/
def TakeCall.Waits (call : TakeCall) (q : Nat) : Prop :=
  ∃ partition, call.topic.partitions[q]? = some partition ∧
    partition.Retains (call.consumer.position q)

/-- The call returned a record of the partition. -/
def TakeCall.TakesFrom (call : TakeCall) (q : Nat) : Prop :=
  ∃ d, call.scan.result = .ok (some d) ∧ d.1.partition = q

/-- A partition in the `i`-th place of the scan is served within `i + 1` calls. -/
theorem takeCalls_reach (hX : X.Lawful) (hTopic : t.Reachable X) {turns : List Turn}
    (hTurns : ∀ turn ∈ turns, turn.Appends X t.config) {q i : Nat} (hPlace : c.scanIndex i = q)
    (hSize : i < c.cursors.length) (hLong : i < turns.length)
    (hWaits : ∀ call ∈ takeCalls X turns c t, call.Waits q)
    (hSuccess : ∀ call ∈ takeCalls X turns c t, ∃ d, call.scan.result = .ok (some d)) :
    ∃ call ∈ takeCalls X turns c t, call.TakesFrom q := by
  induction turns generalizing c t i with
  | nil => cases hLong
  | cons turn turns ih =>
    rw [List.length_cons] at hLong
    obtain ⟨hBefore, hBetween, hEnvs⟩ := hTurns turn List.mem_cons_self
    obtain ⟨hReach, hConfig, hLen⟩ := Topic.performAll_reachable hX hTopic
      fun a ha => (hBefore a ha).fits
    rw [← hConfig] at hBetween
    rw [takeCalls] at hWaits hSuccess ⊢
    obtain ⟨d, hResult⟩ := hSuccess _ List.mem_cons_self
    obtain ⟨partition, hPartition, hRetains⟩ := hWaits _ List.mem_cons_self
    have hKeeps : (t.performAll X turn.before).Keeps q (c.position q) := by
      intro other hOther
      obtain rfl := Option.some.inj (hPartition.symm.trans hOther)
      exact fun _ => hRetains
    obtain ⟨j, -, hj, hAt, hConsumer, hNotBefore⟩ :=
      scanFrom_found hX hReach hBetween hEnvs hKeeps hResult
    obtain ⟨hReach', hConfig', -⟩ := scanFrom_reachable hX hReach
      (fun k a ha => (hBetween k a ha).fits) hEnvs (c := c) 0 c.cursors.length
    rcases Nat.lt_trichotomy i j with hAfter | rfl | hEarlier
    · -- the partition was asked before the record was found
      exact absurd hPlace (hNotBefore i (Nat.zero_le _) hAfter)
    · exact ⟨_, List.mem_cons_self, d, hResult, by rw [hAt, hPlace]⟩
    · -- another partition was served, and the measure falls
      have hCursors : (c.tryTakeNext X turn.envs turn.between
          (t.performAll X turn.before)).consumer.cursors.length = c.cursors.length := by
        rw [tryTakeNext, hConsumer, List.length_set]
      have hStart : (c.tryTakeNext X turn.envs turn.between
          (t.performAll X turn.before)).consumer.scanStart =
          (c.scanIndex j + 1) % c.cursors.length := by
        rw [tryTakeNext, hConsumer]
      have hPlace' := (scanIndex_moved hCursors hStart hEarlier).trans hPlace
      obtain ⟨call, hMem, hTakes⟩ := ih hReach' (by
          change ∀ turn' ∈ turns, turn'.Appends X (scanFrom X turn.envs turn.between c 0
            c.cursors.length (t.performAll X turn.before)).topic.config
          rw [hConfig', hConfig]
          exact fun turn' hTurn' => hTurns turn' (List.mem_cons_of_mem _ hTurn')) hPlace'
        (by omega) (by omega) (fun call hCall => hWaits call (List.mem_cons_of_mem _ hCall))
        (fun call hCall => hSuccess call (List.mem_cons_of_mem _ hCall))
      exact ⟨call, List.mem_cons_of_mem _ hMem, hTakes⟩

/-- The merged scan starves no partition: of as many successful calls in a row as there are
partitions, before each of which the partition holds a record at the cursor, one returns a record
of it. -/
theorem merged_scan_starves_nobody (hX : X.Lawful) (hTopic : t.Reachable X)
    (hCursors : c.cursors.length = t.partitions.length) {turns : List Turn}
    (hTurns : ∀ turn ∈ turns, turn.Appends X t.config)
    (hCount : turns.length = t.partitions.length) {q : Nat} (hq : q < t.partitions.length)
    (hWaits : ∀ call ∈ takeCalls X turns c t, call.Waits q)
    (hSuccess : ∀ call ∈ takeCalls X turns c t, ∃ d, call.scan.result = .ok (some d)) :
    ∃ call ∈ takeCalls X turns c t, call.TakesFrom q := by
  have hMem : q ∈ (List.range' 0 c.cursors.length).map c.scanIndex := by
    rw [c.scanIndex_perm.mem_iff, List.mem_range, hCursors]
    exact hq
  obtain ⟨i, hi, hPlace⟩ := List.mem_map.mp hMem
  rw [List.mem_range'_1] at hi
  exact takeCalls_reach hX hTopic hTurns hPlace (by omega) (by omega) hWaits hSuccess

end Consumer

/-- A topic with two new partitions. -/
def pairTopic : Option Topic :=
  newTopic.map fun t => { t with partitions := t.partitions ++ t.partitions }

/-- Two calls; the first partition gets more records than are taken from it. -/
def busyTurns : List Consumer.Turn :=
  [⟨[⟨0, .append (sampleRecord 1), Env.quiet⟩, ⟨0, .append (sampleRecord 2), Env.quiet⟩,
      ⟨1, .append (sampleRecord 3), Env.quiet⟩], fun _ => [], fun _ => Env.quiet⟩,
    ⟨[⟨0, .append (sampleRecord 4), Env.quiet⟩], fun _ => [], fun _ => Env.quiet⟩]

theorem busyTurns_appends {turn : Consumer.Turn} (h : turn ∈ busyTurns) :
    turn.Appends Crates.uncompressed smallPartition := by
  have hAppend : ∀ p b, Activity.Appends Crates.uncompressed smallPartition
      ⟨p, .append (sampleRecord b), Env.quiet⟩ := by
    intro p b
    refine ⟨⟨?_, cleanFailures_of_quiet Env.quiet_quiet⟩, by simp⟩
    intro r hr
    rw [LogOp.records, List.mem_singleton] at hr
    rw [hr]
    exact sampleRecord_lengthsFit b
  have hQuiet : ∀ i : Nat, CleanFailures ((fun _ : Nat => (Env.quiet : Env FileName)) i) :=
    fun _ => cleanFailures_of_quiet Env.quiet_quiet
  simp only [busyTurns, List.mem_cons, List.not_mem_nil, or_false] at h
  obtain rfl | rfl := h
  · refine ⟨?_, by simp, hQuiet⟩
    intro a ha
    simp only [List.mem_cons, List.not_mem_nil, or_false] at ha
    obtain rfl | rfl | rfl := ha
    · exact hAppend 0 1
    · exact hAppend 0 2
    · exact hAppend 1 3
  · refine ⟨?_, by simp, hQuiet⟩
    intro a ha
    rw [List.mem_singleton] at ha
    rw [ha]
    exact hAppend 0 4

/-- What is looked at of a call: the offsets the second partition retains, the cursor there, and
where the record came from. -/
def Consumer.TakeCall.summary (call : Consumer.TakeCall) :
    Option (Nat × Nat) × Nat × Option (Nat × Nat) :=
  ((call.topic.partitions[1]?).map fun p => (p.log.oldestBase, p.log.nextOffset),
    call.consumer.position 1, match call.scan.result with
      | .ok (some d) => some (d.1.partition, d.1.offset)
      | _ => none)

/-- The second of two calls serves the second partition, though the first still has records. -/
theorem Consumer.merged_scan_starves_nobody_pair :
    ∃ t, pairTopic = some t ∧
      ∃ call ∈ takeCalls Crates.uncompressed busyTurns ⟨[0, 0], 0⟩ t, call.TakesFrom 1 := by
  obtain ⟨t₀, ht₀⟩ : ∃ t, newTopic = some t := ⟨_, rfl⟩
  obtain ⟨hReach, hConfig, hLen⟩ := newTopic_reachable ht₀
  have hPair : pairTopic = some { t₀ with partitions := t₀.partitions ++ t₀.partitions } := by
    rw [pairTopic, ht₀, Option.map_some]
  have hCount : (t₀.partitions ++ t₀.partitions).length = 2 := by
    rw [List.length_append, hLen]
  have hSummaries : pairTopic.map (fun t =>
      (takeCalls Crates.uncompressed busyTurns ⟨[0, 0], 0⟩ t).map TakeCall.summary) =
      some [(some (0, 1), 0, some (0, 0)), (some (0, 1), 0, some (1, 0))] := by
    decide +kernel
  rw [hPair, Option.map_some, Option.some.injEq] at hSummaries
  have hAll : ∀ call ∈ takeCalls Crates.uncompressed busyTurns ⟨[0, 0], 0⟩
      { t₀ with partitions := t₀.partitions ++ t₀.partitions },
      call.Waits 1 ∧ ∃ d, call.scan.result = .ok (some d) := by
    intro call hCall
    have hMem := List.mem_map_of_mem (f := TakeCall.summary) hCall
    rw [hSummaries] at hMem
    simp only [List.mem_cons, List.not_mem_nil, or_false, TakeCall.summary, Prod.mk.injEq] at hMem
    have hHere : (call.topic.partitions[1]?).map
          (fun p => (p.log.oldestBase, p.log.nextOffset)) = some (0, 1) ∧
        call.consumer.position 1 = 0 ∧ ∃ place, (match call.scan.result with
          | .ok (some d) => some (d.1.partition, d.1.offset)
          | _ => none) = some place := by
      obtain ⟨hBounds, hAt, hFound⟩ | ⟨hBounds, hAt, hFound⟩ := hMem
      · exact ⟨hBounds, hAt, _, hFound⟩
      · exact ⟨hBounds, hAt, _, hFound⟩
    obtain ⟨hBounds, hAt, place, hFound⟩ := hHere
    constructor
    · obtain ⟨partition, hPartition, hEq⟩ := Option.map_eq_some_iff.mp hBounds
      rw [Prod.mk.injEq] at hEq
      refine ⟨partition, hPartition, ?_⟩
      unfold OpenPartition.Retains
      rw [hAt, hEq.1, hEq.2]
      decide
    · split at hFound
      · next d hResult => exact ⟨d, hResult⟩
      · cases hFound
  refine ⟨_, hPair, ?_⟩
  refine Consumer.merged_scan_starves_nobody Crates.lawful_uncompressed ?_ ?_ ?_ ?_ ?_
    (fun call hCall => (hAll call hCall).1) (fun call hCall => (hAll call hCall).2)
  · intro p hp
    rcases List.mem_append.mp hp with hIn | hIn
    · exact hReach p hIn
    · exact hReach p hIn
  · exact hCount.symm
  · intro turn hTurn
    change turn.Appends Crates.uncompressed t₀.config
    rw [hConfig]
    exact busyTurns_appends hTurn
  · exact hCount.symm
  · change 1 < (t₀.partitions ++ t₀.partitions).length
    rw [hCount]
    decide

end Kafko
