import Kafko.Offsets.Isolation
import Kafko.Topic.Delivery

/-!
# A group across restarts

One consumer group of a topic, with one consumer at a time: records are produced, a consumer is
built from the committed offsets (`Consumer::from_topic_with_group`), reads and commits, goes
away, and the broker is shut down and opened again, in any order. Logs, cursors and the offset
file are the ones of the modules before; `kept` collects what the consumers delivered, of each
consumer only what came before its last commit.
-/

namespace Kafko

open Disk

/-- The cursors of a group consumer: the committed offsets, clamped to the high-water mark. -/
def Consumer.fromTopicWithGroup (t : Topic) (store : OffsetStore) : Consumer :=
  ⟨t.partitions.mapIdx fun p partition =>
    min ((store.committed[p]?).getD 0).toNat partition.log.nextOffset, 0⟩

/-- The writer syncs its log and ends; later the partition is opened again. -/
def OpenPartition.reopen (X : Crates) (config : LogConfig) (env env' : Env FileName)
    (p : OpenPartition) : Option OpenPartition :=
  match Log.open_ X config env' () (p.perform X env .sync).2.world with
  | (.ok log, _, w) => some ⟨log, w, none⟩
  | _ => none

/-- A commit: the encoding is written in pieces, synced and renamed. It may stop before the
rename, `stop` saying whether the sync was done. -/
def Desk.commit (X : Crates) (partitionCount : Nat) (s : Desk) (seat : Nat) (offsets : List UInt64)
    (pieces : List Nat) (stop : Option Bool) : Option Desk :=
  s.run X partitionCount (.create seat offsets :: (pieces.map (.write seat) ++
    match stop with
    | none => [.sync seat, .rename seat]
    | some true => [.sync seat, .fail seat]
    | some false => [.fail seat]))

structure GroupState where
  topic : Topic
  desk : Desk
  /-- The group's consumer and the seat of its store. -/
  member : Option (Nat × Consumer)
  /-- The cursors at the last commit of the group. -/
  committed : List Nat
  /-- Delivered by the consumer since its last commit. -/
  fresh : List (RecordPosition × Record)
  kept : List (RecordPosition × Record)

inductive GroupEvent
  /-- Anything a writer is asked to do by others. -/
  | produce (a : Activity)
  /-- `consumer_for_group`. -/
  | join
  /-- `next_record`; it goes on waiting if there is nothing. -/
  | next (envs : Nat → Env FileName)
  | commit (pieces : List Nat) (stop : Option Bool)
  /-- The consumer is dropped. -/
  | leave
  /-- The broker is shut down and opened again. -/
  | reopen (env env' : Env FileName)

namespace GroupState

/-- A topic nobody has read from. -/
def start (t : Topic) : GroupState :=
  ⟨t, Desk.empty, none, List.replicate t.partitions.length 0, [], []⟩

def step (X : Crates) (group : String) (s : GroupState) : GroupEvent → Option GroupState
  | .produce a => some { s with topic := s.topic.perform X a }
  | .join => do
    guard (s.member = none)
    let desk ← s.desk.step X s.topic.partitions.length (.open group)
    let store ← desk.idle s.desk.seats.length
    pure { s with
      desk := desk
      member := some (s.desk.seats.length, Consumer.fromTopicWithGroup s.topic store) }
  | .next envs => do
    let (seat, c) ← s.member
    let scan := c.tryTakeNext X envs (fun _ => []) s.topic
    match scan.result with
    | .ok (some delivered) => pure { s with
        topic := scan.topic
        member := some (seat, scan.consumer)
        fresh := s.fresh ++ [delivered] }
    | _ => pure { s with topic := scan.topic, member := some (seat, scan.consumer) }
  | .commit pieces stop => do
    let (seat, c) ← s.member
    let desk ← s.desk.commit X s.topic.partitions.length seat (c.cursors.map UInt64.ofNat) pieces
      stop
    if s.desk.completed.length < desk.completed.length then
      pure { s with desk := desk, committed := c.cursors, fresh := [], kept := s.kept ++ s.fresh }
    else pure { s with desk := desk }
  | .leave => some { s with member := none, fresh := [] }
  | .reopen env env' => do
    let partitions ← s.topic.partitions.mapM fun p => p.reopen X s.topic.config env env'
    pure { s with topic := { s.topic with partitions := partitions }, member := none, fresh := [] }

def run (X : Crates) (group : String) (s : GroupState) : List GroupEvent → Option GroupState
  | [] => some s
  | event :: events => do
    let s' ← s.step X group event
    s'.run X group events

/-- Records keep within the limits of the format and offsets within 64 bits, no file is lost, and
no record is retired. -/
def Admits (X : Crates) (s : GroupState) : GroupEvent → Prop
  | .produce a => Clean a.env ∧ a.env.Alive ∧
      (a.op = .applyRetention → s.topic.config.maxSegmentAge = none ∧
        s.topic.config.maxPartitionBytes = none) ∧
      ∀ p ∈ s.topic.partitions[a.partition]?, a.op.Admissible X p.log ∧
        p.log.nextOffset + a.op.records.length < 2 ^ 64
  | .next envs => ∀ i, Clean (envs i) ∧ (envs i).Alive
  | .reopen env env' => Clean env ∧ env.Alive ∧ env'.Quiet
  | _ => True

/-- Every step of a run is admitted. -/
def RunsWithin (X : Crates) (group : String) (s : GroupState) : List GroupEvent → Prop
  | [] => True
  | event :: events => s.Admits X event ∧
      ∀ s' ∈ s.step X group event, RunsWithin X group s' events

end GroupState

/-! ## Partitions -/

variable {X : Crates} {env : Env FileName} {config : LogConfig} {h : History Record}

/-- Without limits a retention pass does nothing. -/
theorem exec_retention_off {log : Log} {w : World FileName}
    (hAge : log.config.maxSegmentAge = none) (hBytes : log.config.maxPartitionBytes = none) :
    LogOp.exec X .applyRetention env log w = (.ok (.deleted 0), log, w) := by
  have hRun : Log.applyRetention env log w = (.ok 0, log, w) := by
    unfold Log.applyRetention
    rw [Fx.run_bind (show Fx.now env log w = (.ok (env.clock w.tick), log, w) from rfl)]
    dsimp only
    rw [Fx.run_bind (show Fx.get env log w = (.ok log, log, w) from rfl), hAge]
    dsimp only
    rw [Fx.run_bind (show (pure 0 : LogIO Log Nat) env log w = (.ok 0, log, w) from rfl),
      Fx.run_bind (show Fx.get env log w = (.ok log, log, w) from rfl), hBytes]
    rfl
  exact Fx.run_bind hRun

namespace OpenPartition

variable {p : OpenPartition}

/-- A partition with everything that was ever written to it. -/
structure Intact (X : Crates) (config : LogConfig) (h : History Record) (p : OpenPartition) :
    Prop where
  alive : p.panicked = none
  config : p.log.config = config
  whole : h.oldest = 0
  refines : ∃ n, Refines X p.log p.world.store h n

theorem Intact.nextOffset (hp : p.Intact X config h) : p.log.nextOffset = h.next :=
  hp.refines.elim fun _ hRef => hRef.nextOffset

theorem Intact.perform_retention (hp : p.Intact X config h) (hAge : config.maxSegmentAge = none)
    (hBytes : config.maxPartitionBytes = none) : (p.perform X env .applyRetention).2 = p := by
  obtain ⟨log, world, panicked⟩ := p
  obtain rfl : panicked = none := hp.alive
  obtain rfl : log.config = config := hp.config
  unfold perform
  dsimp only
  rw [exec_retention_off hAge hBytes]

theorem Intact.serves (hp : p.Intact X config h) : p.Serves X config h :=
  ⟨hp.alive, hp.config, hp.refines⟩

theorem Serves.intact (hp : p.Serves X config h) (hWhole : h.oldest = 0) : p.Intact X config h :=
  ⟨hp.alive, hp.config, hWhole, hp.refines⟩

/-- Whatever the partition is asked to do, it keeps what it has. -/
theorem Intact.perform (hX : X.Lawful) (hp : p.Intact X config h) (hClean : Clean env)
    (hAlive : env.Alive) {op : LogOp} (hOp : op.Admissible X p.log)
    (hKeep : op = .applyRetention → config.maxSegmentAge = none ∧
      config.maxPartitionBytes = none) :
    ∃ added, (p.perform X env op).2.Intact X config (h.append added) ∧
      added.length ≤ op.records.length := by
  by_cases hRetain : op = .applyRetention
  · obtain ⟨hAge, hBytes⟩ := hKeep hRetain
    subst hRetain
    refine ⟨[], ?_, Nat.zero_le _⟩
    rw [hp.perform_retention hAge hBytes, History.append_nil]
    exact hp
  · obtain ⟨h', hServes, ⟨reply, -, hAccepts⟩ | ⟨e, -, hRejects⟩⟩ :=
      hp.serves.perform hX hClean hAlive hOp
    · have hGrown : h' = h.append op.records := by
        obtain ⟨records, oldest⟩ := h'
        obtain rfl : records = h.records ++ op.records := hAccepts.records
        obtain rfl : oldest = h.oldest := hAccepts.oldest hRetain
        rfl
      subst hGrown
      exact ⟨op.records, hServes.intact hp.whole, Nat.le_refl _⟩
    · cases hRejects with
      | unchanged =>
        refine ⟨[], ?_, Nat.zero_le _⟩
        rw [History.append_nil]
        exact hServes.intact hp.whole
      | retain oldest hLe hNext => exact absurd rfl hRetain

/-- A partition comes back as it was shut down. -/
theorem Serves.reopen (hX : X.Lawful) (hp : p.Serves X config h) (hClean : Clean env)
    (hAlive : env.Alive) {env' : Env FileName} (hQuiet : env'.Quiet) :
    ∃ p', p.reopen X config env env' = some p' ∧ p'.Serves X config h := by
  have hOp : LogOp.Admissible X p.log .sync := admissible_of_no_records rfl _
  have hSynced : (p.perform X env .sync).2.Serves X config h := by
    obtain ⟨h', hServes, ⟨reply, -, hAccepts⟩ | ⟨e, -, hRejects⟩⟩ :=
      hp.perform hX hClean hAlive hOp
    · cases hAccepts
      exact hServes
    · cases hRejects
      exact hServes
  obtain ⟨n, hRef⟩ := hSynced.refines
  obtain ⟨log, w, hOpen, hConfig, hRef'⟩ := reopen_quiet hQuiet hRef config
  refine ⟨⟨log, w, none⟩, ?_, rfl, hConfig, n, hRef'⟩
  unfold OpenPartition.reopen
  rw [hOpen]

theorem Intact.reopen (hX : X.Lawful) (hp : p.Intact X config h) (hClean : Clean env)
    (hAlive : env.Alive) {env' : Env FileName} (hQuiet : env'.Quiet) :
    ∃ p', p.reopen X config env env' = some p' ∧ p'.Intact X config h := by
  obtain ⟨p', hReopen, hServes⟩ := hp.serves.reopen hX hClean hAlive hQuiet
  exact ⟨p', hReopen, hServes.intact hp.whole⟩

end OpenPartition

/-! ## Topics -/

/-- Every element is mapped to something with the property of its place. -/
theorem mapM_some_of_forall {α β : Type} {f : α → Option β} {P : Nat → β → Prop} {xs : List α}
    (h : ∀ i x, xs[i]? = some x → ∃ y, f x = some y ∧ P i y) :
    ∃ ys, xs.mapM f = some ys ∧ ys.length = xs.length ∧ ∀ i y, ys[i]? = some y → P i y := by
  induction xs generalizing P with
  | nil => exact ⟨[], rfl, rfl, fun i y hy => by cases hy⟩
  | cons x xs ih =>
    obtain ⟨y, hFirst, hy⟩ := h 0 x rfl
    obtain ⟨ys, hRest, hLen, hAll⟩ := ih fun i x hx => h (i + 1) x hx
    refine ⟨y :: ys, ?_, ?_, ?_⟩
    · rw [List.mapM_cons, hFirst, hRest]
      rfl
    · rw [List.length_cons, List.length_cons, hLen]
    · intro i y' hy'
      cases i with
      | zero =>
        obtain rfl := Option.some.inj hy'
        exact hy
      | succ i => exact hAll i y' hy'

namespace Topic

variable {t : Topic} {histories : Nat → History Record}

def Intact (X : Crates) (histories : Nat → History Record) (t : Topic) : Prop :=
  ∀ (p : Nat) (partition : OpenPartition), t.partitions[p]? = some partition →
    partition.Intact X t.config (histories p)

/-- One partition was replaced. -/
theorem Intact.set (ht : t.Intact X histories) {p : Nat} {partition : OpenPartition}
    {h' : History Record} (hPartition : partition.Intact X t.config h') :
    (t.setPartition p partition).Intact X (fun q => if q = p then h' else histories q) := by
  intro q partition' hq
  dsimp only
  rcases setPartition_cases hq with ⟨rfl, rfl⟩ | ⟨hNe, hOld⟩
  · rw [if_pos rfl]
    exact hPartition
  · rw [if_neg hNe]
    exact ht q partition' hOld

theorem Intact.serves (ht : t.Intact X histories) : t.Serves X histories :=
  fun p partition hp => (ht p partition hp).serves

end Topic

/-! ## The consumer's scan -/

namespace Consumer

variable {c : Consumer} {t : Topic} {histories : Nat → History Record}
  {envs : Nat → Env FileName}

/-- What a scan does on its own: it finds a record at the cursor of some partition, or it changes
nothing. -/
structure Scanned (X : Crates) (histories : Nat → History Record) (c : Consumer) (t : Topic)
    (scan : Scan) : Prop where
  config : scan.topic.config = t.config
  count : scan.topic.partitions.length = t.partitions.length
  intact : scan.topic.Intact X histories
  found : ∀ delivered, scan.result = .ok (some delivered) →
    ∃ p < t.partitions.length, delivered.1 = ⟨p, c.position p⟩ ∧
      (histories p).records[c.position p]? = some delivered.2 ∧
      scan.consumer.cursors = c.cursors.set p (c.position p + 1)
  same : (∀ delivered, scan.result ≠ .ok (some delivered)) → scan.consumer = c

theorem tryTakeNext_scanned (hX : X.Lawful) (hEnvs : ∀ i, Clean (envs i) ∧ (envs i).Alive)
    (ht : t.Intact X histories) :
    Scanned X histories c t (c.tryTakeNext X envs (fun _ => []) t) := by
  have hLooked := tryTakeNext_looked (c := c) hX hEnvs ht.serves
  generalize c.tryTakeNext X envs (fun _ => []) t = scan at hLooked
  have hWhole : ∀ p < t.partitions.length, (histories p).oldest = 0 := fun p hp =>
    (ht p _ (List.getElem?_eq_getElem hp)).whole
  refine ⟨hLooked.config, hLooked.count, ?_, ?_, hLooked.same⟩
  · intro p partition hPartition
    refine (hLooked.serves p partition hPartition).intact (hWhole p ?_)
    rw [← hLooked.count]
    exact (List.getElem?_eq_some_iff.mp hPartition).1
  · intro delivered hDelivered
    obtain ⟨p, hp, hAt, hGet, hCursors⟩ := hLooked.found delivered hDelivered
    have hOld : (histories p).oldest ≤ c.position p := by
      rw [hWhole p hp]
      exact Nat.zero_le _
    rw [History.get, if_pos hOld] at hGet
    exact ⟨p, hp, hAt, hGet, hCursors⟩

end Consumer

/-! ## The desk -/

namespace Desk

variable {partitionCount seat : Nat} {s s' : Desk} {group : String} {groups : List String}
  {store : OffsetStore} {offsets : List UInt64}

def AllIdle (s : Desk) : Prop := ∀ i, s.busy i = none

/-- The store in this seat is committing, and no other one. -/
structure Committing (s : Desk) (seat : Nat) (store : OffsetStore) (offsets : List UInt64) :
    Prop where
  own : ∃ c, s.busy seat = some (store, c) ∧ c.offsets = offsets
  others : ∀ i, i ≠ seat → s.busy i = none

theorem busy_setSeat_self {commit : Option Commit} {c : Commit} (hSeat : seat < s.seats.length)
    (hCommit : commit = some c) : (s.setSeat seat store commit).busy seat = some (store, c) := by
  rw [busy_eq_some, hCommit]
  exact List.getElem?_set_self hSeat

theorem busy_setSeat_none : (s.setSeat seat store none).busy seat = none := by
  cases hBusy : (s.setSeat seat store none).busy seat with
  | none => rfl
  | some x =>
    rcases busy_setSeat hBusy with ⟨-, -, hNone⟩ | ⟨hNe, -⟩
    · cases hNone
    · exact absurd rfl hNe

theorem busy_setSeat_ne {commit : Option Commit} {i : Nat} (hNe : i ≠ seat) :
    (s.setSeat seat store commit).busy i = s.busy i := by
  unfold busy setSeat
  rw [List.getElem?_set_ne (Ne.symm hNe)]

theorem lt_of_busy {c : Commit} (h : s.busy seat = some (store, c)) : seat < s.seats.length :=
  (List.getElem?_eq_some_iff.mp (busy_eq_some.mp h)).1

theorem idle_setSeat (hSeat : seat < s.seats.length) :
    (s.setSeat seat store none).idle seat = some store := by
  rw [idle_eq_some]
  exact List.getElem?_set_self hSeat

theorem AllIdle.startsAlone (h : s.AllIdle) (event : DeskEvent) : s.StartsAlone event := by
  cases event with
  | create seat offsets =>
    intro store _ other hOther hSome
    obtain ⟨i, hi⟩ := List.mem_iff_getElem?.mp hOther
    obtain ⟨c, hc⟩ := Option.isSome_iff_exists.mp hSome
    obtain ⟨store', commit⟩ := other
    obtain rfl : commit = some c := hc
    have hBusy := busy_eq_some.mpr hi
    rw [h i] at hBusy
    cases hBusy
  | _ => trivial

theorem create_committing (h : s.AllIdle)
    (hStep : s.step X partitionCount (.create seat offsets) = some s') :
    ∃ store, s.idle seat = some store ∧ s'.Committing seat store offsets ∧
      s'.completed = s.completed := by
  cases step_cases hStep with
  | @create _ _ store hStore hCount =>
    have hSeat : seat < s.seats.length := (List.getElem?_eq_some_iff.mp (idle_eq_some.mp hStore)).1
    refine ⟨store, hStore, ⟨⟨_, busy_setSeat_self hSeat rfl, rfl⟩, ?_⟩, rfl⟩
    intro i hNe
    rw [busy_setSeat_ne hNe]
    exact h i

/-- The commit goes on in its seat. -/
theorem Committing.goesOn (h : s.Committing seat store offsets) {t : Desk} {c : Commit}
    (hSeats : t.seats = s.seats) (hOffsets : c.offsets = offsets) :
    (t.setSeat seat store (some c)).Committing seat store offsets := by
  obtain ⟨⟨c₀, hBusy, -⟩, hOthers⟩ := h
  have hSeat : seat < t.seats.length := by
    rw [hSeats]
    exact lt_of_busy hBusy
  refine ⟨⟨c, busy_setSeat_self hSeat rfl, hOffsets⟩, ?_⟩
  intro i hNe
  rw [busy_setSeat_ne hNe, busy, hSeats]
  exact hOthers i hNe

theorem Committing.own_eq (h : s.Committing seat store offsets) {store' : OffsetStore} {c : Commit}
    (hBusy : s.busy seat = some (store', c)) : store' = store ∧ c.offsets = offsets := by
  obtain ⟨c₀, hBusy₀, hOffsets⟩ := h.own
  obtain ⟨rfl, rfl⟩ := Prod.mk.inj (Option.some.inj (hBusy.symm.trans hBusy₀))
  exact ⟨rfl, hOffsets⟩

theorem write_committing {len : Nat} (h : s.Committing seat store offsets)
    (hStep : s.step X partitionCount (.write seat len) = some s') :
    s'.Committing seat store offsets ∧ s'.completed = s.completed := by
  cases step_cases hStep with
  | write hBusy hOpen hChunk =>
    obtain ⟨rfl, hOffsets⟩ := h.own_eq hBusy
    exact ⟨h.goesOn rfl hOffsets, rfl⟩

theorem sync_committing (h : s.Committing seat store offsets)
    (hStep : s.step X partitionCount (.sync seat) = some s') :
    s'.Committing seat store offsets ∧ s'.completed = s.completed := by
  cases step_cases hStep with
  | sync hBusy hWhole =>
    obtain ⟨rfl, hOffsets⟩ := h.own_eq hBusy
    exact ⟨h.goesOn rfl hOffsets, rfl⟩

/-- The seat is free again. -/
theorem Committing.settled (h : s.Committing seat store offsets) {t : Desk} {store' : OffsetStore}
    (hSeats : t.seats = s.seats) :
    (t.setSeat seat store' none).AllIdle ∧ (t.setSeat seat store' none).idle seat = some store' := by
  obtain ⟨⟨c, hBusy, -⟩, hOthers⟩ := h
  refine ⟨?_, idle_setSeat (by rw [hSeats]; exact lt_of_busy hBusy)⟩
  intro i
  by_cases hEq : i = seat
  · subst hEq
    exact busy_setSeat_none
  · rw [busy_setSeat_ne hEq, busy, hSeats]
    exact hOthers i hEq

theorem rename_settled (h : s.Committing seat store offsets)
    (hStep : s.step X partitionCount (.rename seat) = some s') :
    s'.AllIdle ∧ (∃ store', s'.idle seat = some store' ∧ store'.group = store.group) ∧
      (s'.completed = s.completed ∨ s'.completed = (store.group, offsets) :: s.completed) := by
  cases step_cases hStep with
  | renamed hBusy hSynced hRename =>
    obtain ⟨rfl, rfl⟩ := h.own_eq hBusy
    obtain ⟨hIdle, hSeat⟩ := h.settled (t := { s with dir := _, completed := _ }) rfl
    exact ⟨hIdle, ⟨_, hSeat, rfl⟩, Or.inr rfl⟩
  | unrenamed hBusy hRename =>
    obtain ⟨hIdle, hSeat⟩ := h.settled (t := s) rfl
    exact ⟨hIdle, ⟨_, hSeat, congrArg OffsetStore.group (h.own_eq hBusy).1⟩, Or.inl rfl⟩

theorem fail_settled (h : s.Committing seat store offsets)
    (hStep : s.step X partitionCount (.fail seat) = some s') :
    s'.AllIdle ∧ (∃ store', s'.idle seat = some store' ∧ store'.group = store.group) ∧
      s'.completed = s.completed := by
  cases step_cases hStep with
  | fail hBusy =>
    obtain ⟨hIdle, hSeat⟩ := h.settled (t := s) rfl
    exact ⟨hIdle, ⟨_, hSeat, congrArg OffsetStore.group (h.own_eq hBusy).1⟩, rfl⟩

theorem run_cons_some {event : DeskEvent} {events : List DeskEvent}
    (h : s.run X partitionCount (event :: events) = some s') :
    ∃ t, s.step X partitionCount event = some t ∧ t.run X partitionCount events = some s' :=
  Option.bind_eq_some_iff.mp h

/-- The middle of a commit: the directory is sound, and nothing has been completed since `s`. -/
structure Midway (X : Crates) (partitionCount : Nat) (groups : List String) (s : Desk) (seat : Nat)
    (store : OffsetStore) (offsets : List UInt64) (t : Desk) : Prop where
  sound : t.Sound X partitionCount groups
  committing : t.Committing seat store offsets
  completed : t.completed = s.completed

theorem Midway.write (hApart : TempNamesApart groups) {t t' : Desk} {len : Nat}
    (h : Midway X partitionCount groups s seat store offsets t)
    (hStep : t.step X partitionCount (.write seat len) = some t') :
    Midway X partitionCount groups s seat store offsets t' := by
  obtain ⟨hCommitting, hCompleted⟩ := write_committing h.committing hStep
  exact ⟨write_sound h.sound hApart hStep, hCommitting, hCompleted.trans h.completed⟩

theorem Midway.sync (hApart : TempNamesApart groups) {t t' : Desk}
    (h : Midway X partitionCount groups s seat store offsets t)
    (hStep : t.step X partitionCount (.sync seat) = some t') :
    Midway X partitionCount groups s seat store offsets t' := by
  obtain ⟨hCommitting, hCompleted⟩ := sync_committing h.committing hStep
  exact ⟨sync_sound h.sound hApart hStep, hCommitting, hCompleted.trans h.completed⟩

/-- A commit has ended, one way or the other. -/
structure Ended (X : Crates) (partitionCount : Nat) (groups : List String) (s : Desk) (seat : Nat)
    (store : OffsetStore) (offsets : List UInt64) (t : Desk) : Prop where
  sound : t.Sound X partitionCount groups
  idle : t.AllIdle
  seated : ∃ store', t.idle seat = some store' ∧ store'.group = store.group
  completed : t.completed = s.completed ∨ t.completed = (store.group, offsets) :: s.completed

theorem Midway.rename (hApart : TempNamesApart groups) {t t' : Desk}
    (h : Midway X partitionCount groups s seat store offsets t)
    (hStep : t.step X partitionCount (.rename seat) = some t') :
    Ended X partitionCount groups s seat store offsets t' := by
  obtain ⟨hIdle, hSeated, hCompleted⟩ := rename_settled h.committing hStep
  rw [h.completed] at hCompleted
  exact ⟨rename_sound h.sound hApart hStep, hIdle, hSeated, hCompleted⟩

theorem Midway.fail (hApart : TempNamesApart groups) {t t' : Desk}
    (h : Midway X partitionCount groups s seat store offsets t)
    (hStep : t.step X partitionCount (.fail seat) = some t') :
    Ended X partitionCount groups s seat store offsets t' := by
  obtain ⟨hIdle, hSeated, hCompleted⟩ := fail_settled h.committing hStep
  exact ⟨fail_sound h.sound hApart hStep, hIdle, hSeated, Or.inl (hCompleted.trans h.completed)⟩

theorem commit_ended (hSound : s.Sound X partitionCount groups) (hApart : TempNamesApart groups)
    (hIdle : s.AllIdle) {pieces : List Nat} {stop : Option Bool}
    (h : s.commit X partitionCount seat offsets pieces stop = some s') :
    ∃ store, s.idle seat = some store ∧
      Ended X partitionCount groups s seat store offsets s' := by
  obtain ⟨t, hCreate, hRest⟩ := run_cons_some h
  obtain ⟨store, hStore, hCommitting, hCompleted⟩ := create_committing hIdle hCreate
  have hMid : Midway X partitionCount groups s seat store offsets t :=
    ⟨create_sound hSound hApart (hIdle.startsAlone _) hCreate, hCommitting, hCompleted⟩
  refine ⟨store, hStore, ?_⟩
  clear hCreate hCommitting hCompleted h
  induction pieces generalizing t with
  | cons len pieces ih =>
    obtain ⟨t', hWrite, hRest'⟩ := run_cons_some hRest
    exact ih t' hRest' (hMid.write hApart hWrite)
  | nil =>
    cases stop with
    | none =>
      obtain ⟨t₁, hSync, hRest₁⟩ := run_cons_some hRest
      obtain ⟨t₂, hRename, hEnd⟩ := run_cons_some hRest₁
      cases hEnd
      exact (hMid.sync hApart hSync).rename hApart hRename
    | some synced =>
      cases synced with
      | true =>
        obtain ⟨t₁, hSync, hRest₁⟩ := run_cons_some hRest
        obtain ⟨t₂, hFail, hEnd⟩ := run_cons_some hRest₁
        cases hEnd
        exact (hMid.sync hApart hSync).fail hApart hFail
      | false =>
        obtain ⟨t₂, hFail, hEnd⟩ := run_cons_some hRest
        cases hEnd
        exact hMid.fail hApart hFail

end Desk

/-! ## The group -/

namespace GroupState

variable {group : String} {s s' : GroupState} {histories : Nat → History Record}

/-- What holds in every state: the committed offsets, in the file and in the history of the group,
are where the kept records end, and the consumer stands where the delivered ones end. -/
structure Inv (X : Crates) (group : String) (histories : Nat → History Record) (s : GroupState) :
    Prop where
  intact : s.topic.Intact X histories
  small : ∀ p < s.topic.partitions.length, (histories p).next < 2 ^ 64
  sound : s.desk.Sound X s.topic.partitions.length [group]
  idle : s.desk.AllIdle
  recorded : (s.desk.lastCommitted group).getD (List.replicate s.topic.partitions.length 0) =
    s.committed.map UInt64.ofNat
  sized : s.committed.length = s.topic.partitions.length
  committed : ∀ p, startAt s.committed p = (offsetsOf p s.kept).length
  consecutive : Consecutive [] (s.kept ++ s.fresh)
  held : ∀ d ∈ s.kept ++ s.fresh, d.1.partition < s.topic.partitions.length ∧
    (histories d.1.partition).records[d.1.offset]? = some d.2
  member : ∀ seat c, s.member = some (seat, c) →
    c.cursors.length = s.topic.partitions.length ∧
    (∀ p, c.position p = (offsetsOf p (s.kept ++ s.fresh)).length) ∧
    ∃ store, s.desk.idle seat = some store ∧ store.group = group
  away : s.member = none → s.fresh = []

/-- No more was delivered than there is. -/
theorem delivered_le {ds : List (RecordPosition × Record)} (hConsecutive : Consecutive [] ds)
    (hHeld : ∀ d ∈ ds, (histories d.1.partition).records[d.1.offset]? = some d.2) (p : Nat) :
    (offsetsOf p ds).length ≤ (histories p).next := by
  by_contra hLt
  obtain ⟨k, hk⟩ : ∃ k, (offsetsOf p ds).length = k + 1 := Nat.exists_eq_add_one.mpr (by omega)
  have hMem : k ∈ offsetsOf p ds := by
    rw [hConsecutive p, List.mem_range'_1]
    exact ⟨Nat.zero_le _, by rw [hk]; simp [startAt]⟩
  obtain ⟨⟨position, record⟩, hd, rfl⟩ := List.mem_map.mp hMem
  obtain ⟨hIn, hPartition⟩ := List.mem_filter.mp hd
  have hAt := hHeld _ hIn
  rw [show position.partition = p from of_decide_eq_true hPartition] at hAt
  have hOffset : position.offset < (histories p).next := (List.getElem?_eq_some_iff.mp hAt).1
  dsimp only at hk
  omega

theorem Inv.kept_le (h : s.Inv X group histories) (p : Nat) :
    startAt s.committed p ≤ (histories p).next := by
  rw [h.committed]
  exact delivered_le h.consecutive.of_append
    (fun d hd => (h.held d (List.mem_append_left _ hd)).2) p

/-- The logs may change as long as they keep their records. -/
theorem Inv.topic (h : s.Inv X group histories) {t : Topic} {histories' : Nat → History Record}
    (hIntact : t.Intact X histories') (hCount : t.partitions.length = s.topic.partitions.length)
    (hGrown : ∀ p, ∃ added, histories' p = (histories p).append added)
    (hSmall : ∀ p < s.topic.partitions.length, (histories' p).next < 2 ^ 64) :
    { s with topic := t }.Inv X group histories' := by
  refine ⟨hIntact, ?_, ?_, h.idle, ?_, ?_, h.committed, h.consecutive, ?_, ?_, h.away⟩
  · rw [hCount]
    exact hSmall
  · rw [hCount]
    exact h.sound
  · rw [hCount]
    exact h.recorded
  · rw [hCount]
    exact h.sized
  · rw [hCount]
    intro d hd
    obtain ⟨hLt, hAt⟩ := h.held d hd
    refine ⟨hLt, ?_⟩
    obtain ⟨added, hAdded⟩ := hGrown d.1.partition
    rw [hAdded]
    show ((histories d.1.partition).records ++ added)[d.1.offset]? = some d.2
    rw [List.getElem?_append_left (List.getElem?_eq_some_iff.mp hAt).1]
    exact hAt
  · rw [hCount]
    exact h.member

theorem Inv.produce (hX : X.Lawful) (h : s.Inv X group histories) {a : Activity}
    (hAdmits : s.Admits X (.produce a)) :
    ∃ histories', { s with topic := s.topic.perform X a }.Inv X group histories' := by
  obtain ⟨hClean, hAlive, hKeep, hFits⟩ := hAdmits
  cases hPartition : s.topic.partitions[a.partition]? with
  | none =>
    refine ⟨histories, ?_⟩
    rw [Topic.perform_eq_self _ _ hPartition]
    exact h
  | some partition =>
    obtain ⟨hOp, hRoom⟩ := hFits partition hPartition
    have hBefore := h.intact _ partition hPartition
    obtain ⟨added, hAfter, hLen⟩ := hBefore.perform hX hClean hAlive hOp hKeep
    rw [Topic.perform_eq_setPartition _ _ hPartition]
    refine ⟨_, h.topic (h.intact.set hAfter) List.length_set ?_ ?_⟩
    · intro p
      split
      · next hEq => exact ⟨added, by rw [hEq]⟩
      · exact ⟨[], (History.append_nil _).symm⟩
    · intro p hp
      split
      · rw [History.next_append, ← hBefore.nextOffset]
        omega
      · exact h.small p hp

/-- A new consumer stands at the committed offsets. -/
theorem Inv.cursors_eq (h : s.Inv X group histories) :
    (Consumer.fromTopicWithGroup s.topic ⟨group, s.committed.map UInt64.ofNat⟩).cursors =
      s.committed := by
  unfold Consumer.fromTopicWithGroup
  ext1 p
  rw [List.getElem?_mapIdx]
  cases hPartition : s.topic.partitions[p]? with
  | none =>
    have hLe : s.committed.length ≤ p := by
      rw [h.sized]
      exact List.getElem?_eq_none_iff.mp hPartition
    rw [Option.map_none, List.getElem?_eq_none hLe]
  | some partition =>
    have hLt : p < s.topic.partitions.length := (List.getElem?_eq_some_iff.mp hPartition).1
    have hLe := h.kept_le p
    have hSmall := h.small p hLt
    have hIn : p < s.committed.length := by rwa [h.sized]
    have hAt : s.committed[p]? = some s.committed[p] := List.getElem?_eq_getElem hIn
    unfold startAt at hLe
    rw [hAt, Option.getD_some] at hLe
    have hCast : s.committed[p] < UInt64.size := hLe.trans_lt hSmall
    rw [Option.map_some, List.getElem?_map, hAt, Option.map_some, Option.getD_some,
      (h.intact p partition hPartition).nextOffset, UInt64.toNat_ofNat_of_lt' hCast,
      Nat.min_eq_left hLe]

theorem join_eq (h : s.Inv X group histories) (hName : validateGroupName group = .ok ())
    (hFits : s.topic.partitions.length < 2 ^ 32) (hAway : s.member = none) :
    s.step X group .join = some { s with
      desk := { s.desk with
        seats := s.desk.seats ++ [⟨⟨group, s.committed.map UInt64.ofNat⟩, none⟩] }
      member := some (s.desk.seats.length, Consumer.fromTopicWithGroup s.topic
        ⟨group, s.committed.map UInt64.ofNat⟩) } := by
  have hOpen := (h.sound.files group (List.mem_singleton.mpr rfl)).open hName hFits
  rw [h.recorded] at hOpen
  have hStep : s.desk.step X s.topic.partitions.length (.open group) = some { s.desk with
      seats := s.desk.seats ++ [⟨⟨group, s.committed.map UInt64.ofNat⟩, none⟩] } := by
    rw [Desk.step, hOpen]
  have hIdle : ({ s.desk with
      seats := s.desk.seats ++ [⟨⟨group, s.committed.map UInt64.ofNat⟩, none⟩] } : Desk).idle
        s.desk.seats.length = some ⟨group, s.committed.map UInt64.ofNat⟩ := by
    rw [Desk.idle_eq_some]
    exact List.getElem?_concat_length
  rw [step, hAway, hStep]
  simp [hIdle]

theorem Inv.join (h : s.Inv X group histories) (hName : validateGroupName group = .ok ())
    (hFits : s.topic.partitions.length < 2 ^ 32) (hStep : s.step X group .join = some s') :
    s'.Inv X group histories ∧ s'.topic = s.topic := by
  have hAway : s.member = none := by
    obtain ⟨_, hGuard, -⟩ := Option.bind_eq_some_iff.mp hStep
    exact (Option.guard_eq_some' ..).mp hGuard
  have hJoin := hStep
  rw [join_eq h hName hFits hAway] at hJoin
  obtain rfl := Option.some.inj hJoin
  obtain ⟨_, -, hRest⟩ := Option.bind_eq_some_iff.mp hStep
  obtain ⟨desk, hDesk, hRest⟩ := Option.bind_eq_some_iff.mp hRest
  obtain ⟨store, hStore, hRest⟩ := Option.bind_eq_some_iff.mp hRest
  have hEq := congrArg GroupState.desk (Option.some.inj hRest)
  dsimp only at hEq
  subst hEq
  have hNil := h.away hAway
  refine ⟨⟨h.intact, h.small, ?_, ?_, h.recorded, h.sized, h.committed, h.consecutive, h.held, ?_,
    fun hNone => (by cases hNone)⟩, rfl⟩
  · exact Desk.open_sound h.sound (List.mem_singleton.mpr rfl) hDesk
  · intro i
    cases hBusy : Desk.busy _ i with
    | none => rfl
    | some x =>
      obtain ⟨store', c⟩ := x
      have hAt := Desk.busy_eq_some.mp hBusy
      dsimp only at hAt
      rw [List.getElem?_append] at hAt
      split at hAt
      · have hOld := Desk.busy_eq_some.mpr hAt
        rw [h.idle i] at hOld
        cases hOld
      · have hNew := List.mem_singleton.mp (List.mem_of_getElem? hAt)
        cases hNew
  · intro seat c hMember
    cases hMember
    have hCursors := h.cursors_eq
    refine ⟨by rw [hCursors, h.sized], ?_, store, hStore, ?_⟩
    · intro p
      rw [hNil, List.append_nil, ← h.committed p, Consumer.position, hCursors]
      rfl
    · have hAt := Desk.idle_eq_some.mp hStore
      dsimp only at hAt
      rw [List.getElem?_concat_length] at hAt
      cases hAt
      rfl

theorem Inv.next (hX : X.Lawful) (h : s.Inv X group histories) {envs : Nat → Env FileName}
    (hAdmits : s.Admits X (.next envs)) (hStep : s.step X group (.next envs) = some s') :
    s'.Inv X group histories ∧ s'.topic.partitions.length = s.topic.partitions.length := by
  obtain ⟨⟨seat, c⟩, hMember, hRest⟩ := Option.bind_eq_some_iff.mp hStep
  obtain ⟨hSized, hPosition, hSeated⟩ := h.member seat c hMember
  have hScan : Consumer.Scanned X histories c s.topic
      (c.tryTakeNext X envs (fun _ => []) s.topic) :=
    Consumer.tryTakeNext_scanned hX hAdmits h.intact
  dsimp only at hRest
  generalize c.tryTakeNext X envs (fun _ => []) s.topic = scan at hScan hRest
  have hTopic : { s with topic := scan.topic }.Inv X group histories :=
    h.topic hScan.intact hScan.count (fun p => ⟨[], (History.append_nil _).symm⟩) h.small
  split at hRest
  · next delivered hFound =>
    obtain rfl := Option.some.inj hRest
    refine ⟨?_, hScan.count⟩
    obtain ⟨p, hp, hAt, hRecord, hCursors⟩ := hScan.found delivered hFound
    obtain ⟨position, record⟩ := delivered
    obtain rfl : position = ⟨p, c.position p⟩ := hAt
    have hDelivered : s.kept ++ (s.fresh ++ [(⟨p, c.position p⟩, record)]) =
        (s.kept ++ s.fresh) ++ [(⟨p, c.position p⟩, record)] := (List.append_assoc _ _ _).symm
    have hStart : ∀ q, c.position q = startAt [] q + (offsetsOf q (s.kept ++ s.fresh)).length :=
      fun q => (hPosition q).trans (Nat.zero_add _).symm
    refine ⟨hTopic.intact, hTopic.small, hTopic.sound, hTopic.idle, hTopic.recorded, hTopic.sized,
      hTopic.committed, ?_, ?_, ?_, fun hNone => (by cases hNone)⟩
    · dsimp only
      rw [hDelivered]
      exact h.consecutive.concat (hStart p) record
    · dsimp only
      rw [hDelivered, hScan.count]
      intro d hd
      rcases List.mem_append.mp hd with hOld | hNew
      · exact h.held d hOld
      · rw [List.mem_singleton.mp hNew]
        exact ⟨hp, hRecord⟩
    · intro seat' c' hMember'
      cases hMember'
      dsimp only
      have hLt : p < c.cursors.length := by rwa [hSized]
      refine ⟨by rw [hCursors, List.length_set, hSized, hScan.count], ?_, hSeated⟩
      intro q
      rw [hDelivered, Consumer.position_concat hLt hCursors hStart record q]
      exact Nat.zero_add _
  · next hMiss =>
    obtain rfl := Option.some.inj hRest
    have hSame : scan.consumer = c := hScan.same fun delivered hFound => hMiss delivered hFound
    rw [hSame, ← hMember]
    exact ⟨hTopic, hScan.count⟩

/-- A group's temporary file is not its own file. -/
theorem tempNamesApart_single (group : String) : TempNamesApart [group] := by
  intro a ha b hb hEq
  rw [List.mem_singleton.mp ha, List.mem_singleton.mp hb] at hEq
  have hLen := congrArg String.length hEq
  rw [String.length_append] at hLen
  have hSuffix : tempSuffix.length = 4 := rfl
  omega

theorem Inv.commit (h : s.Inv X group histories) {pieces : List Nat} {stop : Option Bool}
    (hStep : s.step X group (.commit pieces stop) = some s') :
    s'.Inv X group histories ∧ s'.topic = s.topic := by
  obtain ⟨⟨seat, c⟩, hMember, hRest⟩ := Option.bind_eq_some_iff.mp hStep
  obtain ⟨desk, hCommit, hRest⟩ := Option.bind_eq_some_iff.mp hRest
  obtain ⟨hSized, hPosition, store, hStore, hGroup⟩ := h.member seat c hMember
  obtain ⟨store₀, hStore₀, hEnded⟩ :=
    Desk.commit_ended h.sound (tempNamesApart_single group) h.idle hCommit
  obtain rfl : store₀ = store := Option.some.inj (hStore₀.symm.trans hStore)
  obtain ⟨store', hSeated, hGroup'⟩ := hEnded.seated
  rw [hGroup] at hGroup'
  split at hRest
  · next hMore =>
    obtain rfl := Option.some.inj hRest
    have hCompleted : desk.completed = (group, c.cursors.map UInt64.ofNat) :: s.desk.completed := by
      rcases hEnded.completed with hSame | hNew
      · rw [hSame] at hMore
        exact absurd hMore (Nat.lt_irrefl _)
      · rwa [hGroup] at hNew
    refine ⟨⟨h.intact, h.small, hEnded.sound, hEnded.idle, ?_, hSized, ?_, ?_, ?_, ?_,
      fun _ => rfl⟩, rfl⟩
    · dsimp only
      unfold Desk.lastCommitted
      rw [hCompleted, List.find?_cons_of_pos (by simp)]
      rfl
    · intro p
      exact hPosition p
    · dsimp only
      rw [List.append_nil]
      exact h.consecutive
    · dsimp only
      rw [List.append_nil]
      exact h.held
    · intro seat' c' hMember'
      obtain ⟨rfl, rfl⟩ := Prod.mk.inj (Option.some.inj (hMember.symm.trans hMember'))
      dsimp only
      rw [List.append_nil]
      exact ⟨hSized, hPosition, store', hSeated, hGroup'⟩
  · next hSame =>
    obtain rfl := Option.some.inj hRest
    have hCompleted : desk.completed = s.desk.completed := by
      rcases hEnded.completed with hOld | hNew
      · exact hOld
      · rw [hNew, List.length_cons] at hSame
        exact absurd (Nat.lt_succ_self _) hSame
    refine ⟨⟨h.intact, h.small, hEnded.sound, hEnded.idle, ?_, h.sized, h.committed, h.consecutive,
      h.held, ?_, h.away⟩, rfl⟩
    · dsimp only
      rw [Desk.lastCommitted, hCompleted]
      exact h.recorded
    · intro seat' c' hMember'
      obtain ⟨rfl, rfl⟩ := Prod.mk.inj (Option.some.inj (hMember.symm.trans hMember'))
      exact ⟨hSized, hPosition, store', hSeated, hGroup'⟩

/-- A consumer goes away with what it has not committed. -/
theorem Inv.leave (h : s.Inv X group histories) :
    { s with member := none, fresh := [] }.Inv X group histories := by
  refine ⟨h.intact, h.small, h.sound, h.idle, h.recorded, h.sized, h.committed, ?_, ?_,
    fun _ _ hNone => (by cases hNone), fun _ => rfl⟩
  · dsimp only
    rw [List.append_nil]
    exact h.consecutive.of_append
  · dsimp only
    rw [List.append_nil]
    intro d hd
    exact h.held d (List.mem_append_left _ hd)

theorem Inv.reopen (hX : X.Lawful) (h : s.Inv X group histories) {env env' : Env FileName}
    (hAdmits : s.Admits X (.reopen env env')) (hStep : s.step X group (.reopen env env') = some s') :
    s'.Inv X group histories ∧ s'.topic.partitions.length = s.topic.partitions.length := by
  obtain ⟨hClean, hAlive, hQuiet⟩ := hAdmits
  obtain ⟨partitions, hMap, hCount, hAll⟩ := mapM_some_of_forall fun p partition hp =>
    (h.intact p partition hp).reopen hX hClean hAlive hQuiet
  obtain ⟨partitions₀, hMap₀, hRest⟩ := Option.bind_eq_some_iff.mp hStep
  obtain rfl : partitions₀ = partitions := Option.some.inj (hMap₀.symm.trans hMap)
  obtain rfl := Option.some.inj hRest
  have hTopic := h.topic (t := { s.topic with partitions := partitions₀ }) hAll hCount
    (fun p => ⟨[], (History.append_nil _).symm⟩) h.small
  exact ⟨hTopic.leave, hCount⟩

theorem Inv.step (hX : X.Lawful) (h : s.Inv X group histories)
    (hName : validateGroupName group = .ok ()) (hFits : s.topic.partitions.length < 2 ^ 32)
    {event : GroupEvent} (hAdmits : s.Admits X event) (hStep : s.step X group event = some s') :
    (∃ histories', s'.Inv X group histories') ∧
      s'.topic.partitions.length = s.topic.partitions.length := by
  cases event with
  | produce a =>
    obtain rfl := Option.some.inj hStep
    exact ⟨h.produce hX hAdmits, List.length_modify ..⟩
  | join =>
    obtain ⟨hInv, hTopic⟩ := h.join hName hFits hStep
    exact ⟨⟨histories, hInv⟩, by rw [hTopic]⟩
  | next envs =>
    obtain ⟨hInv, hCount⟩ := h.next hX hAdmits hStep
    exact ⟨⟨histories, hInv⟩, hCount⟩
  | commit pieces stop =>
    obtain ⟨hInv, hTopic⟩ := h.commit hStep
    exact ⟨⟨histories, hInv⟩, by rw [hTopic]⟩
  | leave =>
    obtain rfl := Option.some.inj hStep
    exact ⟨⟨histories, h.leave⟩, rfl⟩
  | reopen env env' =>
    obtain ⟨hInv, hCount⟩ := h.reopen hX hAdmits hStep
    exact ⟨⟨histories, hInv⟩, hCount⟩

theorem Inv.run (hX : X.Lawful) (h : s.Inv X group histories)
    (hName : validateGroupName group = .ok ()) (hFits : s.topic.partitions.length < 2 ^ 32)
    {events : List GroupEvent} (hWithin : s.RunsWithin X group events)
    (hRun : s.run X group events = some s') :
    (∃ histories', s'.Inv X group histories') ∧
      s'.topic.partitions.length = s.topic.partitions.length := by
  induction events generalizing s histories with
  | nil =>
    cases hRun
    exact ⟨⟨histories, h⟩, rfl⟩
  | cons event events ih =>
    obtain ⟨s₁, hStep, hRest⟩ := Option.bind_eq_some_iff.mp hRun
    obtain ⟨⟨histories₁, hInv⟩, hCount⟩ := h.step hX hName hFits hWithin.1 hStep
    obtain ⟨hEnd, hCount'⟩ := ih hInv (by rwa [hCount]) (hWithin.2 s₁ hStep) hRest
    exact ⟨hEnd, hCount'.trans hCount⟩

/-- A topic whose partitions are new. -/
def New (X : Crates) (t : Topic) : Prop :=
  ∀ partition ∈ t.partitions, partition.Intact X t.config History.empty

theorem inv_start {t : Topic} (hNew : New X t) :
    (start t).Inv X group fun _ => History.empty := by
  refine ⟨fun p partition hp => hNew partition (List.mem_of_getElem? hp),
    fun p _ => (by decide : 0 < 2 ^ 64), Desk.empty_sound, fun i => rfl, ?_,
    List.length_replicate, ?_, fun p => rfl, fun d hd => (List.not_mem_nil hd).elim,
    fun _ _ hNone => (by cases hNone), fun _ => rfl⟩
  · show List.replicate _ 0 = (List.replicate _ 0).map UInt64.ofNat
    rw [List.map_replicate]
    rfl
  · intro p
    show ((List.replicate _ 0)[p]?).getD 0 = 0
    rw [List.getElem?_replicate]
    split <;> rfl

/-- A group resumes where it committed last, across any number of restarts, and what its consumers
delivered up to their commits is a prefix of each partition. -/
theorem group_resumes (hX : X.Lawful) (hName : validateGroupName group = .ok ()) {t : Topic}
    (hNew : New X t) (hFits : t.partitions.length < 2 ^ 32) {events : List GroupEvent}
    (hWithin : (start t).RunsWithin X group events)
    (hRun : (start t).run X group events = some s) :
    (s.member = none → ∃ s' seat c, s.step X group .join = some s' ∧
      s'.member = some (seat, c) ∧ c.cursors = s.committed) ∧
    ∀ (p : Nat) (partition : OpenPartition), s.topic.partitions[p]? = some partition →
      offsetsOf p s.kept = List.range' 0 (offsetsOf p s.kept).length ∧
      startAt s.committed p = (offsetsOf p s.kept).length ∧
      ∀ d ∈ s.kept, d.1.partition = p → ∀ env, env.Quiet →
        (Log.readRecordAt X d.1.offset env partition.log partition.world).1 = .ok (some d.2) := by
  obtain ⟨⟨histories, hInv⟩, hCount⟩ := (inv_start hNew).run hX hName hFits hWithin hRun
  refine ⟨?_, ?_⟩
  · intro hAway
    have hSame : s.topic.partitions.length < 2 ^ 32 := by rwa [hCount]
    exact ⟨_, _, _, join_eq hInv hName hSame hAway, rfl, hInv.cursors_eq⟩
  · intro p partition hPartition
    refine ⟨hInv.consecutive.of_append p, hInv.committed p, ?_⟩
    intro d hd hEq env hEnv
    subst hEq
    obtain ⟨n, hRef⟩ := (hInv.intact _ partition hPartition).refines
    obtain ⟨_, _, hRead, -⟩ := read_quiet hEnv hRef d.1.offset
    have hOld : (histories d.1.partition).oldest ≤ d.1.offset := by
      rw [(hInv.intact _ partition hPartition).whole]
      exact Nat.zero_le _
    rw [hRead, History.get, if_pos hOld, (hInv.held d (List.mem_append_left _ hd)).2]

/-- A topic with two new partitions. -/
def twoPartitions : Option Topic :=
  match Log.open_ Crates.uncompressed smallSegments Env.quiet () ⟨Store.empty, 0⟩ with
  | (.ok log, _, w) => some ⟨smallSegments, [⟨log, w, none⟩, ⟨log, w, none⟩]⟩
  | _ => none

theorem new_twoPartitions {t : Topic} (h : twoPartitions = some t) :
    New Crates.uncompressed t ∧ t.partitions.length = 2 := by
  have hFresh : Fresh (Store.empty : Store FileName) := fun name => Store.get_empty name
  have hSpec : wp Env.quiet (Log.open_ Crates.uncompressed smallSegments)
      (Log.createPost Env.quiet smallSegments ()) () ⟨Store.empty, 0⟩ :=
    Log.open_fresh_spec hFresh smallSegments
  unfold twoPartitions at h
  split at h
  · next log st w hRun =>
    obtain rfl := Option.some.inj h
    obtain ⟨-, hConfig, hLive⟩ := ok_of_wp hSpec hRun
    refine ⟨?_, rfl⟩
    have hIntact : (⟨log, w, none⟩ : OpenPartition).Intact Crates.uncompressed smallSegments
        History.empty :=
      ⟨rfl, hConfig, rfl, 0, Layout.initial, hLive, Sound.initial _, ⟨rfl, rfl, rfl⟩,
        Nat.zero_le _⟩
    intro partition hMem
    simp only [List.mem_cons, List.not_mem_nil, or_false, or_self] at hMem
    rw [hMem]
    exact hIntact
  · cases h

/-- A record is read and committed before a restart. -/
def readCommitRestart : List GroupEvent :=
  [.produce ⟨1, .append (sampleRecord 1), Env.quiet⟩, .join, .next fun _ => Env.quiet,
    .commit [40] none, .reopen Env.quiet Env.quiet]

theorem runsWithin_readCommitRestart {t : Topic} (h : twoPartitions = some t) :
    (start t).RunsWithin Crates.uncompressed "g" readCommitRestart := by
  have hFits : (twoPartitions.map fun t => decide (∀ p ∈ t.partitions[1]?,
      LogOp.Admissible Crates.uncompressed p.log (.append (sampleRecord 1)) ∧
        p.log.nextOffset + 1 < 2 ^ 64)) = some true := by
    decide +kernel
  rw [h] at hFits
  have hQuiet : Clean (Env.quiet : Env FileName) ∧ (Env.quiet : Env FileName).Alive :=
    ⟨clean_of_quiet Env.quiet_quiet, Env.quiet_quiet.alive⟩
  refine ⟨⟨hQuiet.1, hQuiet.2, fun hEq => (by cases hEq),
    of_decide_eq_true (Option.some.inj hFits)⟩, ?_⟩
  intro s₁ _
  refine ⟨trivial, fun s₂ _ => ⟨fun _ => hQuiet, fun s₃ _ => ⟨trivial, fun s₄ _ => ⟨?_, ?_⟩⟩⟩⟩
  · exact ⟨hQuiet.1, hQuiet.2, Env.quiet_quiet⟩
  · exact fun _ _ => trivial

theorem group_resumes_after_restart : ∃ t s, twoPartitions = some t ∧
    (start t).run Crates.uncompressed "g" readCommitRestart = some s ∧ s.committed = [0, 1] ∧
    ∃ s' seat c, s.step Crates.uncompressed "g" .join = some s' ∧
      s'.member = some (seat, c) ∧ c.cursors = s.committed := by
  have hRuns : (twoPartitions.bind fun t => ((start t).run Crates.uncompressed "g"
      readCommitRestart).map fun s => (s.committed, s.member)) = some ([0, 1], none) := by
    decide +kernel
  obtain ⟨t, ht, hMap⟩ := Option.bind_eq_some_iff.mp hRuns
  obtain ⟨s, hRun, hEnd⟩ := Option.map_eq_some_iff.mp hMap
  obtain ⟨hCommitted, hAway⟩ := Prod.mk.inj hEnd
  obtain ⟨hNew, hCount⟩ := new_twoPartitions ht
  refine ⟨t, s, ht, hRun, hCommitted, ?_⟩
  exact (group_resumes Crates.lawful_uncompressed (by decide) hNew (by rw [hCount]; decide)
    (runsWithin_readCommitRestart ht) hRun).1 hAway

end GroupState

end Kafko
