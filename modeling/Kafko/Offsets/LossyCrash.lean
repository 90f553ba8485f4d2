import Kafko.Offsets.Resume

/-!
# A group after a crash that lost records

Commits are synced and records need not be, so a crash can leave a partition with fewer records
than a group has committed. The offsets between the recovered end of the log and the committed
offset are then given out again, to other records. A consumer that joins the group is clamped to
the high-water mark of the moment it joins, not of the recovery, and passes over as many of these
records as were appended in between.

A service is a topic with the offsets of its groups. Everything may happen to it: operations on
its partitions, steps of the commits of any group, shutdowns, and crashes between or inside
operations, also while the partitions are being recovered.
-/

namespace Kafko

open Disk

/-! ## Crashes -/

/-- Where the files of a partition stand when the machine stops: between two operations of its
writer or inside one. -/
inductive OpenPartition.Stops (X : Crates) (p : OpenPartition) : World FileName → Prop
  | between : Stops X p p.world
  | inside {env : Env FileName} {op : LogOp} {log : Log} {w : World FileName} (hEnv : Clean env)
      (hOp : op.Admissible X p.log) (hRun : op.exec X env p.log p.world = (.crash, log, w)) :
      Stops X p w

/-- A partition is opened on what a crash left of its files. The machine may stop again before it
is open. -/
inductive OpenPartition.Recovers (X : Crates) (config : LogConfig) :
    World FileName → OpenPartition → Prop
  | opened {env : Env FileName} {w w' : World FileName} {log : Log} (hEnv : Faultless env)
      (hRun : Log.open_ X config env () w = (.ok log, (), w')) : Recovers X config w ⟨log, w', none⟩
  | stopped {env : Env FileName} {w w' : World FileName} {d : Store FileName} {p : OpenPartition}
      (hEnv : Faultless env) (hRun : Log.open_ X config env () w = (.crash, (), w'))
      (hSurvives : w'.store.Survives d) (hAgain : Recovers X config ⟨d, w'.tick⟩ p) :
      Recovers X config w p

/-- One partition before a crash and after its recovery. -/
def OpenPartition.Crashes (X : Crates) (config : LogConfig) (p p' : OpenPartition) : Prop :=
  ∃ w d, p.Stops X w ∧ w.store.Survives d ∧ OpenPartition.Recovers X config ⟨d, w.tick⟩ p'

/-! ## The service -/

/-- A topic and the offsets of its groups. -/
structure Service where
  topic : Topic
  desk : Desk

inductive ServiceEvent
  /-- Anything a writer is asked to do. -/
  | perform (a : Activity)
  /-- A consumer opens the store of its group, or a commit takes a step. -/
  | offsets (event : DeskEvent)
  /-- The broker is shut down and opened again. -/
  | reopen (env env' : Env FileName)

/-- Failures leave no trace, and nothing stops the machine. -/
def ServiceEvent.Calm : ServiceEvent → Prop
  | .perform a => Clean a.env ∧ a.env.Alive
  | .offsets _ => True
  | .reopen env env' => Clean env ∧ env.Alive ∧ env'.Quiet

namespace Service

def start (t : Topic) : Service := ⟨t, Desk.empty⟩

def step (X : Crates) (s : Service) : ServiceEvent → Option Service
  | .perform a => some { s with topic := s.topic.perform X a }
  | .offsets event => do
    let desk ← s.desk.step X s.topic.partitions.length event
    pure { s with desk := desk }
  | .reopen env env' => do
    let partitions ← s.topic.partitions.mapM fun p => p.reopen X s.topic.config env env'
    pure { s with topic := { s.topic with partitions := partitions } }

def run (X : Crates) (s : Service) : List ServiceEvent → Option Service
  | [] => some s
  | event :: events => do
    let s' ← s.step X event
    s'.run X events

/-- Records keep within the limits of the format; the groups in use are `groups`, and each commits
once at a time. -/
def Fits (X : Crates) (groups : List String) (s : Service) : ServiceEvent → Prop
  | .perform a => ∀ p ∈ s.topic.partitions[a.partition]?, a.op.Admissible X p.log
  | .offsets (.open group) => group ∈ groups
  | .offsets (.crash _) => False
  | .offsets event => s.desk.StartsAlone event
  | .reopen _ _ => True

instance (X : Crates) (groups : List String) (s : Service) :
    (event : ServiceEvent) → Decidable (s.Fits X groups event)
  | .perform a =>
    inferInstanceAs (Decidable (∀ p ∈ s.topic.partitions[a.partition]?, a.op.Admissible X p.log))
  | .offsets (.open group) => inferInstanceAs (Decidable (group ∈ groups))
  | .offsets (.crash _) => inferInstanceAs (Decidable False)
  | .offsets (.create seat offsets) =>
    inferInstanceAs (Decidable (s.desk.StartsAlone (.create seat offsets)))
  | .offsets (.write seat n) => inferInstanceAs (Decidable (s.desk.StartsAlone (.write seat n)))
  | .offsets (.sync seat) => inferInstanceAs (Decidable (s.desk.StartsAlone (.sync seat)))
  | .offsets (.rename seat) => inferInstanceAs (Decidable (s.desk.StartsAlone (.rename seat)))
  | .offsets (.fail seat) => inferInstanceAs (Decidable (s.desk.StartsAlone (.fail seat)))
  | .reopen _ _ => inferInstanceAs (Decidable True)

/-- Every event of a run fits when its turn comes. -/
def FitsRun (X : Crates) (groups : List String) (s : Service) : List ServiceEvent → Prop
  | [] => True
  | event :: events => s.Fits X groups event ∧ ∀ s' ∈ s.step X event, FitsRun X groups s' events

instance decidableFitsRun (X : Crates) (groups : List String) (s : Service) :
    (events : List ServiceEvent) → Decidable (s.FitsRun X groups events)
  | [] => inferInstanceAs (Decidable True)
  | _ :: events =>
    have (s' : Service) := decidableFitsRun X groups s' events
    inferInstanceAs (Decidable (_ ∧ _))

/-- The machine stops, and the broker is opened on what is left. -/
structure Crashes (X : Crates) (s s' : Service) : Prop where
  config : s'.topic.config = s.topic.config
  partitions : List.Forall₂ (OpenPartition.Crashes X s.topic.config) s.topic.partitions
    s'.topic.partitions
  desk : ∃ kept, s.desk.step X s.topic.partitions.length (.crash kept) = some s'.desk

inductive Reachable (X : Crates) (groups : List String) (t : Topic) : Service → Prop
  | start : Reachable X groups t (start t)
  | step {s s' : Service} {event : ServiceEvent} (hReach : Reachable X groups t s)
      (hCalm : event.Calm) (hFits : s.Fits X groups event) (hStep : s.step X event = some s') :
      Reachable X groups t s'
  | crash {s s' : Service} (hReach : Reachable X groups t s) (hCrash : s.Crashes X s') :
      Reachable X groups t s'

/-- The records an event appends to a partition, if the append is acknowledged. -/
def appended (X : Crates) (p : Nat) (s : Service) : ServiceEvent → List Record
  | .perform a =>
    if a.partition = p then
      match s.topic.partitions[p]? with
      | some partition =>
        match (partition.perform X a.env a.op).1 with
        | .ok _ => a.op.records
        | .error _ => []
      | none => []
    else []
  | .offsets _ | .reopen _ _ => []

/-- The time until the group comes back: `rs` are the records appended to a partition. -/
inductive Meanwhile (X : Crates) (groups : List String) (group : String) (p : Nat) (s : Service) :
    List Record → Service → Prop
  | nothing : Meanwhile X groups group p s [] s
  | step {s₁ s₂ : Service} {rs : List Record} {event : ServiceEvent}
      (hBefore : Meanwhile X groups group p s rs s₁) (hCalm : event.Calm)
      (hFits : s₁.Fits X groups event) (hOther : event ≠ .offsets (.open group))
      (hStep : s₁.step X event = some s₂) :
      Meanwhile X groups group p s (rs ++ s₁.appended X p event) s₂

end Service

/-! ## The consumer that comes back -/

namespace Consumer

/-- A consumer at work, and what it has delivered. The writers serve others between its calls. -/
inductive Reading (X : Crates) (c₀ : Consumer) (t₀ : Topic) :
    Consumer → Topic → List (RecordPosition × Record) → Prop
  | start : Reading X c₀ t₀ c₀ t₀ []
  | perform {c : Consumer} {t : Topic} {ds : List (RecordPosition × Record)} {a : Activity}
      (hBefore : Reading X c₀ t₀ c t ds) (hClean : Clean a.env) (hAlive : a.env.Alive)
      (hOp : ∀ p ∈ t.partitions[a.partition]?, a.op.Admissible X p.log) :
      Reading X c₀ t₀ c (t.perform X a) ds
  | found {c : Consumer} {t : Topic} {ds : List (RecordPosition × Record)}
      {envs : Nat → Env FileName} {delivered : RecordPosition × Record}
      (hBefore : Reading X c₀ t₀ c t ds) (hEnvs : ∀ i, Clean (envs i) ∧ (envs i).Alive)
      (hResult : (c.tryTakeNext X envs (fun _ => []) t).result = .ok (some delivered)) :
      Reading X c₀ t₀ (c.tryTakeNext X envs (fun _ => []) t).consumer
        (c.tryTakeNext X envs (fun _ => []) t).topic (ds ++ [delivered])
  | missed {c : Consumer} {t : Topic} {ds : List (RecordPosition × Record)}
      {envs : Nat → Env FileName} (hBefore : Reading X c₀ t₀ c t ds)
      (hEnvs : ∀ i, Clean (envs i) ∧ (envs i).Alive)
      (hResult : ∀ delivered,
        (c.tryTakeNext X envs (fun _ => []) t).result ≠ .ok (some delivered)) :
      Reading X c₀ t₀ (c.tryTakeNext X envs (fun _ => []) t).consumer
        (c.tryTakeNext X envs (fun _ => []) t).topic ds

/-- The consumer passes over nothing from `mark` on. At any time its first cursor is at most
the offset of everything appended there, and each record the partition holds there has been
delivered or comes as the consumer reads on, unless retention has overtaken its cursor. -/
def SkipsNothing (X : Crates) (p mark : Nat) (c : Consumer) (t : Topic) : Prop :=
  ∀ c' t' ds partition, Reading X c t c' t' ds → t'.partitions[p]? = some partition →
    (∀ offset, mark ≤ offset → offset < partition.log.nextOffset → c.position p ≤ offset) ∧
    ∀ offset record, mark ≤ offset →
      (Log.readRecordAt X offset Env.quiet partition.log partition.world).1 = .ok (some record) →
      partition.log.oldestBase ≤ c'.position p →
      ∃ n, (⟨p, offset⟩, record) ∈ ds ++ takeAll X n c' t'

end Consumer

variable {X : Crates} {config : LogConfig} {h : History Record}

/-! ## Recovery -/

namespace OpenPartition

variable {p p' : OpenPartition}

theorem Serves.stops (hX : X.Lawful) (hp : p.Serves X config h) {w : World FileName}
    (hStops : p.Stops X w) : ∃ h' n, Recoverable X w.store h' n := by
  obtain ⟨n, hRef⟩ := hp.refines
  cases hStops with
  | between => exact ⟨h, n, hRef.disk⟩
  | inside hEnv hOp hRun =>
    have hSpec := exec_spec hX hEnv hRef hOp
    rw [wp, hRun] at hSpec
    obtain ⟨-, h', -, hRec⟩ := hSpec
    exact ⟨h', _, hRec⟩

theorem Recovers.serves {w : World FileName} (hRecovers : Recovers X config w p) {n : Nat}
    (hRec : Recoverable X w.store h n) (hRested : Rested w.store) :
    ∃ h', p.Serves X config h' := by
  induction hRecovers with
  | opened hEnv hRun =>
    obtain ⟨hConfig, -, -, hRef⟩ := ok_of_wp (open_recoverable hEnv.clean hRec hRested config) hRun
    exact ⟨_, rfl, hConfig, _, hRef⟩
  | stopped hEnv hRun hSurvives _ ih =>
    have hSpec := open_recoverable hEnv.clean hRec hRested config
    rw [wp, hRun] at hSpec
    exact ih (hSpec.2.crash hSurvives) (rested_of_crash hSurvives)

/-- A partition serves again after a crash, some history. -/
theorem Serves.crash (hX : X.Lawful) (hp : p.Serves X config h) (hCrash : p.Crashes X config p') :
    ∃ h', p'.Serves X config h' := by
  obtain ⟨w, d, hStops, hSurvives, hRecovers⟩ := hCrash
  obtain ⟨h', n, hRec⟩ := hp.stops hX hStops
  exact hRecovers.serves (hRec.crash hSurvives) (rested_of_crash hSurvives)

end OpenPartition

/-! ## Groups that are not there -/

/-- No store of the group is open. -/
def Desk.Without (group : String) (s : Desk) : Prop := ∀ seat ∈ s.seats, seat.store.group ≠ group

namespace Desk

variable {group : String} {s s' : Desk} {partitionCount : Nat}

theorem Without.idle (hs : s.Without group) {seat : Nat} {store : OffsetStore}
    (hStore : s.idle seat = some store) : store.group ≠ group :=
  hs _ (List.mem_of_getElem? (idle_eq_some.mp hStore))

theorem Without.busy (hs : s.Without group) {seat : Nat} {store : OffsetStore} {c : Commit}
    (hBusy : s.busy seat = some (store, c)) : store.group ≠ group :=
  hs _ (List.mem_of_getElem? (busy_eq_some.mp hBusy))

theorem Without.setSeat (hs : s.Without group) {t : Desk} (hSeats : t.seats = s.seats) {seat : Nat}
    {store : OffsetStore} {commit : Option Commit} (hStore : store.group ≠ group) :
    (t.setSeat seat store commit).Without group := by
  intro other hOther
  rcases List.mem_or_eq_of_mem_set hOther with hOld | rfl
  · rw [hSeats] at hOld
    exact hs other hOld
  · exact hStore

/-- What others do leaves a group alone. -/
theorem Without.step (hs : s.Without group) {event : DeskEvent} (hOther : event ≠ .open group)
    (hStep : s.step X partitionCount event = some s') :
    s'.Without group ∧ s'.lastCommitted group = s.lastCommitted group := by
  cases step_cases hStep with
  | opened hOpen =>
    refine ⟨?_, rfl⟩
    intro seat hSeat
    rcases List.mem_append.mp hSeat with hOld | hNew
    · exact hs seat hOld
    · rw [List.mem_singleton.mp hNew, OffsetStore.group_of_open hOpen]
      exact fun hEq => hOther (congrArg DeskEvent.open hEq)
  | refused => exact ⟨hs, rfl⟩
  | create hIdle hCount => exact ⟨hs.setSeat rfl (hs.idle hIdle), rfl⟩
  | write hBusy hOpen hChunk => exact ⟨hs.setSeat rfl (hs.busy hBusy), rfl⟩
  | sync hBusy hWhole => exact ⟨hs.setSeat rfl (hs.busy hBusy), rfl⟩
  | @renamed _ store c _ hBusy hSynced hRename =>
    have hGroup := hs.busy hBusy
    refine ⟨hs.setSeat rfl hGroup, ?_⟩
    show (List.find? _ ((store.group, c.offsets) :: s.completed)).map Prod.snd = _
    rw [List.find?_cons_of_neg (by simpa using hGroup)]
    rfl
  | unrenamed hBusy hRename => exact ⟨hs.setSeat rfl (hs.busy hBusy), rfl⟩
  | fail hBusy => exact ⟨hs.setSeat rfl (hs.busy hBusy), rfl⟩
  | crash kept => exact ⟨fun seat hSeat => (by cases hSeat), rfl⟩

end Desk

/-! ## What holds in every state -/

namespace Service

variable {groups : List String} {group : String} {t : Topic} {s s' s₀ s₁ s₂ : Service}

structure Inv (X : Crates) (groups : List String) (t : Topic) (s : Service) : Prop where
  count : s.topic.partitions.length = t.partitions.length
  serves : ∀ partition ∈ s.topic.partitions, ∃ h, partition.Serves X s.topic.config h
  sound : s.desk.Sound X t.partitions.length groups

theorem inv_start (hNew : GroupState.New X t) : (start t).Inv X groups t :=
  ⟨rfl, fun partition hMem => ⟨_, (hNew partition hMem).serves⟩, Desk.empty_sound⟩

/-- A partition after an operation. -/
theorem serves_perform (hX : X.Lawful) {partition : OpenPartition}
    (hServes : ∃ h, partition.Serves X config h) {a : Activity} (hClean : Clean a.env)
    (hAlive : a.env.Alive) (hOp : a.op.Admissible X partition.log) :
    (∃ h, (partition.perform X a.env a.op).2.Serves X config h) ∧
      (partition.perform X a.env a.op).2.log.nextOffset = partition.log.nextOffset +
        (match (partition.perform X a.env a.op).1 with
          | .ok _ => a.op.records
          | .error _ => []).length := by
  obtain ⟨h, hServes⟩ := hServes
  obtain ⟨h', hServes', ⟨reply, hReply, hAccepts⟩ | ⟨e, hError, hRejects⟩⟩ :=
    hServes.perform hX hClean hAlive hOp
  · refine ⟨⟨h', hServes'⟩, ?_⟩
    rw [hReply, hServes'.nextOffset, hServes.nextOffset, History.next, hAccepts.records,
      List.length_append]
    rfl
  · refine ⟨⟨h', hServes'⟩, ?_⟩
    rw [hError, hServes'.nextOffset, hServes.nextOffset, History.next, hRejects.records]
    rfl

theorem Inv.perform (hX : X.Lawful) (h : s.Inv X groups t) {a : Activity} (hClean : Clean a.env)
    (hAlive : a.env.Alive) (hOp : s.Fits X groups (.perform a)) :
    Inv X groups t { s with topic := s.topic.perform X a } := by
  cases hPartition : s.topic.partitions[a.partition]? with
  | none =>
    rw [Topic.perform_eq_self _ _ hPartition]
    exact h
  | some partition =>
    rw [Topic.perform_eq_setPartition _ _ hPartition]
    refine ⟨List.length_set.trans h.count, ?_, h.sound⟩
    intro partition' hMem
    rcases List.mem_or_eq_of_mem_set hMem with hOld | rfl
    · exact h.serves partition' hOld
    · exact (serves_perform hX (h.serves partition (List.mem_of_getElem? hPartition)) hClean hAlive
        (hOp partition hPartition)).1

theorem Inv.offsets (hApart : TempNamesApart groups) (h : s.Inv X groups t) {event : DeskEvent}
    (hFits : s.Fits X groups (.offsets event)) (hStep : s.step X (.offsets event) = some s') :
    s'.Inv X groups t := by
  obtain ⟨desk, hDesk, hRest⟩ := Option.bind_eq_some_iff.mp hStep
  obtain rfl := Option.some.inj hRest
  rw [h.count] at hDesk
  have hGroups : ∀ group, event = .open group → group ∈ groups := by
    rintro group rfl
    exact hFits
  have hAlone : s.desk.StartsAlone event := by
    cases event with
    | create seat offsets => exact hFits
    | _ => trivial
  exact ⟨h.count, h.serves, Desk.step_sound h.sound hApart hGroups hAlone hDesk⟩

/-- Two states of one partition that serve the same history. -/
def Continues (X : Crates) (config : LogConfig) (before : List OpenPartition) (q : Nat)
    (after : OpenPartition) : Prop :=
  ∃ partition h, before[q]? = some partition ∧ partition.Serves X config h ∧
    after.Serves X config h

/-- A restart changes no mark. -/
theorem Inv.reopen (hX : X.Lawful) (h : s.Inv X groups t) {env env' : Env FileName}
    (hCalm : (ServiceEvent.reopen env env').Calm) (hStep : s.step X (.reopen env env') = some s') :
    s'.Inv X groups t ∧ s'.desk = s.desk ∧
      ∀ (q : Nat) (partition : OpenPartition), s.topic.partitions[q]? = some partition →
        ∃ partition', s'.topic.partitions[q]? = some partition' ∧
          partition'.log.nextOffset = partition.log.nextOffset := by
  obtain ⟨hClean, hAlive, hQuiet⟩ := hCalm
  have hReopens : ∀ (q : Nat) (partition : OpenPartition),
      s.topic.partitions[q]? = some partition →
      ∃ partition', partition.reopen X s.topic.config env env' = some partition' ∧
        Continues X s.topic.config s.topic.partitions q partition' := by
    intro q partition hq
    obtain ⟨h₀, hServes⟩ := h.serves partition (List.mem_of_getElem? hq)
    obtain ⟨partition', hReopen, hServes'⟩ := hServes.reopen hX hClean hAlive hQuiet
    exact ⟨partition', hReopen, partition, h₀, hq, hServes, hServes'⟩
  obtain ⟨partitions, hMap, hCount, hAll⟩ := mapM_some_of_forall hReopens
  obtain ⟨partitions₀, hMap₀, hRest⟩ := Option.bind_eq_some_iff.mp hStep
  obtain rfl : partitions₀ = partitions := Option.some.inj (hMap₀.symm.trans hMap)
  obtain rfl := Option.some.inj hRest
  refine ⟨⟨hCount.trans h.count, ?_, h.sound⟩, rfl, ?_⟩
  · intro partition' hMem
    obtain ⟨q, hq⟩ := List.mem_iff_getElem?.mp hMem
    obtain ⟨_, h₀, -, -, hServes'⟩ := hAll q partition' hq
    exact ⟨h₀, hServes'⟩
  · intro q partition hq
    have hLt : q < partitions₀.length := by
      rw [hCount]
      exact (List.getElem?_eq_some_iff.mp hq).1
    have hq' : partitions₀[q]? = some partitions₀[q] := List.getElem?_eq_getElem hLt
    obtain ⟨partition₁, h₀, hq₁, hServes, hServes'⟩ := hAll q _ hq'
    obtain rfl : partition = partition₁ := Option.some.inj (hq.symm.trans hq₁)
    exact ⟨_, hq', hServes'.nextOffset.trans hServes.nextOffset.symm⟩

/-- After a crash no store is open, and every commit is still there. -/
theorem Crashes.without (hCrash : s.Crashes X s') (group : String) :
    s'.desk.Without group ∧ s'.desk.lastCommitted group = s.desk.lastCommitted group := by
  obtain ⟨kept, hDesk⟩ := hCrash.desk
  rw [← Option.some.inj hDesk]
  exact ⟨fun seat hSeat => (by cases hSeat), rfl⟩

theorem Inv.crash (hX : X.Lawful) (h : s.Inv X groups t) (hCrash : s.Crashes X s') :
    s'.Inv X groups t := by
  refine ⟨hCrash.partitions.length_eq.symm.trans h.count, ?_, ?_⟩
  · intro partition' hMem
    rw [hCrash.config]
    obtain ⟨i, hi, rfl⟩ := List.mem_iff_getElem.mp hMem
    have hLt : i < s.topic.partitions.length := by
      rw [hCrash.partitions.length_eq]
      exact hi
    obtain ⟨h₀, hServes⟩ := h.serves _ (List.getElem_mem hLt)
    exact hServes.crash hX (hCrash.partitions.get hLt hi)
  · obtain ⟨kept, hDesk⟩ := hCrash.desk
    rw [← Option.some.inj hDesk]
    exact Desk.crash_sound h.sound kept

theorem Inv.step (hX : X.Lawful) (hApart : TempNamesApart groups) (h : s.Inv X groups t)
    {event : ServiceEvent} (hCalm : event.Calm) (hFits : s.Fits X groups event)
    (hStep : s.step X event = some s') : s'.Inv X groups t := by
  cases event with
  | perform a =>
    cases hStep
    exact h.perform hX hCalm.1 hCalm.2 hFits
  | offsets event => exact h.offsets hApart hFits hStep
  | reopen env env' => exact (h.reopen hX hCalm hStep).1

theorem Reachable.inv (hX : X.Lawful) (hApart : TempNamesApart groups)
    (hNew : GroupState.New X t) (hReach : Reachable X groups t s) : s.Inv X groups t := by
  induction hReach with
  | start => exact inv_start hNew
  | step _ hCalm hFits hStep ih => exact ih.step hX hApart hCalm hFits hStep
  | crash _ hCrash ih => exact ih.crash hX hCrash

/-! ## Between the recovery and the return -/

/-- What the time until the group comes back does: its commit stays, and the mark of the partition
rises by the records appended. -/
structure Awaits (X : Crates) (groups : List String) (group : String) (t : Topic) (p : Nat)
    (s : Service) (rs : List Record) (s' : Service) : Prop where
  inv : s'.Inv X groups t
  without : s'.desk.Without group
  committed : s'.desk.lastCommitted group = s.desk.lastCommitted group
  mark : ∀ partition, s.topic.partitions[p]? = some partition →
    ∃ partition', s'.topic.partitions[p]? = some partition' ∧
      partition'.log.nextOffset = partition.log.nextOffset + rs.length

/-- The mark of a partition rises by what is appended to it. -/
theorem mark_perform (hX : X.Lawful) (h : s.Inv X groups t) {a : Activity}
    (hClean : Clean a.env) (hAlive : a.env.Alive) (hOp : s.Fits X groups (.perform a)) {p : Nat}
    {partition : OpenPartition} (hPartition : s.topic.partitions[p]? = some partition) :
    ∃ partition', (s.topic.perform X a).partitions[p]? = some partition' ∧
      partition'.log.nextOffset = partition.log.nextOffset +
        (s.appended X p (.perform a)).length := by
  unfold Topic.perform appended
  dsimp only
  rw [List.getElem?_modify, hPartition, Option.map_eq_map, Option.map_some]
  by_cases hEq : a.partition = p
  · rw [if_pos hEq, if_pos hEq]
    rw [Fits, hEq] at hOp
    exact ⟨_, rfl, (serves_perform hX (h.serves partition (List.mem_of_getElem? hPartition)) hClean
      hAlive (hOp partition hPartition)).2⟩
  · rw [if_neg hEq, if_neg hEq]
    exact ⟨_, rfl, rfl⟩

theorem Awaits.step (hX : X.Lawful) (hApart : TempNamesApart groups) {p : Nat} {rs : List Record}
    (h : Awaits X groups group t p s rs s₁) {event : ServiceEvent}
    (hCalm : event.Calm) (hFits : s₁.Fits X groups event)
    (hOther : event ≠ .offsets (.open group)) (hStep : s₁.step X event = some s₂) :
    Awaits X groups group t p s (rs ++ s₁.appended X p event) s₂ := by
  have hInv := h.inv.step hX hApart hCalm hFits hStep
  cases event with
  | perform a =>
    obtain rfl := Option.some.inj hStep
    refine ⟨hInv, h.without, h.committed, ?_⟩
    intro partition hPartition
    obtain ⟨partition₁, hPartition₁, hMark₁⟩ := h.mark partition hPartition
    obtain ⟨partition₂, hPartition₂, hMark₂⟩ := mark_perform hX h.inv hCalm.1 hCalm.2 hFits
      hPartition₁
    refine ⟨partition₂, hPartition₂, ?_⟩
    rw [hMark₂, hMark₁, List.length_append, Nat.add_assoc]
  | offsets event =>
    obtain ⟨desk, hDesk, hRest⟩ := Option.bind_eq_some_iff.mp hStep
    obtain rfl := Option.some.inj hRest
    obtain ⟨hWithout, hCommitted⟩ := h.without.step (fun hEq => hOther (by rw [hEq])) hDesk
    refine ⟨hInv, hWithout, hCommitted.trans h.committed, ?_⟩
    rw [appended, List.append_nil]
    exact h.mark
  | reopen env env' =>
    obtain ⟨-, hDesk, hMarks⟩ := h.inv.reopen hX hCalm hStep
    refine ⟨hInv, ?_, ?_, ?_⟩
    · rw [hDesk]
      exact h.without
    · rw [hDesk]
      exact h.committed
    · rw [appended, List.append_nil]
      intro partition hPartition
      obtain ⟨partition₁, hPartition₁, hMark₁⟩ := h.mark partition hPartition
      obtain ⟨partition₂, hPartition₂, hMark₂⟩ := hMarks p partition₁ hPartition₁
      exact ⟨partition₂, hPartition₂, hMark₂.trans hMark₁⟩

theorem Meanwhile.awaits (hX : X.Lawful) (hApart : TempNamesApart groups) (hInv : s.Inv X groups t)
    (hWithout : s.desk.Without group) {p : Nat} {rs : List Record}
    (hMeanwhile : Meanwhile X groups group p s rs s') : Awaits X groups group t p s rs s' := by
  induction hMeanwhile with
  | nothing => exact ⟨hInv, hWithout, rfl, fun partition hPartition => ⟨partition, hPartition, rfl⟩⟩
  | step _ hCalm hFits hOther hStep ih => exact ih.step hX hApart hCalm hFits hOther hStep

end Service

/-! ## What the consumer reads -/

namespace Consumer

variable {c₀ c : Consumer} {t₀ t : Topic} {ds : List (RecordPosition × Record)}
  {histories : Nat → History Record}

/-- What a consumer has delivered: from each partition the records from its first cursor up to its
cursor. -/
structure Reads (X : Crates) (histories : Nat → History Record) (c₀ c : Consumer) (t : Topic)
    (ds : List (RecordPosition × Record)) : Prop where
  serves : t.Serves X histories
  sized : c.cursors.length = t.partitions.length
  consecutive : Consecutive c₀.cursors ds
  position : ∀ p, c.position p = c₀.position p + (offsetsOf p ds).length
  held : ∀ d ∈ ds, (histories d.1.partition).records[d.1.offset]? = some d.2

/-- Every partition of a topic serves some history. -/
theorem exists_histories (h : ∀ partition ∈ t.partitions, ∃ h, partition.Serves X t.config h) :
    ∃ histories, t.Serves X histories := by
  have hAll : ∀ p : Nat, ∃ h, ∀ partition : OpenPartition, t.partitions[p]? = some partition →
      partition.Serves X t.config h := by
    intro p
    cases hPartition : t.partitions[p]? with
    | none => exact ⟨History.empty, fun _ hNone => by cases hNone⟩
    | some partition =>
      obtain ⟨h', hServes⟩ := h partition (List.mem_of_getElem? hPartition)
      refine ⟨h', ?_⟩
      intro partition' hSome
      cases hSome
      exact hServes
  choose histories hServes using hAll
  exact ⟨histories, hServes⟩

theorem Reads.perform (hX : X.Lawful) (h : Reads X histories c₀ c t ds) {a : Activity}
    (hClean : Clean a.env) (hAlive : a.env.Alive)
    (hOp : ∀ p ∈ t.partitions[a.partition]?, a.op.Admissible X p.log) :
    ∃ histories', Reads X histories' c₀ c (t.perform X a) ds := by
  cases hPartition : t.partitions[a.partition]? with
  | none =>
    rw [Topic.perform_eq_self _ _ hPartition]
    exact ⟨histories, h⟩
  | some partition =>
    obtain ⟨h', hServes, hAnswer⟩ := (h.serves _ partition hPartition).perform hX hClean hAlive
      (hOp partition hPartition)
    have hGrown : ∃ added, h'.records = (histories a.partition).records ++ added := by
      rcases hAnswer with ⟨reply, -, hAccepts⟩ | ⟨e, -, hRejects⟩
      · exact ⟨_, hAccepts.records⟩
      · exact ⟨[], by rw [hRejects.records, List.append_nil]⟩
    rw [Topic.perform_eq_setPartition _ _ hPartition]
    refine ⟨_, h.serves.set hServes, h.sized.trans List.length_set.symm, h.consecutive, h.position,
      ?_⟩
    intro d hd
    have hOld := h.held d hd
    by_cases hEq : d.1.partition = a.partition
    · rw [hEq] at hOld
      obtain ⟨added, hAdded⟩ := hGrown
      rw [hEq, Function.update_self, hAdded,
        List.getElem?_append_left (List.getElem?_eq_some_iff.mp hOld).1]
      exact hOld
    · rw [Function.update_of_ne hEq]
      exact hOld

theorem Reads.found (h : Reads X histories c₀ c t ds) {scan : Scan}
    (hLooked : Looked X histories c t scan) {delivered : RecordPosition × Record}
    (hResult : scan.result = .ok (some delivered)) :
    Reads X histories c₀ scan.consumer scan.topic (ds ++ [delivered]) := by
  obtain ⟨p, hp, hAt, hGet, hCursors⟩ := hLooked.found delivered hResult
  obtain ⟨position, record⟩ := delivered
  obtain rfl : position = ⟨p, c.position p⟩ := hAt
  have hLt : p < c.cursors.length := by rwa [h.sized]
  refine ⟨hLooked.serves, ?_, ?_, ?_, ?_⟩
  · rw [hCursors, List.length_set, h.sized, hLooked.count]
  · exact h.consecutive.concat (h.position p) record
  · exact position_concat hLt hCursors h.position record
  · intro d hd
    rcases List.mem_append.mp hd with hOld | hNew
    · exact h.held d hOld
    · rw [List.mem_singleton.mp hNew]
      unfold History.get at hGet
      split at hGet
      · exact hGet
      · cases hGet

theorem Reading.reads (hX : X.Lawful) (hServes : t₀.Serves X histories)
    (hSized : c₀.cursors.length = t₀.partitions.length) (hReading : Reading X c₀ t₀ c t ds) :
    ∃ histories', Reads X histories' c₀ c t ds := by
  induction hReading with
  | start => exact ⟨histories, hServes, hSized, fun p => rfl, fun p => rfl,
      fun d hd => (by cases hd)⟩
  | perform _ hClean hAlive hOp ih =>
    obtain ⟨_, hReads⟩ := ih
    exact hReads.perform hX hClean hAlive hOp
  | found _ hEnvs hResult ih =>
    obtain ⟨histories', hReads⟩ := ih
    exact ⟨histories', hReads.found (tryTakeNext_looked hX hEnvs hReads.serves) hResult⟩
  | @missed c _ _ _ _ hEnvs hResult ih =>
    obtain ⟨histories', hReads⟩ := ih
    have hLooked := tryTakeNext_looked (c := c) hX hEnvs hReads.serves
    rw [hLooked.same hResult]
    exact ⟨histories', hLooked.serves, hReads.sized.trans hLooked.count.symm, hReads.consecutive,
      hReads.position, hReads.held⟩

/-- Nothing below the first cursor is delivered. -/
theorem Reads.le (h : Reads X histories c₀ c t ds) {d : RecordPosition × Record} (hd : d ∈ ds) :
    c₀.position d.1.partition ≤ d.1.offset := by
  have hMem : d.1.offset ∈ offsetsOf d.1.partition ds :=
    List.mem_map.mpr ⟨d, List.mem_filter.mpr ⟨hd, decide_eq_true rfl⟩, rfl⟩
  rw [h.consecutive d.1.partition, List.mem_range'_1] at hMem
  exact hMem.1

/-- What was read from a partition, or comes as the consumer reads on. -/
theorem Reads.delivers (hX : X.Lawful) (h : Reads X histories c₀ c t ds) {p offset : Nat}
    {record : Record} (hp : p < t.partitions.length) (hOldest : (histories p).oldest ≤ c.position p)
    (hStart : c₀.position p ≤ offset) (hRecord : (histories p).records[offset]? = some record) :
    ∃ n, (⟨p, offset⟩, record) ∈ ds ++ takeAll X n c t := by
  by_cases hDone : offset < c.position p
  · have hMem : offset ∈ offsetsOf p ds := by
      rw [h.consecutive p, List.mem_range'_1]
      refine ⟨hStart, ?_⟩
      rw [h.position p] at hDone
      exact hDone
    obtain ⟨⟨⟨p', offset'⟩, record'⟩, hd, hOffset⟩ := List.mem_map.mp hMem
    obtain ⟨hIn, hSame⟩ := List.mem_filter.mp hd
    obtain rfl : p' = p := of_decide_eq_true hSame
    obtain rfl : offset' = offset := hOffset
    have hHeld := h.held _ hIn
    obtain rfl : record' = record := Option.some.inj (hHeld.symm.trans hRecord)
    exact ⟨0, List.mem_append_left _ hIn⟩
  · obtain ⟨n, hn⟩ := takeAll_complete hX h.serves h.sized hp hOldest (Nat.le_of_not_lt hDone)
      hRecord
    exact ⟨n, List.mem_append_right _ hn⟩

/-- A consumer whose cursor is at most `mark` passes over nothing from `mark` on. -/
theorem skipsNothing_of_le (hX : X.Lawful)
    (hServes : ∀ partition ∈ t.partitions, ∃ h, partition.Serves X t.config h)
    (hSized : c.cursors.length = t.partitions.length) {p mark : Nat} (hLe : c.position p ≤ mark) :
    c.SkipsNothing X p mark t := by
  obtain ⟨histories, hTopic⟩ := exists_histories hServes
  intro c' t' ds partition hReading hPartition
  obtain ⟨histories', hReads⟩ := hReading.reads hX hTopic hSized
  refine ⟨fun offset hOffset _ => hLe.trans hOffset, ?_⟩
  intro offset record hOffset hRead hOldest
  have hPartitionServes := hReads.serves p partition hPartition
  obtain ⟨n, hRef⟩ := hPartitionServes.refines
  obtain ⟨_, _, hRun, -⟩ := read_quiet Env.quiet_quiet hRef offset
  rw [hRun] at hRead
  have hGet : (histories' p).get offset = some record := by
    injection hRead
  have hRecord : (histories' p).records[offset]? = some record := by
    unfold History.get at hGet
    split at hGet
    · exact hGet
    · cases hGet
  rw [hPartitionServes.oldestBase] at hOldest
  exact hReads.delivers hX (List.getElem?_eq_some_iff.mp hPartition).1 hOldest
    (hLe.trans hOffset) hRecord

end Consumer

namespace Service

variable {groups : List String} {group : String} {t : Topic} {s₀ s₁ s₂ : Service}

theorem position_fromTopicWithGroup {t : Topic} {store : OffsetStore} {p : Nat}
    {partition : OpenPartition} (hPartition : t.partitions[p]? = some partition) {c : UInt64}
    (hCommitted : store.committed[p]? = some c) :
    (Consumer.fromTopicWithGroup t store).position p = min c.toNat partition.log.nextOffset := by
  unfold Consumer.fromTopicWithGroup Consumer.position
  rw [List.getElem?_mapIdx, hPartition, Option.map_some, hCommitted]
  rfl

/-- After a crash has left a partition with fewer records than a group has committed, the group
passes over nothing exactly if nothing is appended to the partition before it comes back. -/
theorem returning_group_skips_nothing_iff (hX : X.Lawful) (hApart : TempNamesApart groups)
    (hGroup : group ∈ groups) (hName : validateGroupName group = .ok ())
    (hNew : GroupState.New X t) (hFits : t.partitions.length < 2 ^ 32)
    (hReach : Reachable X groups t s₀) {offsets : List UInt64}
    (hCommit : s₀.desk.lastCommitted group = some offsets) {p : Nat} {c : UInt64}
    (hOffset : offsets[p]? = some c) (hCrash : s₀.Crashes X s₁) {recovered : OpenPartition}
    (hRecovered : s₁.topic.partitions[p]? = some recovered)
    (hLost : recovered.log.nextOffset < c.toNat) {rs : List Record}
    (hMeanwhile : Meanwhile X groups group p s₁ rs s₂) :
    ∃ store, OffsetStore.open X s₂.desk.dir group s₂.topic.partitions.length = .ok store ∧
      ((Consumer.fromTopicWithGroup s₂.topic store).SkipsNothing X p recovered.log.nextOffset
        s₂.topic ↔ rs = []) := by
  have hInv₁ := (hReach.inv hX hApart hNew).crash hX hCrash
  obtain ⟨hWithout, hKept⟩ := hCrash.without group
  have hAwaits := hMeanwhile.awaits hX hApart hInv₁ hWithout
  have hLast : s₂.desk.lastCommitted group = some offsets :=
    (hAwaits.committed.trans hKept).trans hCommit
  have hOpen := (hAwaits.inv.sound.files group hGroup).open hName hFits
  rw [hLast, Option.getD_some, ← hAwaits.inv.count] at hOpen
  refine ⟨_, hOpen, ?_⟩
  obtain ⟨partition, hPartition, hMark⟩ := hAwaits.mark recovered hRecovered
  have hPosition : (Consumer.fromTopicWithGroup s₂.topic ⟨group, offsets⟩).position p =
      min c.toNat (recovered.log.nextOffset + rs.length) := by
    rw [← hMark]
    exact position_fromTopicWithGroup hPartition hOffset
  constructor
  · intro hSkips
    by_contra hSome
    -- the first of the new records stands where the recovered log ended
    have hLen := List.length_pos_iff.mpr hSome
    have hLe := (hSkips _ _ _ partition Consumer.Reading.start hPartition).1
      recovered.log.nextOffset (Nat.le_refl _) (by omega)
    omega
  · rintro rfl
    apply Consumer.skipsNothing_of_le hX hAwaits.inv.serves
    · exact List.length_mapIdx
    · rw [hPosition]
      exact Nat.min_le_right _ _

/-! ## A crash that loses two records -/

/-- The machine stops between two operations and takes everything that is not synced. -/
def loseUnsynced (X : Crates) (s : Service) : Option Service := do
  let partitions ← s.topic.partitions.mapM fun p =>
    match Log.open_ X s.topic.config Env.quiet ()
        ⟨p.world.store.mapFiles File.lost, p.world.tick⟩ with
    | (.ok log, _, w) => some (⟨log, w, none⟩ : OpenPartition)
    | _ => none
  let desk ← s.desk.step X s.topic.partitions.length (.crash fun _ => 0)
  pure ⟨{ s.topic with partitions := partitions }, desk⟩

theorem forall₂_of_mapM {α β : Type} {f : α → Option β} {xs : List α} {ys : List β}
    (h : xs.mapM f = some ys) : List.Forall₂ (fun x y => f x = some y) xs ys := by
  induction xs generalizing ys with
  | nil =>
    cases h
    exact List.Forall₂.nil
  | cons x xs ih =>
    rw [List.mapM_cons] at h
    obtain ⟨y, hFirst, hRest⟩ := Option.bind_eq_some_iff.mp h
    obtain ⟨ys', hRest', hEq⟩ := Option.bind_eq_some_iff.mp hRest
    cases hEq
    exact List.Forall₂.cons hFirst (ih hRest')

theorem crashes_of_loseUnsynced (h : s₀.loseUnsynced X = some s₁) : s₀.Crashes X s₁ := by
  obtain ⟨partitions, hMap, hRest⟩ := Option.bind_eq_some_iff.mp h
  obtain ⟨desk, hDesk, hEnd⟩ := Option.bind_eq_some_iff.mp hRest
  cases hEnd
  refine ⟨rfl, (forall₂_of_mapM hMap).imp ?_, _, hDesk⟩
  intro p p' hOpened
  split at hOpened
  · next log _ w hRun =>
    cases hOpened
    exact ⟨_, _, OpenPartition.Stops.between, Store.survives_mapFiles File.survives_lost _,
      OpenPartition.Recovers.opened (fun _ _ => Or.inl rfl) hRun⟩
  · cases hOpened

theorem Reachable.run (hReach : Reachable X groups t s₀) {events : List ServiceEvent}
    (hCalm : ∀ event ∈ events, event.Calm) (hFits : s₀.FitsRun X groups events)
    (hRun : s₀.run X events = some s₁) : Reachable X groups t s₁ := by
  induction events generalizing s₀ with
  | nil =>
    cases hRun
    exact hReach
  | cons event events ih =>
    obtain ⟨s, hStep, hRest⟩ := Option.bind_eq_some_iff.mp hRun
    exact ih (hReach.step (hCalm event List.mem_cons_self) hFits.1 hStep)
      (fun e he => hCalm e (List.mem_cons_of_mem _ he)) (hFits.2 s hStep) hRest

/-- Two records are appended, and a group commits that it has read them. -/
def appendTwoCommitTwo : List ServiceEvent :=
  [.perform ⟨1, .appendBatch [sampleRecord 1, sampleRecord 2], Env.quiet⟩, .offsets (.open "g"),
    .offsets (.create 0 [0, 2]), .offsets (.write 0 40), .offsets (.sync 0), .offsets (.rename 0)]

def appendThird : ServiceEvent := .perform ⟨1, .append (sampleRecord 3), Env.quiet⟩

/-- The marks after the crash and the cursors of the consumer that joins later. -/
def afterLosingTwo : Option (List Nat × List Nat) := do
  let t ← GroupState.twoPartitions
  let s₀ ← (start t).run Crates.uncompressed appendTwoCommitTwo
  let s₁ ← s₀.loseUnsynced Crates.uncompressed
  let s₂ ← s₁.step Crates.uncompressed appendThird
  match OffsetStore.open Crates.uncompressed s₂.desk.dir "g" 2 with
  | .ok store =>
    guard ((start t).FitsRun Crates.uncompressed ["g"] appendTwoCommitTwo ∧
      s₀.desk.lastCommitted "g" = some [0, 2] ∧ s₁.Fits Crates.uncompressed ["g"] appendThird ∧
      s₁.appended Crates.uncompressed 1 appendThird = [sampleRecord 3])
    pure (s₁.topic.partitions.map fun p => p.log.nextOffset,
      (Consumer.fromTopicWithGroup s₂.topic store).cursors)
  | _ => none

/-- The two records are lost, the commit is not, and the next record gets an offset below it. -/
theorem exists_lossy_crash : ∃ t s₀ s₁ s₂ recovered store,
    GroupState.New Crates.uncompressed t ∧ t.partitions.length = 2 ∧
      Reachable Crates.uncompressed ["g"] t s₀ ∧ s₀.desk.lastCommitted "g" = some [0, 2] ∧
      s₀.Crashes Crates.uncompressed s₁ ∧ s₁.topic.partitions[1]? = some recovered ∧
      recovered.log.nextOffset = 0 ∧
      Meanwhile Crates.uncompressed ["g"] "g" 1 s₁ [sampleRecord 3] s₂ ∧
      OffsetStore.open Crates.uncompressed s₂.desk.dir "g" 2 = .ok store ∧
      (Consumer.fromTopicWithGroup s₂.topic store).cursors = [0, 1] := by
  have hRuns : afterLosingTwo = some ([0, 0], [0, 1]) := by decide +kernel
  unfold afterLosingTwo at hRuns
  simp only [Option.bind_eq_bind, Option.bind_eq_some_iff] at hRuns
  obtain ⟨t, ht, s₀, hRun, s₁, hCrash, s₂, hStep, hRest⟩ := hRuns
  split at hRest
  · next store hOpen =>
    simp only [Option.bind_eq_some_iff, Option.guard_eq_some', Option.pure_def, Option.some.injEq,
      Prod.mk.injEq] at hRest
    obtain ⟨-, ⟨hFits, hLast, hThird, hAppended⟩, hMarks, hCursors⟩ := hRest
    obtain ⟨hNew, hCount⟩ := GroupState.new_twoPartitions ht
    obtain ⟨recovered, hRecovered, hMark⟩ : ∃ recovered,
        s₁.topic.partitions[1]? = some recovered ∧ recovered.log.nextOffset = 0 := by
      have hAt : (s₁.topic.partitions.map fun p => p.log.nextOffset)[1]? = some 0 := by
        rw [hMarks]
        rfl
      rw [List.getElem?_map] at hAt
      exact Option.map_eq_some_iff.mp hAt
    have hQuiet : Clean (Env.quiet : Env FileName) ∧ (Env.quiet : Env FileName).Alive :=
      ⟨clean_of_quiet Env.quiet_quiet, Env.quiet_quiet.alive⟩
    have hCalm : ∀ event ∈ appendTwoCommitTwo, event.Calm := by
      intro event hMem
      simp only [appendTwoCommitTwo, List.mem_cons, List.not_mem_nil, or_false] at hMem
      rcases hMem with rfl | rfl | rfl | rfl | rfl | rfl
      · exact hQuiet
      all_goals trivial
    have hMeanwhile : Meanwhile Crates.uncompressed ["g"] "g" 1 s₁
        ([] ++ s₁.appended Crates.uncompressed 1 appendThird) s₂ :=
      Meanwhile.nothing.step hQuiet hThird (fun hEq => by cases hEq) hStep
    rw [hAppended, List.nil_append] at hMeanwhile
    exact ⟨t, s₀, s₁, s₂, recovered, store, hNew, hCount,
      Reachable.start.run hCalm hFits hRun, hLast, crashes_of_loseUnsynced hCrash, hRecovered,
      hMark, hMeanwhile, hOpen, hCursors⟩
  · cases hRest

/-- The group comes back right after the recovery. -/
theorem returning_group_skips_nothing_at_once : ∃ (s : Service) (store : OffsetStore),
    OffsetStore.open Crates.uncompressed s.desk.dir "g" s.topic.partitions.length = .ok store ∧
      (Consumer.fromTopicWithGroup s.topic store).SkipsNothing Crates.uncompressed 1 0 s.topic := by
  obtain ⟨t, s₀, s₁, -, recovered, -, hNew, hCount, hReach, hLast, hCrash, hRecovered, hMark, -⟩ :=
    exists_lossy_crash
  have hFits : t.partitions.length < 2 ^ 32 := by
    rw [hCount]
    decide
  have hLost : recovered.log.nextOffset < (2 : UInt64).toNat := by
    rw [hMark]
    decide
  obtain ⟨store, hOpen, hIff⟩ := returning_group_skips_nothing_iff Crates.lawful_uncompressed
    (by decide) List.mem_cons_self (by decide) hNew hFits hReach hLast (p := 1) rfl hCrash
    hRecovered hLost Meanwhile.nothing
  rw [hMark] at hIff
  exact ⟨s₁, store, hOpen, hIff.mpr rfl⟩

/-- One record is appended before the group comes back, and no consumer that resumes from the
commit delivers it. -/
theorem returning_group_skips_a_record : ∃ t s₀ s₁ s₂ recovered store,
    GroupState.New Crates.uncompressed t ∧
      Reachable Crates.uncompressed ["g"] t s₀ ∧ s₀.desk.lastCommitted "g" = some [0, 2] ∧
      s₀.Crashes Crates.uncompressed s₁ ∧ s₁.topic.partitions[1]? = some recovered ∧
      recovered.log.nextOffset = 0 ∧
      Meanwhile Crates.uncompressed ["g"] "g" 1 s₁ [sampleRecord 3] s₂ ∧
      OffsetStore.open Crates.uncompressed s₂.desk.dir "g" 2 = .ok store ∧
      ¬ (Consumer.fromTopicWithGroup s₂.topic store).SkipsNothing Crates.uncompressed 1
        recovered.log.nextOffset s₂.topic ∧
      ∀ c t' ds, Consumer.Reading Crates.uncompressed
          (Consumer.fromTopicWithGroup s₂.topic store) s₂.topic c t' ds →
        ∀ d ∈ ds, d.1 ≠ ⟨1, 0⟩ := by
  obtain ⟨t, s₀, s₁, s₂, recovered, store, hNew, hCount, hReach, hLast, hCrash, hRecovered, hMark,
    hMeanwhile, hOpen, hCursors⟩ := exists_lossy_crash
  have hX := Crates.lawful_uncompressed
  have hApart : TempNamesApart ["g"] := by decide
  have hInv₁ := (hReach.inv hX hApart hNew).crash hX hCrash
  have hAwaits := hMeanwhile.awaits hX hApart hInv₁ (hCrash.without "g").1
  obtain ⟨partition, hPartition, hNext⟩ := hAwaits.mark recovered hRecovered
  have hPosition : (Consumer.fromTopicWithGroup s₂.topic store).position 1 = 1 := by
    rw [Consumer.position, hCursors]
    rfl
  refine ⟨t, s₀, s₁, s₂, recovered, store, hNew, hReach, hLast, hCrash, hRecovered, hMark,
    hMeanwhile, hOpen, ?_, ?_⟩
  · intro hSkips
    have hLe := (hSkips _ _ _ partition Consumer.Reading.start hPartition).1 0
      (Nat.le_of_eq hMark) (by rw [hNext]; exact Nat.succ_pos _)
    omega
  · intro c t' ds hReading d hd hEq
    obtain ⟨histories, hTopic⟩ := Consumer.exists_histories hAwaits.inv.serves
    obtain ⟨_, hReads⟩ := hReading.reads hX hTopic List.length_mapIdx
    have hLe := hReads.le hd
    rw [hEq, hPosition] at hLe
    exact absurd hLe (by decide)

end Service

end Kafko
