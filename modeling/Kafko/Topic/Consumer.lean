import Kafko.Storage.Contents
import Mathlib.Data.Nat.ModEq

/-!
# A merged consumer

`consumer.rs`. A consumer keeps one cursor per partition and asks the partitions in turn for
the record at their cursor. Each question is answered by the writer of its partition; between
two questions the writers serve everybody else. `tryTakeNext` takes these activities as an
argument, so a statement about every argument covers every interleaving.

The scan leaves a trace: for each partition the state in which its question was answered.
-/

namespace Kafko

open Disk

/-! ## Partitions behind their writers -/

/-- An open partition. Once its writer has panicked every call fails. -/
structure OpenPartition where
  log : Log
  world : World FileName
  panicked : Option String

namespace OpenPartition

/-- The writer handles one operation. -/
def perform (X : Crates) (env : Env FileName) (op : LogOp) (p : OpenPartition) :
    Except KafkoError Reply × OpenPartition :=
  match p.panicked with
  | some payload => (.error (.partitionPanicked payload), p)
  | none =>
    match op.exec X env p.log p.world with
    | (.ok reply, log, w) => (.ok reply, ⟨log, w, none⟩)
    | (.err e, log, w) => (.error e, ⟨log, w, none⟩)
    | (.panic payload, log, w) => (.error (.partitionPanicked payload), ⟨log, w, some payload⟩)
    | (.crash, log, w) => (.error .closed, ⟨log, w, some "machine stopped"⟩)

/-- The offsets of the records the partition still holds. -/
def Retains (p : OpenPartition) (offset : Nat) : Prop :=
  p.log.oldestBase ≤ offset ∧ offset < p.log.nextOffset

/-- The log of a partition whose writer is alive was reached without unclean failures. -/
def Reachable (X : Crates) (config : LogConfig) (p : OpenPartition) : Prop :=
  p.panicked = none → p.log.config = config ∧ ∃ held, Grown X p.log p.world held

end OpenPartition

structure Topic where
  config : LogConfig
  partitions : List OpenPartition

/-- Something another task asks a partition to do. -/
structure Activity where
  partition : Nat
  op : LogOp
  env : Env FileName

namespace Topic

def perform (X : Crates) (t : Topic) (a : Activity) : Topic :=
  { t with partitions := t.partitions.modify a.partition fun p => (p.perform X a.env a.op).2 }

def performAll (X : Crates) (t : Topic) (activities : List Activity) : Topic :=
  activities.foldl (perform X) t

def setPartition (t : Topic) (index : Nat) (p : OpenPartition) : Topic :=
  { t with partitions := t.partitions.set index p }

def Reachable (X : Crates) (t : Topic) : Prop :=
  ∀ p ∈ t.partitions, p.Reachable X t.config

end Topic

/-- Records short enough for the length fields, and no failure that leaves traces. -/
structure Activity.Fits (X : Crates) (config : LogConfig) (a : Activity) : Prop where
  records : ∀ r ∈ a.op.records, r.LengthsFit X config.compression
  env : CleanFailures a.env

/-! ## The consumer -/

structure RecordPosition where
  partition : Nat
  offset : Nat
  deriving DecidableEq, Repr

structure Consumer where
  cursors : List Nat
  scanStart : Nat
  deriving DecidableEq, Repr

/-- The partition asked and the state its writer was in. -/
structure Moment where
  partition : Nat
  state : OpenPartition

/-- What a scan returns and leaves behind. -/
structure Scan where
  result : Res KafkoError (Option (RecordPosition × Record))
  consumer : Consumer
  topic : Topic
  moments : List Moment

namespace Consumer

def seekAll (c : Consumer) (offset : Nat) : Consumer :=
  { c with cursors := c.cursors.map fun _ => offset }

def seek (c : Consumer) (partition offset : Nat) : Consumer :=
  { c with cursors := c.cursors.set partition offset }

/-- The offset this consumer reads next from a partition. -/
def position (c : Consumer) (partition : Nat) : Nat := (c.cursors[partition]?).getD 0

/-- The partition asked in the `i`-th place. -/
def scanIndex (c : Consumer) (i : Nat) : Nat := (c.scanStart + i) % c.cursors.length

/-- The loop of `try_take_next` from `i` on, with `left` partitions to go. -/
def scanFrom (X : Crates) (env : Nat → Env FileName) (between : Nat → List Activity)
    (c : Consumer) : (i left : Nat) → Topic → Scan
  | _, 0, t => ⟨.ok none, c, t, []⟩
  | i, left + 1, t =>
    let t := t.performAll X (between i)
    let p := c.scanIndex i
    match t.partitions[p]? with
    | none => ⟨.panic "scan index is always < partition_count", c, t, []⟩
    | some partition =>
      let answer := partition.perform X (env i) (.readRecordAt (c.position p))
      let t := t.setPartition p answer.2
      match answer.1 with
      | .error e => ⟨.err e, c, t, [⟨p, partition⟩]⟩
      | .ok (.record (some record)) =>
        ⟨.ok (some (⟨p, c.position p⟩, record)),
          ⟨c.cursors.set p (c.position p + 1), (p + 1) % c.cursors.length⟩, t, [⟨p, partition⟩]⟩
      | .ok _ =>
        let rest := scanFrom X env between c (i + 1) left t
        { rest with moments := ⟨p, partition⟩ :: rest.moments }

/-- One round-robin pass over the partitions. -/
def tryTakeNext (X : Crates) (env : Nat → Env FileName) (between : Nat → List Activity)
    (c : Consumer) (t : Topic) : Scan :=
  scanFrom X env between c 0 c.cursors.length t

end Consumer

namespace Moment

end Moment

/-! ## Activities keep partitions reachable -/

variable {X : Crates} {env : Env FileName} {config : LogConfig}

theorem OpenPartition.perform_reachable (hX : X.Lawful) {p : OpenPartition}
    (h : p.Reachable X config) (hEnv : CleanFailures env) {op : LogOp}
    (hOp : ∀ r ∈ op.records, r.LengthsFit X config.compression) :
    (p.perform X env op).2.Reachable X config := by
  unfold perform
  cases hPanic : p.panicked with
  | some payload =>
    intro hNone
    rw [hPanic] at hNone
    cases hNone
  | none =>
    obtain ⟨hConfig, held, hGrown⟩ := h hPanic
    obtain ⟨L, hLive, -⟩ := (hGrown.filled hX).2
    have hFills := exec_fills (X := X) hEnv.clean hLive op
    rcases hRun : op.exec X env p.log p.world with ⟨r, log, w⟩
    rw [wp, hRun] at hFills
    rw [← hConfig] at hOp
    cases r with
    | ok reply =>
      exact fun _ => ⟨hFills.2.1.trans hConfig, _, hGrown.accepted hEnv hOp hRun⟩
    | err e => exact fun _ => ⟨hFills.1.trans hConfig, _, hGrown.refused hEnv hRun⟩
    | panic payload =>
      intro hNone
      cases hNone
    | crash =>
      intro hNone
      cases hNone

namespace Topic

variable {t : Topic}

theorem perform_reachable (hX : X.Lawful) (h : t.Reachable X) {a : Activity}
    (ha : a.Fits X t.config) : (t.perform X a).Reachable X := by
  intro p hp
  obtain ⟨i, hi⟩ := List.mem_iff_getElem?.mp hp
  change (t.partitions.modify a.partition _)[i]? = some p at hi
  rw [List.getElem?_modify] at hi
  obtain ⟨q, hq, rfl⟩ := Option.map_eq_some_iff.mp hi
  have hOld := h q (List.mem_of_getElem? hq)
  split
  · exact OpenPartition.perform_reachable hX hOld ha.env ha.records
  · exact hOld

theorem performAll_reachable (hX : X.Lawful) (h : t.Reachable X) {activities : List Activity}
    (hFits : ∀ a ∈ activities, a.Fits X t.config) :
    (t.performAll X activities).Reachable X ∧ (t.performAll X activities).config = t.config ∧
      (t.performAll X activities).partitions.length = t.partitions.length := by
  induction activities generalizing t with
  | nil => exact ⟨h, rfl, rfl⟩
  | cons a activities ih =>
    obtain ⟨hReach, hConfig, hLen⟩ := ih (perform_reachable hX h (hFits a List.mem_cons_self))
      (fun b hb => hFits b (List.mem_cons_of_mem _ hb))
    refine ⟨hReach, hConfig, hLen.trans ?_⟩
    simp [perform]

end Topic

/-- A partition that answers a read with no record holds none at that offset. -/
theorem OpenPartition.read_none (hX : X.Lawful) {p : OpenPartition} (h : p.Reachable X config)
    (hEnv : CleanFailures env) {offset : Nat} {reply : Reply}
    (hReply : (p.perform X env (.readRecordAt offset)).1 = .ok reply)
    (hNone : ∀ record, reply ≠ .record (some record)) : ¬ p.Retains offset := by
  unfold perform at hReply
  cases hPanic : p.panicked with
  | some payload =>
    rw [hPanic] at hReply
    cases hReply
  | none =>
    rw [hPanic] at hReply
    obtain ⟨-, held, hGrown⟩ := h hPanic
    obtain ⟨L, hLive, hDecided, -⟩ := (hGrown.filled hX).2
    have hRead := readRecordAt_none hEnv.clean.fullReads hLive hDecided offset
    rcases hRun : (LogOp.readRecordAt offset).exec X env p.log p.world with ⟨r, log, w⟩
    rw [hRun] at hReply
    cases r with
    | ok reply' =>
      obtain rfl : reply' = reply := by simpa using hReply
      obtain ⟨record, rfl, hExec⟩ := Fx.map_eq_ok hRun
      rw [wp, hExec] at hRead
      have hMiss : record = none := by
        cases record with
        | none => rfl
        | some record => exact absurd rfl (hNone record)
      rw [Retains, hLive.oldestBase, hLive.nextOffset]
      exact hRead hMiss
    | err e => cases hReply
    | panic m => cases hReply
    | crash => cases hReply

/-! ## A scan that finds nothing -/

namespace Consumer

variable {c : Consumer} {t : Topic} {envs : Nat → Env FileName} {between : Nat → List Activity}

/-- A full round asks every partition once. -/
theorem scanIndex_perm (c : Consumer) :
    ((List.range' 0 c.cursors.length).map c.scanIndex).Perm (List.range c.cursors.length) := by
  have hInj : ∀ i < c.cursors.length, ∀ j < c.cursors.length, c.scanIndex i = c.scanIndex j →
      i = j := by
    intro i hi j hj hEq
    have hMod : i ≡ j [MOD c.cursors.length] := Nat.ModEq.add_left_cancel' c.scanStart hEq
    rwa [Nat.ModEq, Nat.mod_eq_of_lt hi, Nat.mod_eq_of_lt hj] at hMod
  have hNodup : ((List.range' 0 c.cursors.length).map c.scanIndex).Nodup := by
    refine List.Nodup.map_on ?_ List.nodup_range'
    intro i hi j hj hEq
    simp only [List.mem_range'_1, Nat.zero_le, Nat.zero_add, true_and] at hi hj
    exact hInj i hi j hj hEq
  have hSub : (List.range' 0 c.cursors.length).map c.scanIndex ⊆ List.range c.cursors.length := by
    intro p hp
    obtain ⟨i, hi, rfl⟩ := List.mem_map.mp hp
    simp only [List.mem_range'_1, Nat.zero_le, Nat.zero_add, true_and] at hi
    exact List.mem_range.mpr (Nat.mod_lt _ (Nat.zero_lt_of_lt hi))
  exact (List.subperm_of_subset hNodup hSub).perm_of_length_le (by simp)

end Consumer

/-- Two sample records fit into a segment, and two segments are too many. -/
def smallPartition : LogConfig := { smallSegments with maxPartitionBytes := some 60 }

/-- A topic with one new partition. -/
def newTopic : Option Topic :=
  match Log.create smallPartition Env.quiet () ⟨Store.empty, 0⟩ with
  | (.ok log, _, w) => some ⟨smallPartition, [⟨log, w, none⟩]⟩
  | _ => none

theorem newTopic_reachable {t : Topic} (h : newTopic = some t) :
    t.Reachable Crates.uncompressed ∧ t.config = smallPartition ∧ t.partitions.length = 1 := by
  obtain ⟨log, w, hCreate⟩ : ∃ log w, Log.create smallPartition Env.quiet () ⟨Store.empty, 0⟩ =
      (.ok log, (), w) := ⟨_, _, rfl⟩
  have hConfig : log.config = smallPartition := by
    cases hCreate
    rfl
  rw [newTopic, hCreate] at h
  obtain rfl := Option.some.inj h
  refine ⟨?_, rfl, rfl⟩
  intro p hp _
  rw [List.mem_singleton.mp hp]
  exact ⟨hConfig, [], Grown.created (fun name => Store.get_empty name) hCreate⟩

theorem sampleRecord_lengthsFit (b : UInt8) :
    (sampleRecord b).LengthsFit Crates.uncompressed .none := by
  refine ⟨?_, fun hCodec => by cases hCodec⟩
  rw [Record.encodedSize]
  change (Record.frameBytes Crates.uncompressed (sampleRecord b) .none [b]).length < _
  rw [Record.length_frameBytes]
  have hKey : (sampleRecord b).keyLen = 4 := rfl
  rw [hKey, List.length_singleton]
  decide

end Kafko
