import Kafko.Storage.Failures
import Kafko.Topic.Consumer
import Mathlib.Algebra.Order.BigOperators.Group.Finset

/-!
# Consumers over histories

A partition whose writer is alive serves a history: its log refines it. Whatever the partition is
asked to do, it serves the history's next state, so a scan of a consumer can be read off the
histories of the topic: it finds the record at the cursor of some partition, or no cursor points
to a record.

A consumer that calls `next_record` again and again therefore works through everything behind its
cursors (`takeAll_complete`), and if it seeks, through everything from there on (`takeAll_seek`).
-/

namespace Kafko

open Disk

variable {X : Crates} {env : Env FileName} {config : LogConfig} {h : History Record}

/-! ## Partitions -/

namespace OpenPartition

variable {p : OpenPartition}

structure Serves (X : Crates) (config : LogConfig) (h : History Record) (p : OpenPartition) :
    Prop where
  alive : p.panicked = none
  config : p.log.config = config
  refines : ∃ n, Refines X p.log p.world.store h n

theorem Serves.nextOffset (hp : p.Serves X config h) : p.log.nextOffset = h.next :=
  hp.refines.elim fun _ hRef => hRef.nextOffset

theorem Serves.oldestBase (hp : p.Serves X config h) : p.log.oldestBase = h.oldest :=
  hp.refines.elim fun _ hRef => hRef.oldestBase

/-- The step lemma of a partition. -/
theorem Serves.perform (hX : X.Lawful) (hp : p.Serves X config h) (hClean : Clean env)
    (hAlive : env.Alive) {op : LogOp} (hOp : op.Admissible X p.log) :
    ∃ h', (p.perform X env op).2.Serves X config h' ∧
      ((∃ reply, (p.perform X env op).1 = .ok reply ∧ h.Accepts op reply h') ∨
        ∃ e, (p.perform X env op).1 = .error e ∧ h.Rejects op h') := by
  obtain ⟨n, hRef⟩ := hp.refines
  have hSpec := exec_spec hX hClean hRef hOp
  unfold OpenPartition.perform
  rw [hp.alive]
  rcases hRun : op.exec X env p.log p.world with ⟨r, log, w⟩
  rw [wp, hRun] at hSpec
  cases r with
  | ok reply =>
    obtain ⟨hConfig, h', hAccepts, hRef'⟩ := hSpec
    exact ⟨h', ⟨rfl, hConfig.trans hp.config, _, hRef'⟩, Or.inl ⟨reply, rfl, hAccepts⟩⟩
  | err e =>
    obtain ⟨hConfig, ⟨h', hRejects, hRef'⟩, -⟩ := hSpec
    exact ⟨h', ⟨rfl, hConfig.trans hp.config, _, hRef'⟩, Or.inr ⟨e, rfl, hRejects⟩⟩
  | panic payload => exact hSpec.elim
  | crash => exact absurd hAlive hSpec.1

theorem admissible_of_no_records {op : LogOp} (hNone : op.records = []) (log : Log) :
    op.Admissible X log := by
  refine ⟨?_, ?_⟩
  · rw [hNone]
    intro r hr
    cases hr
  · rw [hNone]
    intro i hi
    cases hi

/-- A question changes nothing, and what it finds is in the history. -/
theorem Serves.read (hX : X.Lawful) (hp : p.Serves X config h) (hClean : Clean env)
    (hAlive : env.Alive) (offset : Nat) :
    (p.perform X env (.readRecordAt offset)).2.Serves X config h ∧
      ∀ reply, (p.perform X env (.readRecordAt offset)).1 = .ok reply →
        reply = .record (h.get offset) := by
  have hOp : LogOp.Admissible X p.log (.readRecordAt offset) := admissible_of_no_records rfl _
  obtain ⟨h', hServes, ⟨reply, hReply, hAccepts⟩ | ⟨e, hError, hRejects⟩⟩ :=
    hp.perform hX hClean hAlive hOp
  · cases hAccepts
    refine ⟨hServes, ?_⟩
    intro reply' hReply'
    rw [hReply] at hReply'
    cases hReply'
    rfl
  · cases hRejects
    refine ⟨hServes, ?_⟩
    intro reply' hReply'
    rw [hError] at hReply'
    cases hReply'

theorem Serves.read_quiet (hp : p.Serves X config h) (hQuiet : env.Quiet) (offset : Nat) :
    (p.perform X env (.readRecordAt offset)).1 = .ok (.record (h.get offset)) := by
  obtain ⟨n, hRef⟩ := hp.refines
  obtain ⟨log, w, hRead, -⟩ := Kafko.read_quiet hQuiet hRef offset
  have hExec : (LogOp.readRecordAt offset).exec X env p.log p.world =
      (.ok (.record (h.get offset)), log, w) := Fx.run_bind hRead
  unfold OpenPartition.perform
  rw [hp.alive, hExec]

end OpenPartition

/-! ## Topics -/

namespace Topic

variable {t : Topic} {histories : Nat → History Record}

def Serves (X : Crates) (histories : Nat → History Record) (t : Topic) : Prop :=
  ∀ (p : Nat) (partition : OpenPartition), t.partitions[p]? = some partition →
    partition.Serves X t.config (histories p)

theorem setPartition_cases {p q : Nat} {partition partition' : OpenPartition}
    (hq : (t.setPartition p partition).partitions[q]? = some partition') :
    (q = p ∧ partition' = partition) ∨ (q ≠ p ∧ t.partitions[q]? = some partition') := by
  change (t.partitions.set p partition)[q]? = some partition' at hq
  rw [List.getElem?_set] at hq
  split at hq
  · next hEq =>
    subst hEq
    split at hq
    · exact Or.inl ⟨rfl, (Option.some.inj hq).symm⟩
    · cases hq
  · next hNe => exact Or.inr ⟨Ne.symm hNe, hq⟩

theorem perform_eq_setPartition (t : Topic) (a : Activity) {partition : OpenPartition}
    (hPartition : t.partitions[a.partition]? = some partition) :
    t.perform X a = t.setPartition a.partition (partition.perform X a.env a.op).2 := by
  unfold perform setPartition
  congr 1
  ext1 q
  rw [List.getElem?_modify, List.getElem?_set]
  by_cases hEq : a.partition = q
  · subst hEq
    obtain ⟨hLt, rfl⟩ := List.getElem?_eq_some_iff.mp hPartition
    simp [hLt]
  · simp [hEq]

theorem perform_eq_self (t : Topic) (a : Activity)
    (hPartition : t.partitions[a.partition]? = none) : t.perform X a = t := by
  unfold perform
  rw [List.modify_eq_self (List.getElem?_eq_none_iff.mp hPartition)]

/-- One partition was replaced. -/
theorem Serves.set (ht : t.Serves X histories) {p : Nat} {partition : OpenPartition}
    {h' : History Record} (hPartition : partition.Serves X t.config h') :
    (t.setPartition p partition).Serves X (Function.update histories p h') := by
  intro q partition' hq
  rcases setPartition_cases hq with ⟨rfl, rfl⟩ | ⟨hNe, hOld⟩
  · rw [Function.update_self]
    exact hPartition
  · rw [Function.update_of_ne hNe]
    exact ht q partition' hOld

end Topic

/-! ## Scans -/

namespace Consumer

variable {c : Consumer} {t : Topic} {histories : Nat → History Record}
  {envs : Nat → Env FileName}

/-- What a scan does on its own: it finds a record at the cursor of some partition, or it changes
nothing. -/
structure Looked (X : Crates) (histories : Nat → History Record) (c : Consumer) (t : Topic)
    (scan : Scan) : Prop where
  config : scan.topic.config = t.config
  count : scan.topic.partitions.length = t.partitions.length
  serves : scan.topic.Serves X histories
  found : ∀ delivered, scan.result = .ok (some delivered) →
    ∃ p < t.partitions.length, delivered.1 = ⟨p, c.position p⟩ ∧
      (histories p).get (c.position p) = some delivered.2 ∧
      scan.consumer.cursors = c.cursors.set p (c.position p + 1)
  same : (∀ delivered, scan.result ≠ .ok (some delivered)) → scan.consumer = c

/-- The question a scan asks a partition. -/
theorem serves_asked (hX : X.Lawful) (ht : t.Serves X histories) (hClean : Clean env)
    (hAlive : env.Alive) {p : Nat} {partition : OpenPartition}
    (hPartition : t.partitions[p]? = some partition) (offset : Nat) :
    (t.setPartition p (partition.perform X env (.readRecordAt offset)).2).Serves X histories := by
  have hSet := ht.set (p := p) ((ht p partition hPartition).read hX hClean hAlive offset).1
  rwa [Function.update_eq_self] at hSet

theorem scanFrom_looked (hX : X.Lawful) (hEnvs : ∀ i, Clean (envs i) ∧ (envs i).Alive)
    (ht : t.Serves X histories) (i left : Nat) :
    Looked X histories c t (scanFrom X envs (fun _ => []) c i left t) := by
  induction left generalizing i t with
  | zero => exact ⟨rfl, rfl, ht, fun _ hNone => (by cases hNone), fun _ => rfl⟩
  | succ left ih =>
    rw [scanFrom]
    dsimp only [Topic.performAll, List.foldl_nil]
    cases hPartition : t.partitions[c.scanIndex i]? with
    | none => exact ⟨rfl, rfl, ht, fun _ hNone => (by cases hNone), fun _ => rfl⟩
    | some partition =>
      dsimp only
      have hFound := ((ht _ partition hPartition).read hX (hEnvs i).1 (hEnvs i).2
        (c.position (c.scanIndex i))).2
      have hServes := serves_asked hX ht (hEnvs i).1 (hEnvs i).2 hPartition
        (c.position (c.scanIndex i))
      have hCount : (t.setPartition (c.scanIndex i) (partition.perform X (envs i)
          (.readRecordAt (c.position (c.scanIndex i)))).2).partitions.length =
          t.partitions.length := List.length_set
      have hGoOn := ih hServes (i + 1)
      split
      · exact ⟨rfl, hCount, hServes, fun _ hNone => (by cases hNone), fun _ => rfl⟩
      · next record hAnswer =>
        refine ⟨rfl, hCount, hServes, ?_, fun hNone => absurd rfl (hNone _)⟩
        intro delivered hDelivered
        cases hDelivered
        have hRecord := hFound _ hAnswer
        injection hRecord with hRecord
        exact ⟨c.scanIndex i, (List.getElem?_eq_some_iff.mp hPartition).1, rfl, hRecord.symm, rfl⟩
      · refine ⟨hGoOn.config, hGoOn.count.trans hCount, hGoOn.serves, ?_, hGoOn.same⟩
        intro delivered hDelivered
        obtain ⟨p, hp, hRest⟩ := hGoOn.found delivered hDelivered
        exact ⟨p, hp.trans_eq hCount, hRest⟩

theorem tryTakeNext_looked (hX : X.Lawful) (hEnvs : ∀ i, Clean (envs i) ∧ (envs i).Alive)
    (ht : t.Serves X histories) :
    Looked X histories c t (c.tryTakeNext X envs (fun _ => []) t) :=
  scanFrom_looked hX hEnvs ht 0 _

/-- An undisturbed scan finds a record, or there is none at the cursors it looks at. -/
theorem scanFrom_quiet (hX : X.Lawful) (hEnvs : ∀ i, (envs i).Quiet) (ht : t.Serves X histories)
    (hSized : c.cursors.length = t.partitions.length) (i left : Nat)
    (hSome : 0 < t.partitions.length) :
    (∃ delivered, (scanFrom X envs (fun _ => []) c i left t).result = .ok (some delivered)) ∨
      ((scanFrom X envs (fun _ => []) c i left t).result = .ok none ∧
        ∀ j, i ≤ j → j < i + left →
          (histories (c.scanIndex j)).get (c.position (c.scanIndex j)) = none) := by
  induction left generalizing i t with
  | zero => exact Or.inr ⟨rfl, fun j hj hLt => by omega⟩
  | succ left ih =>
    have hIndex : c.scanIndex i < t.partitions.length := by
      unfold scanIndex
      rw [hSized]
      exact Nat.mod_lt _ hSome
    have hPartition : t.partitions[c.scanIndex i]? = some t.partitions[c.scanIndex i] :=
      List.getElem?_eq_getElem hIndex
    have hAnswer := (ht _ _ hPartition).read_quiet (hEnvs i) (c.position (c.scanIndex i))
    have hServes := serves_asked hX ht (clean_of_quiet (hEnvs i)) (hEnvs i).alive hPartition
      (c.position (c.scanIndex i))
    rw [scanFrom]
    dsimp only [Topic.performAll, List.foldl_nil]
    rw [hPartition]
    dsimp only
    rw [hAnswer]
    cases hGet : (histories (c.scanIndex i)).get (c.position (c.scanIndex i)) with
    | some record => exact Or.inl ⟨_, rfl⟩
    | none =>
      dsimp only
      rcases ih hServes (hSized.trans List.length_set.symm) (i + 1)
          (hSome.trans_eq List.length_set.symm) with hFound | ⟨hNone, hAll⟩
      · exact Or.inl hFound
      · refine Or.inr ⟨hNone, ?_⟩
        intro j hj hLt
        by_cases hEq : j = i
        · rw [hEq]
          exact hGet
        · exact hAll j (by omega) (by omega)

/-- A full round finds a record if some cursor points to one. -/
theorem tryTakeNext_quiet (hX : X.Lawful) (hEnvs : ∀ i, (envs i).Quiet)
    (ht : t.Serves X histories) (hSized : c.cursors.length = t.partitions.length)
    {p : Nat} {record : Record} (hp : p < t.partitions.length)
    (hGet : (histories p).get (c.position p) = some record) :
    ∃ delivered, (c.tryTakeNext X envs (fun _ => []) t).result = .ok (some delivered) := by
  rcases scanFrom_quiet hX hEnvs ht hSized 0 c.cursors.length (Nat.zero_lt_of_lt hp) with
    hFound | ⟨-, hAll⟩
  · exact hFound
  · have hMem : p ∈ (List.range' 0 c.cursors.length).map c.scanIndex := by
      rw [c.scanIndex_perm.mem_iff, List.mem_range, hSized]
      exact hp
    obtain ⟨i, hi, rfl⟩ := List.mem_map.mp hMem
    rw [List.mem_range'_1] at hi
    have hNone := hAll i (Nat.zero_le _) hi.2
    rw [hGet] at hNone
    cases hNone

/-! ## Reading on -/

/-- The cursor of one partition moves. -/
theorem position_set {c' : Consumer} {p offset : Nat} (hp : p < c.cursors.length)
    (h : c'.cursors = c.cursors.set p offset) (q : Nat) :
    c'.position q = if p = q then offset else c.position q := by
  unfold position
  rw [h, List.getElem?_set, if_pos hp]
  split <;> rfl

/-- What `n` calls of `next_record` return if nothing disturbs them; where a scan finds nothing
the consumer goes to sleep. -/
def takeAll (X : Crates) : (n : Nat) → Consumer → Topic → List (RecordPosition × Record)
  | 0, _, _ => []
  | n + 1, c, t =>
    let scan := c.tryTakeNext X (fun _ => Env.quiet) (fun _ => []) t
    match scan.result with
    | .ok (some delivered) => delivered :: takeAll X n scan.consumer scan.topic
    | _ => []

/-- How many records lie behind the cursors. -/
def behind (histories : Nat → History Record) (count : Nat) (c : Consumer) : Nat :=
  ∑ q ∈ Finset.range count, ((histories q).next - c.position q)

theorem behind_lt {c' : Consumer} {count p : Nat} (hSized : c.cursors.length = count)
    (hp : p < count) {record : Record} (hGet : (histories p).get (c.position p) = some record)
    (hCursors : c'.cursors = c.cursors.set p (c.position p + 1)) :
    behind histories count c' < behind histories count c := by
  have hPosition := position_set (by rwa [hSized]) hCursors
  have hNext : c.position p < (histories p).next := by
    by_contra hNot
    rw [History.get_eq, if_neg fun hBoth => hNot hBoth.2] at hGet
    cases hGet
  apply Finset.sum_lt_sum
  · intro q _
    rw [hPosition]
    split
    · next hEq =>
      subst hEq
      omega
    · exact Nat.le_refl _
  · refine ⟨p, Finset.mem_range.mpr hp, ?_⟩
    rw [hPosition, if_pos rfl]
    omega

/-- Everything from a cursor on is delivered sooner or later, unless the cursor points below what
is left. -/
theorem takeAll_complete (hX : X.Lawful) (ht : t.Serves X histories)
    (hSized : c.cursors.length = t.partitions.length) {p offset : Nat} {record : Record}
    (hp : p < t.partitions.length) (hOldest : (histories p).oldest ≤ c.position p)
    (hOffset : c.position p ≤ offset) (hRecord : (histories p).records[offset]? = some record) :
    ∃ n, (⟨p, offset⟩, record) ∈ takeAll X n c t := by
  -- each call takes one of the records behind the cursors
  generalize hM : behind histories t.partitions.length c = m
  induction m using Nat.strongRecOn generalizing c t with
  | ind m ih =>
    have hLt : offset < (histories p).records.length := (List.getElem?_eq_some_iff.mp hRecord).1
    have hGet : (histories p).get (c.position p) =
        some ((histories p).records[c.position p]) := by
      rw [History.get, if_pos hOldest]
      exact List.getElem?_eq_getElem (hOffset.trans_lt hLt)
    obtain ⟨delivered, hResult⟩ :=
      tryTakeNext_quiet hX (fun _ => Env.quiet_quiet) ht hSized hp hGet
    have hLooked := tryTakeNext_looked (c := c) hX
      (fun _ : Nat => ⟨clean_of_quiet Env.quiet_quiet, Env.quiet_quiet.alive⟩) ht
    have hTake : ∀ n, takeAll X (n + 1) c t = delivered ::
        takeAll X n (c.tryTakeNext X (fun _ => Env.quiet) (fun _ => []) t).consumer
          (c.tryTakeNext X (fun _ => Env.quiet) (fun _ => []) t).topic := by
      intro n
      rw [takeAll, hResult]
    generalize c.tryTakeNext X (fun _ => Env.quiet) (fun _ => []) t = scan at *
    obtain ⟨q, hq, hAt, hFound, hCursors⟩ := hLooked.found delivered hResult
    have hPosition := position_set (by rwa [hSized]) hCursors
    have hLess := behind_lt hSized hq hFound hCursors
    rw [hM, ← hLooked.count] at hLess
    by_cases hNow : q = p ∧ c.position p = offset
    · obtain ⟨rfl, rfl⟩ := hNow
      have hSame : delivered = (⟨q, c.position q⟩, record) := by
        rw [History.get, if_pos hOldest, hRecord] at hFound
        ext1
        · exact hAt
        · exact (Option.some.inj hFound).symm
      exact ⟨1, by rw [hTake, hSame]; exact List.mem_cons_self⟩
    · have hSized' : scan.consumer.cursors.length = scan.topic.partitions.length := by
        rw [hCursors, List.length_set, hSized, hLooked.count]
      have hMoved : c.position p ≤ scan.consumer.position p ∧
          scan.consumer.position p ≤ offset := by
        rw [hPosition]
        split
        · next hEq =>
          subst hEq
          have hNe : c.position q ≠ offset := fun hEq => hNow ⟨rfl, hEq⟩
          omega
        · exact ⟨Nat.le_refl _, hOffset⟩
      obtain ⟨n, hn⟩ := ih _ hLess hLooked.serves hSized' (hp.trans_eq hLooked.count.symm)
        (hOldest.trans hMoved.1) hMoved.2 rfl
      exact ⟨n + 1, by rw [hTake]; exact List.mem_cons_of_mem _ hn⟩

/-! ## Reading again -/

theorem position_seek {p : Nat} (hp : p < c.cursors.length) (offset q : Nat) :
    (c.seek p offset).position q = if p = q then offset else c.position q :=
  position_set hp rfl q

theorem position_seekAll {p : Nat} (hp : p < c.cursors.length) (offset : Nat) :
    (c.seekAll offset).position p = offset := by
  rw [position, seekAll, List.getElem?_map, List.getElem?_eq_getElem hp]
  rfl

/-- A partition the topic does not have is not sought in. -/
theorem seek_out_of_range {p : Nat} (hp : c.cursors.length ≤ p) (offset : Nat) :
    c.seek p offset = c := by
  rw [seek, List.set_eq_of_length_le hp]

/-- A consumer that seeks in a partition gets everything that is left there from the offset on,
however far it had read, and goes on with the other partitions where it was. -/
theorem takeAll_seek (hX : X.Lawful) (ht : t.Serves X histories)
    (hSized : c.cursors.length = t.partitions.length) {p offset : Nat}
    (hp : p < t.partitions.length) (hOldest : (histories p).oldest ≤ offset) :
    (∀ (o : Nat) (record : Record), offset ≤ o → (histories p).records[o]? = some record →
        ∃ n, (⟨p, o⟩, record) ∈ takeAll X n (c.seek p offset) t) ∧
      ∀ q ≠ p, (c.seek p offset).position q = c.position q := by
  have hPosition := position_seek (hSized ▸ hp : p < c.cursors.length) offset
  have hHere : (c.seek p offset).position p = offset := by rw [hPosition, if_pos rfl]
  have hSized' : (c.seek p offset).cursors.length = t.partitions.length :=
    List.length_set.trans hSized
  refine ⟨?_, ?_⟩
  · intro o record hFrom hRecord
    apply takeAll_complete hX ht hSized' hp _ _ hRecord
    · rwa [hHere]
    · rwa [hHere]
  · intro q hq
    rw [hPosition, if_neg hq.symm]

/-- A consumer that seeks in all partitions gets everything from the offset on that is left. -/
theorem takeAll_seekAll (hX : X.Lawful) (ht : t.Serves X histories)
    (hSized : c.cursors.length = t.partitions.length) {p offset o : Nat} {record : Record}
    (hp : p < t.partitions.length) (hOldest : (histories p).oldest ≤ offset) (hFrom : offset ≤ o)
    (hRecord : (histories p).records[o]? = some record) :
    ∃ n, (⟨p, o⟩, record) ∈ takeAll X n (c.seekAll offset) t := by
  have hHere : (c.seekAll offset).position p = offset := position_seekAll (hSized ▸ hp) offset
  have hSized' : (c.seekAll offset).cursors.length = t.partitions.length :=
    List.length_map _ |>.trans hSized
  apply takeAll_complete hX ht hSized' hp _ _ hRecord
  · rwa [hHere]
  · rwa [hHere]

end Consumer

end Kafko
