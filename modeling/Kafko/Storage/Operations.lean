import Kafko.Storage.History

/-!
# The operations of a log refine the list

`LogOp` names the calls a log understands and `exec` runs one of them. `exec_spec` is the
step lemma of every run: from a log that refines a history, an operation in a clean
environment ends in a log that refines the history's own next state, or stops the machine
with a directory from which the history can be recovered.

Besides the history the relation carries a number of records that are known to be durable;
it rises to everything acknowledged so far whenever a sync or a rotation succeeds.
-/

namespace Kafko

open Disk

inductive LogOp
  | append (record : Record)
  | appendBatch (records : List Record)
  | sync
  | readRecordAt (offset : Nat)
  | applyRetention
  deriving DecidableEq

inductive Reply
  | offset (offset : Nat)
  | offsets (offsets : List Nat)
  | done
  | record (record : Option Record)
  | deleted (count : Nat)
  deriving DecidableEq

namespace LogOp

def exec (X : Crates) : LogOp → LogIO Log Reply
  | append r => do
    let offset ← Log.append X r
    pure (.offset offset)
  | appendBatch rs => do
    let offsets ← Log.appendBatch X rs
    pure (.offsets offsets)
  | sync => do
    Log.sync
    pure .done
  | readRecordAt offset => do
    let record ← Log.readRecordAt X offset
    pure (.record record)
  | applyRetention => do
    let count ← Log.applyRetention
    pure (.deleted count)

/-- The records an operation wants to append. -/
def records : LogOp → List Record
  | append r => [r]
  | appendBatch rs => rs
  | _ => []

/-- The size by which an append decides whether to rotate. -/
def wireSize (op : LogOp) : Nat := (op.records.map Record.wireSize).sum

end LogOp

/-- Where the first record of an append lands in its segment. -/
def Log.writePosition (log : Log) (additional : Nat) : Nat :=
  match log.segments.getLast? with
  | none => 0
  | some active =>
    if active.segment.wouldOverflow additional log.config.segmentSizeThreshold then 0
    else active.segment.size

/-- Every record of the operation encodes in fewer than `2 ^ 32` bytes, has a value the
decompressor accepts, and starts below `2 ^ 32`. -/
structure LogOp.Admissible (X : Crates) (log : Log) (op : LogOp) : Prop where
  storable : ∀ r ∈ op.records, r.Storable X log.config.compression
  positions : PositionsOk (log.writePosition op.wireSize)
    (framesOf X log.config.compression op.records)

/-- How the list answers an operation. -/
inductive History.Accepts (h : History Record) : LogOp → Reply → History Record → Prop
  | append (r : Record) : Accepts h (.append r) (.offset h.next) (h.append [r])
  | appendBatch (rs : List Record) :
    Accepts h (.appendBatch rs) (.offsets (List.range' h.next rs.length)) (h.append rs)
  | sync : Accepts h .sync .done h
  | read (offset : Nat) : Accepts h (.readRecordAt offset) (.record (h.get offset)) h
  | retain (count oldest : Nat) (hLe : h.oldest ≤ oldest) (hNext : oldest ≤ h.next) :
    Accepts h .applyRetention (.deleted count) (h.retire oldest)

/-- What an operation that returns an error may have done. -/
inductive History.Rejects (h : History Record) : LogOp → History Record → Prop
  | unchanged (op : LogOp) : Rejects h op h
  | retain (oldest : Nat) (hLe : h.oldest ≤ oldest) (hNext : oldest ≤ h.next) :
    Rejects h .applyRetention (h.retire oldest)

/-- What a crash inside an operation may leave: the records it wanted to append count as
appended, and a retention pass is at most as far as memory says. -/
structure History.Interrupted (h : History Record) (op : LogOp) (log' : Log)
    (h' : History Record) : Prop where
  records : h'.records = h.records ++ op.records
  oldest : h.oldest ≤ h'.oldest
  stop : if op = .applyRetention then h'.oldest ≤ log'.oldestBase else h'.oldest = h.oldest

/-- A live log that refines a history, the first `n` records of which are durable. -/
def Refines (X : Crates) (log : Log) (d : Store FileName) (h : History Record) (n : Nat) : Prop :=
  ∃ L, Live log d L ∧ Sound X L ∧ Represents L h ∧ n ≤ L.durableOffset

/-- A directory that holds a prefix of a history with at least `n` records. -/
def Recoverable (X : Crates) (d : Store FileName) (h : History Record) (n : Nat) : Prop :=
  ∃ L h₀, OnDisk d L ∧ Sound X L ∧ Represents L h₀ ∧ h₀.oldest = h.oldest ∧
    h₀.records <+: h.records ∧ n ≤ L.durableOffset

/-- A rotation makes everything acknowledged before it durable. -/
def durableCount (log log' : Log) (acknowledged n : Nat) : Nat :=
  if log.segments.length < log'.segments.length then acknowledged else n

/-- Only appends rotate. -/
def LogOp.durableAfter (op : LogOp) (log log' : Log) (acknowledged n : Nat) : Nat :=
  match op with
  | append _ | appendBatch _ => durableCount log log' acknowledged n
  | _ => n

/-! ## The step lemma -/

variable {X : Crates} {env : Env FileName} {log : Log} {w : World FileName} {h : History Record}
  {n : Nat}

theorem Live.writePosition {d : Store FileName} {L : Layout} (hLive : Live log d L)
    (additional : Nat) :
    log.writePosition additional = span
      (L.target (L.overflows additional log.config.segmentSizeThreshold)).active.frames := by
  obtain ⟨init, active, f, hParts⟩ := hLive.parts
  have hLast : log.segments.getLast? = some active := by simp [hParts.split]
  have hSize : active.segment.size = span L.active.frames := by
    rw [hParts.segment.size, hParts.data, span]
  have hOver : active.segment.wouldOverflow additional log.config.segmentSizeThreshold =
      L.overflows additional log.config.segmentSizeThreshold := by
    simp only [Segment.wouldOverflow, hSize, Layout.overflows]
  simp only [Log.writePosition, hLast, hOver, hSize]
  cases L.overflows additional log.config.segmentSizeThreshold <;> rfl

namespace Layout

variable {L : Layout}

theorem durableOffset_le_next {d : Store FileName} (hDisk : OnDisk d L) :
    L.durableOffset ≤ L.next := by
  have := hDisk.durable_le
  unfold durableOffset next Chunk.next
  omega

theorem durableOffset_rotate (L : Layout) : L.rotate.durableOffset = L.next := rfl

theorem durableOffset_step (L : Layout) (rotates : Bool) (fs : List LogFrame) :
    (L.step rotates fs).durableOffset = if rotates then L.next else L.durableOffset := by
  cases rotates <;> rfl

end Layout

/-- What an append of `op.records` to a refining log may end in. -/
def appendOutcome {α : Type} (env : Env FileName) (X : Crates) (log : Log) (h : History Record)
    (n : Nat) (op : LogOp) (value : α) : Post FileName KafkoError Log α where
  ok := fun a log' w' => a = value ∧ log'.config = log.config ∧
    log.config.compression.isAvailable X = true ∧
    Refines X log' w'.store (h.append op.records) (durableCount log log' h.next n)
  err := fun e log' w' => log'.config = log.config ∧
    Refines X log' w'.store h (durableCount log log' h.next n) ∧
    (e = .compressionUnavailable log.config.compression ∧
      log.config.compression.isAvailable X = false ∨ ¬ env.Steady)
  panic := fun _ _ _ => False
  crash := fun log' w' => ¬ env.Alive ∧
    Recoverable X w'.store (h.append op.records) (durableCount log log' h.next n)

theorem prefix_records_framesOf (X : Crates) (c : Compression) (rs : List Record) :
    (framesOf X c rs).map Frame.record <+: rs := by
  cases hc : c.isAvailable X with
  | true => rw [records_framesOf hc]
  | false =>
    rw [framesOf_unavailable hc]
    exact List.nil_prefix

/-- Reads the result of an append off the layouts. -/
theorem appendOutcome_of_post {α : Type} {L : Layout} {rotates : Bool} {op : LogOp} {value : α}
    {prog : LogIO Log α} (hX : X.Lawful) (hLive : Live log w.store L) (hSound : Sound X L)
    (hRep : Represents L h) (hn : n ≤ L.durableOffset) (hOp : op.Admissible X log)
    (hRotates : L.overflows op.wireSize log.config.segmentSizeThreshold = rotates)
    (hProg : wp env prog (appendPost env X log L rotates
      (framesOf X log.config.compression op.records) value) log w) :
    wp env prog (appendOutcome env X log h n op value) log w := by
  have hChain := hLive.disk.chain
  have hOldest := hRep.oldest_le hChain
  have hDurable := Layout.durableOffset_le_next hLive.disk
  have hPos := hOp.positions
  rw [hLive.writePosition, hRotates] at hPos
  have hSound' := hSound.step (whole_framesOf hX hOp.storable) hPos
  have hRep' := hRep.step hOldest rotates (framesOf X log.config.compression op.records)
  have hNext := hRep.next
  refine wp_mono hProg ?_ ?_ ?_ ?_
  · rintro a log' w' ⟨rfl, hConfig, hc, hCount, hLive'⟩
    rw [records_framesOf hc] at hRep'
    refine ⟨rfl, hConfig, hc, _, hLive', hSound', hRep', ?_⟩
    rw [Layout.durableOffset_step]
    unfold durableCount
    cases rotates <;> simp_all
  · rintro e log' w' ⟨hConfig, ⟨hCount, hLive'⟩ | ⟨hCount, hLive'⟩, hWhy⟩
    · refine ⟨hConfig, ⟨L, hLive', hSound, hRep, ?_⟩, hWhy⟩
      rw [durableCount, if_neg (by omega)]
      exact hn
    · refine ⟨hConfig, ⟨_, hLive', hSound.rotate, hRep.rotate, ?_⟩, hWhy⟩
      rw [durableCount, if_pos (by omega), Layout.durableOffset_rotate, hNext]
  · rintro p log' w' ⟨hBad, -⟩
    exact hBad hPos
  · have hPrefix : h.records ++ (framesOf X log.config.compression op.records).map Frame.record <+:
        h.records ++ op.records :=
      (List.prefix_append_right_inj _).mpr (prefix_records_framesOf _ _ _)
    rintro log' w' ⟨hNoisy, ⟨hCount, hDisk⟩ | hDisk | ⟨hCount, hDisk⟩⟩
    · refine ⟨hNoisy, L, h, hDisk, hSound, hRep, rfl, List.prefix_append _ _, ?_⟩
      rw [durableCount, if_neg (by omega)]
      exact hn
    · refine ⟨hNoisy, _, h, hDisk, hSound.rotate, hRep.rotate, rfl, List.prefix_append _ _, ?_⟩
      rw [Layout.durableOffset_rotate]
      unfold durableCount
      split <;> omega
    · refine ⟨hNoisy, _, _, hDisk, hSound', hRep', rfl, hPrefix, ?_⟩
      rw [Layout.durableOffset_step]
      unfold durableCount
      cases rotates <;> simp_all

/-- What an operation on a refining log may end in. -/
def execPost (env : Env FileName) (X : Crates) (log : Log) (h : History Record) (n : Nat)
    (op : LogOp) : Post FileName KafkoError Log Reply where
  ok := fun reply log' w' => log'.config = log.config ∧ ∃ h', h.Accepts op reply h' ∧
    Refines X log' w'.store h'
      (if op = .sync then h.next else op.durableAfter log log' h.next n)
  err := fun e log' w' => log'.config = log.config ∧
    (∃ h', h.Rejects op h' ∧ Refines X log' w'.store h' (op.durableAfter log log' h.next n)) ∧
    (e = .compressionUnavailable log.config.compression ∧
      log.config.compression.isAvailable X = false ∨ ¬ env.Steady)
  panic := fun _ _ _ => False
  crash := fun log' w' => ¬ env.Alive ∧ ∃ h', h.Interrupted op log' h' ∧
    Recoverable X w'.store h' (op.durableAfter log log' h.next n)

theorem Refines.disk {d : Store FileName} (hRef : Refines X log d h n) : Recoverable X d h n := by
  obtain ⟨L, hLive, hSound, hRep, hn⟩ := hRef
  exact ⟨L, h, hLive.disk, hSound, hRep, rfl, List.prefix_rfl, hn⟩

theorem Refines.oldestBase {d : Store FileName} (hRef : Refines X log d h n) :
    log.oldestBase = h.oldest := by
  obtain ⟨L, hLive, -, hRep, -⟩ := hRef
  rw [hLive.oldestBase, hRep.oldest]

theorem Refines.nextOffset {d : Store FileName} (hRef : Refines X log d h n) :
    log.nextOffset = h.next := by
  obtain ⟨L, hLive, -, hRep, -⟩ := hRef
  rw [hLive.nextOffset, hRep.next]

theorem Refines.oldest_le {d : Store FileName} (hRef : Refines X log d h n) :
    h.oldest ≤ h.next := by
  obtain ⟨L, hLive, -, hRep, -⟩ := hRef
  exact hRep.oldest_le hLive.disk.chain

theorem Refines.weaken {d : Store FileName} (hRef : Refines X log d h n) {m : Nat} (hm : m ≤ n) :
    Refines X log d h m := by
  obtain ⟨L, hLive, hSound, hRep, hn⟩ := hRef
  exact ⟨L, hLive, hSound, hRep, hm.trans hn⟩

/-- The operations that append nothing leave a crash nothing to add. -/
theorem interrupted_self {op : LogOp} (hOp : op.records = []) (hRetain : op ≠ .applyRetention)
    (log' : Log) : h.Interrupted op log' h := by
  refine ⟨by simp [hOp], Nat.le_refl _, ?_⟩
  rw [if_neg hRetain]

theorem durableCount_self {log' : Log} (hCount : log'.segments.length = log.segments.length)
    (m : Nat) : durableCount log log' m n = n := by
  rw [durableCount, if_neg (by omega)]

theorem exec_append {r : Record} (hX : X.Lawful) (hClean : Clean env)
    (hRef : Refines X log w.store h n) (hOp : LogOp.Admissible X log (.append r)) :
    wp env (Log.append X r) (appendOutcome env X log h n (.append r) h.next) log w := by
  obtain ⟨L, hLive, hSound, hRep, hn⟩ := hRef
  rw [← hRep.next]
  refine appendOutcome_of_post hX hLive hSound hRep hn hOp rfl (Log.append_spec hClean hLive X r ?_)
  simp [LogOp.wireSize, LogOp.records]

theorem exec_appendBatch {rs : List Record} (hX : X.Lawful) (hClean : Clean env)
    (hRef : Refines X log w.store h n) (hOp : LogOp.Admissible X log (.appendBatch rs))
    (hNe : rs ≠ []) :
    wp env (Log.appendBatch X rs) (appendOutcome env X log h n (.appendBatch rs)
      (List.range' h.next rs.length)) log w := by
  obtain ⟨L, hLive, hSound, hRep, hn⟩ := hRef
  obtain ⟨r, rs, rfl⟩ := List.exists_cons_of_ne_nil hNe
  rw [← hRep.next]
  exact appendOutcome_of_post hX hLive hSound hRep hn hOp rfl
    (Log.appendBatch_spec hClean hLive X r rs rfl)

theorem exec_sync (hRef : Refines X log w.store h n) :
    wp env Log.sync
      { ok := fun _ log' w' => log' = log ∧ Refines X log w'.store h h.next
        err := fun _ log' w' => ¬ env.Steady ∧ log' = log ∧ Refines X log w'.store h n
        panic := fun _ _ _ => False
        crash := fun log' w' => ¬ env.Alive ∧ log' = log ∧ Recoverable X w'.store h n } log w := by
  obtain ⟨L, hLive, hSound, hRep, hn⟩ := hRef
  refine wp_mono (Log.sync_spec hLive) ?_ ?_ (fun _ _ _ hF => hF) ?_
  · rintro - log' w' ⟨rfl, hLive'⟩
    refine ⟨rfl, L.synced, hLive', hSound.synced, hRep.synced, ?_⟩
    exact Nat.le_of_eq hRep.next.symm
  · rintro e log' w' ⟨hNoisy, rfl, hLive'⟩
    exact ⟨hNoisy, rfl, L, hLive', hSound, hRep, hn⟩
  · rintro log' w' ⟨hNoisy, rfl, hDisk⟩
    exact ⟨hNoisy, rfl, L, h, hDisk, hSound, hRep, rfl, List.prefix_rfl, hn⟩

theorem exec_readRecordAt (hFull : env.FullReads) (hRef : Refines X log w.store h n)
    (offset : Nat) :
    wp env (Log.readRecordAt X offset)
      { ok := fun r log' w' => r = h.get offset ∧ Log.SameShape log log' ∧
          Refines X log' w'.store h n
        err := fun _ log' w' => ¬ env.Steady ∧ Log.SameShape log log' ∧ Refines X log' w'.store h n
        panic := fun _ _ _ => False
        crash := fun log' w' => ¬ env.Alive ∧ Log.SameShape log log' ∧
          Recoverable X w'.store h n } log w := by
  obtain ⟨L, hLive, hSound, hRep, hn⟩ := hRef
  have hReadable : ∀ c ∈ L.allChunks, ∀ f ∈ c.frames, Readable X f := fun c hc f hf =>
    hSound.readable f (Layout.mem_frames hc hf)
  refine wp_mono (Log.readRecordAt_spec hFull hLive offset fun c hc _ => hReadable c hc) ?_ ?_
    (fun _ _ _ hF => hF) ?_
  · rintro r log' w' ⟨rfl, hShape, hLive'⟩
    exact ⟨hRep.recordAt offset, hShape, L, hLive', hSound, hRep, hn⟩
  · rintro e log' w' ⟨hNoisy, hShape, hLive'⟩
    exact ⟨hNoisy, hShape, L, hLive', hSound, hRep, hn⟩
  · rintro log' w' ⟨hNoisy, hShape, hDisk⟩
    exact ⟨hNoisy, hShape, L, h, hDisk, hSound, hRep, rfl, List.prefix_rfl, hn⟩

theorem exec_applyRetention (hClean : Clean env) (hRef : Refines X log w.store h n) :
    wp env Log.applyRetention
      { ok := fun _ log' w' => log'.config = log.config ∧ ∃ oldest, h.oldest ≤ oldest ∧
          oldest ≤ h.next ∧ Refines X log' w'.store (h.retire oldest) n
        err := fun _ log' w' => ¬ env.Steady ∧ log'.config = log.config ∧ ∃ oldest,
          h.oldest ≤ oldest ∧ oldest ≤ h.next ∧ Refines X log' w'.store (h.retire oldest) n
        panic := fun _ _ _ => False
        crash := fun log' w' => ¬ env.Alive ∧ ∃ oldest, h.oldest ≤ oldest ∧
          oldest ≤ log'.oldestBase ∧ Recoverable X w'.store (h.retire oldest) n } log w := by
  obtain ⟨L, hLive, hSound, hRep, hn⟩ := hRef
  have hChain := hLive.disk.chain
  have hLower : ∀ k, h.oldest ≤ (L.retire k).oldest := by
    intro k
    rw [← hRep.oldest]
    exact (Layout.frames_retire hChain k).1
  have hDurable : ∀ k, n ≤ (L.retire k).durableOffset := by
    intro k
    unfold Layout.durableOffset
    rw [Layout.active_retire, Layout.durable_retire]
    exact hn
  have hKeep : ∀ k log' d, Live log' d (L.retire k) → ∃ oldest, h.oldest ≤ oldest ∧
      oldest ≤ h.next ∧ Refines X log' d (h.retire oldest) n := by
    intro k log' d hLive'
    have hRep' := hRep.retire hChain k
    exact ⟨_, hLower k, hRep'.oldest_le hLive'.disk.chain, _, hLive', hSound.retire hChain k,
      hRep', hDurable k⟩
  refine wp_mono (Log.applyRetention_spec hClean hLive) ?_ ?_ (fun _ _ _ hF => hF) ?_
  · rintro k log' w' ⟨hConfig, hLive', -⟩
    exact ⟨hConfig, hKeep k log' _ hLive'⟩
  · rintro e log' w' ⟨hNoisy, hConfig, ⟨k, hLive'⟩, -⟩
    exact ⟨hNoisy, hConfig, hKeep k log' _ hLive'⟩
  · rintro log' w' ⟨hNoisy, k, k', hLe, hDisk, hBase⟩
    refine ⟨hNoisy, _, hLower k, ?_, _, _, hDisk, hSound.retire hChain k, hRep.retire hChain k, rfl,
      List.prefix_rfl, hDurable k⟩
    obtain ⟨m, rfl⟩ := Nat.exists_eq_add_of_le hLe
    rw [hBase, Layout.retire_add]
    exact (Layout.frames_retire hDisk.chain m).1

/-- The step lemma: every operation of a refining log follows the history. -/
theorem exec_spec (hX : X.Lawful) (hClean : Clean env) (hRef : Refines X log w.store h n)
    {op : LogOp} (hOp : op.Admissible X log) :
    wp env (op.exec X) (execPost env X log h n op) log w := by
  cases op with
  | append r =>
    refine wp_bind_of (exec_append hX hClean hRef hOp) ?_ ?_ (fun _ _ _ hF => hF) ?_
    · rintro o log' w' ⟨rfl, hConfig, -, hRef'⟩
      exact ⟨hConfig, _, History.Accepts.append r, hRef'⟩
    · rintro e log' w' ⟨hConfig, hRef', hWhy⟩
      exact ⟨hConfig, ⟨h, History.Rejects.unchanged _, hRef'⟩, hWhy⟩
    · rintro log' w' ⟨hNoisy, hRec⟩
      exact ⟨hNoisy, h.append _, ⟨rfl, Nat.le_refl _, rfl⟩, hRec⟩
  | appendBatch rs =>
    by_cases hNil : rs = []
    · subst hNil
      refine ⟨rfl, _, History.Accepts.appendBatch [], ?_⟩
      rw [if_neg (by simp), LogOp.durableAfter, durableCount_self rfl]
      simpa [History.append] using hRef
    · refine wp_bind_of (exec_appendBatch hX hClean hRef hOp hNil) ?_ ?_ (fun _ _ _ hF => hF) ?_
      · rintro os log' w' ⟨rfl, hConfig, -, hRef'⟩
        exact ⟨hConfig, _, History.Accepts.appendBatch rs, hRef'⟩
      · rintro e log' w' ⟨hConfig, hRef', hWhy⟩
        exact ⟨hConfig, ⟨h, History.Rejects.unchanged _, hRef'⟩, hWhy⟩
      · rintro log' w' ⟨hNoisy, hRec⟩
        exact ⟨hNoisy, h.append _, ⟨rfl, Nat.le_refl _, rfl⟩, hRec⟩
  | sync =>
    refine wp_bind_of (exec_sync hRef) ?_ ?_ (fun _ _ _ hF => hF) ?_
    · rintro - log' w' ⟨rfl, hRef'⟩
      exact ⟨rfl, h, History.Accepts.sync, hRef'⟩
    · rintro e log' w' ⟨hNoisy, rfl, hRef'⟩
      exact ⟨rfl, ⟨h, History.Rejects.unchanged _, hRef'⟩, Or.inr hNoisy⟩
    · rintro log' w' ⟨hNoisy, rfl, hRec⟩
      exact ⟨hNoisy, h, interrupted_self rfl (by simp) _, hRec⟩
  | readRecordAt offset =>
    refine wp_bind_of (exec_readRecordAt hClean.fullReads hRef offset) ?_ ?_ (fun _ _ _ hF => hF) ?_
    · rintro r log' w' ⟨rfl, hShape, hRef'⟩
      exact ⟨hShape.config, h, History.Accepts.read offset, hRef'⟩
    · rintro e log' w' ⟨hNoisy, hShape, hRef'⟩
      exact ⟨hShape.config, ⟨h, History.Rejects.unchanged _, hRef'⟩, Or.inr hNoisy⟩
    · rintro log' w' ⟨hNoisy, hShape, hRec⟩
      exact ⟨hNoisy, h, interrupted_self rfl (by simp) _, hRec⟩
  | applyRetention =>
    refine wp_bind_of (exec_applyRetention hClean hRef) ?_ ?_ (fun _ _ _ hF => hF) ?_
    · rintro k log' w' ⟨hConfig, oldest, hLe, hNext, hRef'⟩
      exact ⟨hConfig, _, History.Accepts.retain k oldest hLe hNext, hRef'⟩
    · rintro e log' w' ⟨hNoisy, hConfig, oldest, hLe, hNext, hRef'⟩
      exact ⟨hConfig, ⟨_, History.Rejects.retain oldest hLe hNext, hRef'⟩, Or.inr hNoisy⟩
    · rintro log' w' ⟨hNoisy, oldest, hLe, hStop, hRec⟩
      refine ⟨hNoisy, _, ⟨?_, hLe, ?_⟩, hRec⟩
      · simp [LogOp.records, History.retire]
      · rw [if_pos rfl]
        exact hStop

end Kafko
