import Kafko.Storage.Appends

/-!
# The size cap of a segment

A log rotates when the wire size of a call would push its active segment past the threshold, but
the segment grows by the encoded size. A segment that holds more than one call can be larger than
the threshold exactly if, for some call, the codec stores more than the estimate allows for.
-/

namespace Kafko

open Disk

/-! ## Estimate and size -/

/-- The bytes that stand for a value in the frame. -/
def Compression.stored (X : Crates) (c : Compression) (value : Bytes) : Bytes :=
  match c.compress X value with
  | .ok bytes => bytes
  | _ => []

/-- The wire size of the record with the stored bytes for its value. -/
def Record.storedSize (X : Crates) (c : Compression) (r : Record) : Nat :=
  wireSize { r with value := c.stored X r.value }

/-- The size of the segment that the next record goes to, unless the log rotates. -/
def Log.activeSize (log : Log) : Nat :=
  match log.segments.getLast? with
  | none => 0
  | some active => active.segment.size

/-- If the estimate lets a call into a segment that is in use, then the stored bytes may go there
as well. -/
def AppendCall.EstimateHolds (X : Crates) (log : Log) (call : AppendCall) : Prop :=
  0 < log.activeSize →
    log.activeSize + (call.records.map Record.wireSize).sum ≤ log.config.segmentSizeThreshold →
    log.activeSize + (call.records.map (Record.storedSize X log.config.compression)).sum ≤
      log.config.segmentSizeThreshold

instance (X : Crates) (log : Log) (call : AppendCall) : Decidable (call.EstimateHolds X log) :=
  inferInstanceAs (Decidable (_ → _ → _))

theorem Record.length_wire_stored {X : Crates} {c : Compression} {r : Record} {bytes : Bytes}
    (h : r.wire X c = .ok bytes) : bytes.length = r.storedSize X c := by
  obtain ⟨valBytes, hStored, rfl⟩ := wire_eq_ok.mp h
  rw [length_frameBytes, storedSize, Compression.stored, hStored, wireSize, keyLen]
  cases r.key with
  | none =>
    dsimp only
  | some k =>
    dsimp only
    omega

theorem sizes_framesOf {X : Crates} {c : Compression} (hc : c.isAvailable X = true)
    (rs : List Record) : sizes (framesOf X c rs) = rs.map (Record.storedSize X c) := by
  induction rs with
  | nil => rfl
  | cons r rs ih =>
    obtain ⟨bytes, hOk⟩ := Record.wire_isAvailable hc r
    rw [framesOf_cons hOk, List.map_cons, ← ih, ← Record.length_wire_stored hOk]
    rfl

theorem span_framesOf {X : Crates} {c : Compression} (hc : c.isAvailable X = true)
    (rs : List Record) : span (framesOf X c rs) = (rs.map (Record.storedSize X c)).sum := by
  rw [← sizes_framesOf hc, SparseIndex.sum_sizes]

/-- Without compression the estimate is exact. -/
theorem AppendCall.estimateHolds_none {X : Crates} {log : Log} (call : AppendCall)
    (hNone : log.config.compression = .none) : call.EstimateHolds X log := by
  intro _ hRoom
  rw [hNone]
  exact hRoom

/-! ## Who has written to a segment -/

/-- The size of the segment with the given base offset, or 0 if there is none. -/
def Log.sizeAt (log : Log) (base : Nat) : Nat := (log.segmentSizes.lookup base).getD 0

/-- The segment of the given base offset has grown in this call. -/
def AppendMove.writes (m : AppendMove) (base : Nat) : Bool :=
  m.before.sizeAt base != m.after.sizeAt base

/-- The number of calls that have written to a segment. -/
def writers (done : List AppendMove) (base : Nat) : Nat := done.countP fun m => m.writes base

/-- Every segment is within the threshold or holds the bytes of a single call. -/
def Log.Capped (log : Log) (threshold : Nat) (done : List AppendMove) : Prop :=
  ∀ p ∈ log.segments, p.segment.size ≤ threshold ∨ writers done p.segment.baseOffset ≤ 1

instance (log : Log) (threshold : Nat) (done : List AppendMove) :
    Decidable (log.Capped threshold done) :=
  inferInstanceAs (Decidable (∀ p ∈ log.segments, _ ∨ _))

/-- The log after some calls. -/
def Log.afterMoves (log : Log) (done : List AppendMove) : Log :=
  (done.getLast?.map AppendMove.after).getD log

namespace Layout

variable {L : Layout}

def sizeAt (L : Layout) (base : Nat) : Nat := (L.segmentSizes.lookup base).getD 0

theorem segmentSizes_rotate (L : Layout) :
    L.rotate.segmentSizes = L.segmentSizes ++ [(L.next, 0)] := by
  simp [segmentSizes, allChunks, rotate]

theorem lookup_sealed (hChain : Chain L.oldest L.chunks L.active.base) :
    (L.chunks.map fun c => (c.base, span c.frames)).lookup L.active.base = none := by
  rw [List.lookup_eq_none_iff]
  intro e he
  obtain ⟨c, hc, rfl⟩ := List.mem_map.mp he
  have hNe := hChain.base_ne hc
  simpa using Ne.symm hNe

theorem sizeAt_active (hChain : Chain L.oldest L.chunks L.active.base) :
    L.sizeAt L.active.base = span L.active.frames := by
  rw [sizeAt, segmentSizes, allChunks, List.map_append, List.lookup_append, lookup_sealed hChain]
  simp

theorem sizeAt_push (hChain : Chain L.oldest L.chunks L.active.base) (gs : List LogFrame)
    (base : Nat) : (L.push gs).sizeAt base =
      L.sizeAt base + if base = L.active.base then span gs else 0 := by
  by_cases hBase : base = L.active.base
  · have hPush := sizeAt_active (L := L.push gs) hChain
    rw [if_pos hBase, hBase, sizeAt_active hChain, ← span_append]
    exact hPush
  · have hOther : (base == L.active.base) = false := by simpa using hBase
    rw [if_neg hBase, Nat.add_zero, sizeAt, sizeAt, segmentSizes, segmentSizes, allChunks,
      allChunks, List.map_append, List.map_append, List.lookup_append, List.lookup_append]
    simp [push, hOther]

theorem sizeAt_rotate (L : Layout) (base : Nat) : L.rotate.sizeAt base = L.sizeAt base := by
  rw [sizeAt, sizeAt, segmentSizes_rotate, List.lookup_append]
  cases L.segmentSizes.lookup base with
  | some size => rfl
  | none =>
    rw [Option.none_or]
    by_cases hBase : base = L.next
    · simp [hBase]
    · have hOther : (base == L.next) = false := by simpa using hBase
      simp [List.lookup_cons, hOther]

theorem chain_target (hChain : Chain L.oldest L.chunks L.active.base) (n threshold : Nat) :
    Chain (L.target (L.overflows n threshold)).oldest (L.target (L.overflows n threshold)).chunks
      (L.target (L.overflows n threshold)).active.base := by
  cases hRotates : L.overflows n threshold with
  | false => exact hChain
  | true =>
    refine Chain.append_iff.mpr ⟨hChain, ?_, rfl⟩
    intro hNil
    simp [overflows, hNil] at hRotates

theorem chain_written {X : Crates} {config : LogConfig}
    (hChain : Chain L.oldest L.chunks L.active.base) (rs : List Record) :
    Chain (L.written X config rs).oldest (L.written X config rs).chunks
      (L.written X config rs).active.base := by
  rw [written]
  split
  · exact hChain
  · exact chain_target hChain _ _

/-- A call adds the size of its frames to one segment. That segment is new or empty, or it is the
active one and the estimate has let the call in. -/
theorem written_sizeAt {X : Crates} {config : LogConfig}
    (hCodec : config.compression.isAvailable X = true)
    (hChain : Chain L.oldest L.chunks L.active.base) (rs : List Record) :
    ∃ target, (∀ base, (L.written X config rs).sizeAt base = L.sizeAt base +
        if base = target then (rs.map (Record.storedSize X config.compression)).sum else 0) ∧
      L.sizeAt target = if 0 < span L.active.frames ∧ span L.active.frames +
        (rs.map Record.wireSize).sum ≤ config.segmentSizeThreshold
        then span L.active.frames else 0 := by
  have hTarget := chain_target hChain (rs.map Record.wireSize).sum config.segmentSizeThreshold
  have hSame : ∀ base, (L.target (L.overflows (rs.map Record.wireSize).sum
      config.segmentSizeThreshold)).sizeAt base = L.sizeAt base := by
    intro base
    cases L.overflows (rs.map Record.wireSize).sum config.segmentSizeThreshold with
    | false => rfl
    | true => exact L.sizeAt_rotate base
  refine ⟨(L.target (L.overflows (rs.map Record.wireSize).sum
    config.segmentSizeThreshold)).active.base, ?_, ?_⟩
  · intro base
    cases rs with
    | nil => simp [written]
    | cons r rs =>
      rw [← hSame, ← span_framesOf hCodec]
      exact sizeAt_push hTarget _ base
  · rw [← hSame, sizeAt_active hTarget]
    by_cases hEmpty : span L.active.frames = 0
    · rw [if_neg (by omega), overflows, if_pos hEmpty]
      exact hEmpty
    · rw [overflows, if_neg hEmpty]
      by_cases hRoom : span L.active.frames + (rs.map Record.wireSize).sum ≤
          config.segmentSizeThreshold
      · rw [if_pos ⟨by omega, hRoom⟩, decide_eq_false (by omega)]
        rfl
      · rw [if_neg (by omega), decide_eq_true (by omega)]
        rfl

end Layout

/-! ## One call -/

section

variable {X : Crates} {log : Log} {L : Layout} {done : List AppendMove} {m : AppendMove}

theorem Log.activeSize_of_sizes (h : log.segmentSizes = L.segmentSizes) :
    log.activeSize = span L.active.frames := by
  have hLast : log.segmentSizes.getLast? = some (L.active.base, span L.active.frames) := by
    rw [h, Layout.segmentSizes, Layout.allChunks, List.map_append, List.map_singleton,
      List.getLast?_concat]
  rw [Log.segmentSizes, List.getLast?_map] at hLast
  obtain ⟨p, hp, hSize⟩ := Option.map_eq_some_iff.mp hLast
  rw [Log.activeSize, hp]
  exact congrArg Prod.snd hSize

theorem Log.sizeAt_of_sizes (h : log.segmentSizes = L.segmentSizes) (base : Nat) :
    log.sizeAt base = L.sizeAt base := by
  rw [Log.sizeAt, h, Layout.sizeAt]

/-- Segments have different base offsets, so each is found under its own. -/
theorem Log.capped_iff {threshold : Nat} (h : log.segmentSizes = L.segmentSizes)
    (hChain : Chain L.oldest L.chunks L.active.base) : log.Capped threshold done ↔
      ∀ base, log.sizeAt base ≤ threshold ∨ writers done base ≤ 1 := by
  have hSorted : log.segmentSizes.Pairwise fun a b => a.1 < b.1 := by
    rw [h, Layout.segmentSizes, List.pairwise_map]
    exact Layout.allChunks_sorted hChain
  constructor
  · intro hCapped base
    cases hFound : log.segmentSizes.lookup base with
    | none =>
      rw [Log.sizeAt, hFound]
      exact Or.inl (Nat.zero_le _)
    | some size =>
      obtain ⟨l₁, l₂, hSplit, -⟩ := List.lookup_eq_some_iff.mp hFound
      have hMem : (base, size) ∈ log.segmentSizes := by simp [hSplit]
      obtain ⟨p, hp, hEq⟩ := List.mem_map.mp hMem
      obtain ⟨rfl, rfl⟩ := Prod.mk.inj hEq
      rw [Log.sizeAt, hFound]
      exact hCapped p hp
  · intro hAll p hp
    have hMem : (p.segment.baseOffset, p.segment.size) ∈ log.segmentSizes :=
      List.mem_map_of_mem hp
    obtain ⟨l₁, l₂, hSplit⟩ := List.append_of_mem hMem
    rw [hSplit, List.pairwise_append] at hSorted
    have hFound : log.segmentSizes.lookup p.segment.baseOffset = some p.segment.size := by
      refine List.lookup_eq_some_iff.mpr ⟨l₁, l₂, hSplit, ?_⟩
      intro e he
      have := hSorted.2.2 e he _ List.mem_cons_self
      simp
      omega
    have hSize : log.sizeAt p.segment.baseOffset = p.segment.size := by
      rw [Log.sizeAt, hFound, Option.getD_some]
    rw [← hSize]
    exact hAll _

/-- A segment has a size exactly if some call has written to it. -/
def Accounted (done : List AppendMove) (log : Log) : Prop :=
  ∀ base, writers done base = 0 ↔ log.sizeAt base = 0

theorem writers_snoc (done : List AppendMove) (m : AppendMove) (base : Nat) :
    writers (done ++ [m]) base = writers done base + if m.writes base then 1 else 0 := by
  simp [writers, List.countP_append, List.countP_cons]

/-- One call keeps the account, and from a log within the cap it leads to such a log exactly if
its estimate holds. -/
theorem capped_step (hCodec : m.before.config.compression.isAvailable X = true)
    (hBefore : m.before.segmentSizes = L.segmentSizes)
    (hChain : Chain L.oldest L.chunks L.active.base)
    (hAfter : m.after.segmentSizes =
      (L.written X m.before.config m.call.records).segmentSizes)
    (hDone : Accounted done m.before)
    (hCapped : m.before.Capped m.before.config.segmentSizeThreshold done) :
    Accounted (done ++ [m]) m.after ∧
      (m.after.Capped m.before.config.segmentSizeThreshold (done ++ [m]) ↔
        m.call.EstimateHolds X m.before) := by
  obtain ⟨target, hGrows, hTarget⟩ := Layout.written_sizeAt hCodec hChain m.call.records
  have hSize : ∀ base, m.after.sizeAt base = m.before.sizeAt base + if base = target then
      (m.call.records.map (Record.storedSize X m.before.config.compression)).sum else 0 := by
    intro base
    rw [Log.sizeAt_of_sizes hAfter, Log.sizeAt_of_sizes hBefore]
    exact hGrows base
  rw [← Log.sizeAt_of_sizes hBefore, ← Log.activeSize_of_sizes hBefore] at hTarget
  rw [Log.capped_iff hAfter (Layout.chain_written hChain _), AppendCall.EstimateHolds]
  rw [Log.capped_iff hBefore hChain] at hCapped
  generalize (m.call.records.map (Record.storedSize X m.before.config.compression)).sum = stored
    at hSize ⊢
  generalize (m.call.records.map Record.wireSize).sum = estimate at hTarget ⊢
  have hWrites : ∀ base, writers (done ++ [m]) base =
      writers done base + if base = target ∧ 0 < stored then 1 else 0 := by
    intro base
    have hGrown : m.writes base = true ↔ base = target ∧ 0 < stored := by
      rw [AppendMove.writes, bne_iff_ne, Ne, hSize]
      split <;> omega
    rw [writers_snoc]
    simp only [hGrown]
  refine ⟨?_, ?_⟩
  · intro base
    have hBase := hDone base
    rw [hWrites, hSize]
    split <;> split <;> omega
  · have hFirst := hDone target
    constructor
    · intro hAll hUsed hRoom
      rw [if_pos ⟨hUsed, hRoom⟩] at hTarget
      rcases Nat.eq_zero_or_pos stored with hNone | hSome
      · omega
      · -- the target holds an earlier call already
        have hNow := hAll target
        rw [hSize, hWrites, if_pos rfl, if_pos ⟨rfl, hSome⟩] at hNow
        omega
    · intro hHolds base
      have hBase := hCapped base
      rw [hSize, hWrites]
      by_cases hGrown : base = target ∧ 0 < stored
      · obtain ⟨rfl, hSome⟩ := hGrown
        rw [if_pos rfl, if_pos ⟨rfl, hSome⟩]
        by_cases hRoom : 0 < m.before.activeSize ∧
            m.before.activeSize + estimate ≤ m.before.config.segmentSizeThreshold
        · have := hHolds hRoom.1 hRoom.2
          rw [if_pos hRoom] at hTarget
          omega
        · rw [if_neg hRoom] at hTarget
          omega
      · rw [if_neg hGrown]
        split <;> omega

/-! ## Runs -/

theorem Log.afterMoves_cons (log : Log) (m : AppendMove) (ms : List AppendMove) :
    log.afterMoves (m :: ms) = m.after.afterMoves ms := by
  cases ms with
  | nil => rfl
  | cons m' ms => simp [Log.afterMoves, List.getLast?_cons]

/-- The first call, then the rest: if the rest stays within the cap from a log that is, then so
does the whole run. -/
theorem capped_cons_iff {threshold : Nat} {ms : List AppendMove}
    (hCapped : log.Capped threshold done)
    (hFirst : m.after.Capped threshold (done ++ [m]) ↔ m.call.EstimateHolds X m.before)
    (hRest : m.after.Capped threshold (done ++ [m]) →
      ((∀ taken, taken <+: ms →
          (m.after.afterMoves taken).Capped threshold (done ++ [m] ++ taken)) ↔
        ∀ m' ∈ ms, m'.call.EstimateHolds X m'.before)) :
    (∀ taken, taken <+: m :: ms → (log.afterMoves taken).Capped threshold (done ++ taken)) ↔
      ∀ m' ∈ m :: ms, m'.call.EstimateHolds X m'.before := by
  have hSnoc : ∀ taken, done ++ [m] ++ taken = done ++ m :: taken := by simp
  constructor
  · intro hAll
    have hAfter : m.after.Capped threshold (done ++ [m]) := hAll [m] (by simp)
    refine List.forall_mem_cons.mpr ⟨hFirst.mp hAfter, (hRest hAfter).mp ?_⟩
    intro taken hTaken
    rw [hSnoc, ← Log.afterMoves_cons log]
    exact hAll (m :: taken) (List.cons_prefix_cons.mpr ⟨rfl, hTaken⟩)
  · intro hHolds taken hTaken
    obtain ⟨hHere, hLater⟩ := List.forall_mem_cons.mp hHolds
    cases taken with
    | nil =>
      rw [List.append_nil]
      exact hCapped
    | cons first taken =>
      obtain ⟨rfl, hRestTaken⟩ := List.cons_prefix_cons.mp hTaken
      rw [Log.afterMoves_cons, ← hSnoc]
      exact (hRest (hFirst.mpr hHere)).mpr hLater taken hRestTaken

/-- From a log within the cap on, the log stays within the cap exactly if all estimates hold. -/
theorem capped_moves_iff {env : Env FileName} (hEnv : env.Quiet) (calls : List AppendCall)
    {w : World FileName} (hLive : Live log w.store L)
    (hCodec : log.config.compression.isAvailable X = true) (hDone : Accounted done log)
    (hCapped : log.Capped log.config.segmentSizeThreshold done) :
    (∀ taken, taken <+: appendMoves X env calls log w →
        (log.afterMoves taken).Capped log.config.segmentSizeThreshold (done ++ taken)) ↔
      ∀ m ∈ appendMoves X env calls log w, m.call.EstimateHolds X m.before := by
  induction calls generalizing done log w L with
  | nil => simpa [appendMoves, Log.afterMoves] using hCapped
  | cons call calls ih =>
    have hStep := fun r log' hSizes => @capped_step X L done ⟨call, log, r, log'⟩ hCodec
      hLive.segmentSizes hLive.disk.chain hSizes hDone hCapped
    rw [appendMoves]
    rcases call.exec_cases hEnv hLive hCodec with
      ⟨reply, log', w', hRun, -, hConfig, hLive'⟩ | ⟨message, log', w', hRun, -, hSizes⟩
    · rw [hRun]
      obtain ⟨hDone', hFirst⟩ := hStep (.ok reply) log' hLive'.segmentSizes
      apply capped_cons_iff hCapped hFirst
      intro hCapped'
      rw [← hConfig] at hCodec hCapped' ⊢
      exact ih hLive' hCodec hDone' hCapped'
    · rw [hRun]
      obtain ⟨-, hFirst⟩ := hStep (.panic message) log' hSizes
      apply capped_cons_iff hCapped hFirst
      intro hCapped'
      simpa [Log.afterMoves] using hCapped'

/-- A new log stays within the cap as long as no call is let into a segment in use on an estimate
that is too small. The bytes of a call that panics count. -/
theorem cap_respected_iff {env : Env FileName} (hEnv : env.Quiet) {config : LogConfig}
    (hCodec : config.compression.isAvailable X = true) {w w' : World FileName}
    (hFresh : Fresh w.store) (hOpen : Log.open_ X config env () w = (.ok log, (), w'))
    (calls : List AppendCall) :
    (∀ done, done <+: appendMoves X env calls log w' →
        (log.afterMoves done).Capped config.segmentSizeThreshold done) ↔
      ∀ m ∈ appendMoves X env calls log w', m.call.EstimateHolds X m.before := by
  obtain ⟨-, rfl, hLive⟩ := ok_of_wp (Log.open_fresh_spec hFresh config) hOpen
  have hSizes := hLive.segmentSizes
  have hNone : ∀ base, log.sizeAt base = 0 := by
    intro base
    rw [Log.sizeAt_of_sizes hSizes]
    by_cases hBase : base = 0
    · rw [hBase]
      rfl
    · have hOther : (base == 0) = false := by simpa using hBase
      simp [Layout.sizeAt, Layout.segmentSizes, Layout.allChunks, Layout.initial, hOther]
  refine @capped_moves_iff X log _ [] env hEnv calls _ hLive hCodec ?_ ?_
  · intro base
    simp [writers, hNone]
  · rw [Log.capped_iff hSizes hLive.disk.chain]
    intro base
    rw [hNone]
    exact Or.inl (Nat.zero_le _)

end

/-! ## A segment that is too large -/

def smallLz4Segments : LogConfig := { smallSegments with compression := .lz4 }

/-- A batch alone in its segment may be larger than the threshold of 60 bytes. -/
theorem cap_respected_iff_batch :
    ∃ log w, Log.open_ Crates.literalLz4 smallLz4Segments Env.quiet () ⟨Store.empty, 0⟩ =
        (.ok log, (), w) ∧
      (appendMoves Crates.literalLz4 Env.quiet
        [.appendBatch [sampleRecord 1, sampleRecord 2], .append (sampleRecord 3)] log
        w).length = 2 ∧
      ∀ done, done <+: appendMoves Crates.literalLz4 Env.quiet
          [.appendBatch [sampleRecord 1, sampleRecord 2], .append (sampleRecord 3)] log w →
        (log.afterMoves done).Capped 60 done := by
  refine ⟨_, _, rfl, by decide +kernel, ?_⟩
  refine (@cap_respected_iff Crates.literalLz4 _ Env.quiet Env.quiet_quiet smallLz4Segments rfl
    ⟨Store.empty, 0⟩ _ (fun name => Store.get_empty name) rfl _).mpr ?_
  decide +kernel

/-- LZ4 stores a value of one byte in six, so the second of two small records is let in and the
segment has 62 bytes. -/
theorem compressed_records_exceed_cap :
    ∃ log w, Log.open_ Crates.literalLz4 smallLz4Segments Env.quiet () ⟨Store.empty, 0⟩ =
        (.ok log, (), w) ∧
      ¬ ∀ done, done <+: appendMoves Crates.literalLz4 Env.quiet
          [.append (sampleRecord 1), .append (sampleRecord 2)] log w →
        (log.afterMoves done).Capped 60 done := by
  refine ⟨_, _, rfl, ?_⟩
  intro hCapped
  exact absurd (hCapped _ (List.prefix_refl _)) (by decide +kernel)

end Kafko
