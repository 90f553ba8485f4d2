import Kafko.Storage.Operations

/-!
# Runs of a log that nothing disturbs

A run executes operations one after the other on the log `Log.create` made. The records
acknowledged so far are the history the log refines; every property of a run is read off
that refinement at its end, and since every prefix of a run is a run, it holds in between.
-/

namespace Kafko

open Disk

/-- Executes operations in order; an operation that fails does not stop the run. -/
def runOps (X : Crates) (env : Env FileName) :
    List LogOp → Log → World FileName → List (Res KafkoError Reply) × Log × World FileName
  | [], log, w => ([], log, w)
  | op :: ops, log, w =>
    match op.exec X env log w with
    | (r, log', w') =>
      match runOps X env ops log' w' with
      | (rs, log'', w'') => (r :: rs, log'', w'')

/-- Every operation of the run is admissible when its turn comes. -/
def AdmissibleRun (X : Crates) (env : Env FileName) :
    List LogOp → Log → World FileName → Prop
  | [], _, _ => True
  | op :: ops, log, w => op.Admissible X log ∧
      AdmissibleRun X env ops (op.exec X env log w).2.1 (op.exec X env log w).2.2

instance (X : Crates) (log : Log) (op : LogOp) : Decidable (op.Admissible X log) :=
  decidable_of_iff ((∀ r ∈ op.records, r.Storable X log.config.compression) ∧
      PositionsOk (log.writePosition op.wireSize) (framesOf X log.config.compression op.records))
    ⟨fun h => ⟨h.1, h.2⟩, fun h => ⟨h.storable, h.positions⟩⟩

instance AdmissibleRun.decidable (X : Crates) (env : Env FileName) :
    (ops : List LogOp) → (log : Log) → (w : World FileName) →
      Decidable (AdmissibleRun X env ops log w)
  | [], _, _ => isTrue trivial
  | _ :: ops, _, _ =>
    @instDecidableAnd _ _ _ (AdmissibleRun.decidable X env ops _ _)

/-- The records of the appends that returned a value, in order. -/
def acknowledged : List LogOp → List (Res KafkoError Reply) → List Record
  | op :: ops, r :: rs =>
    (match r with
      | .ok _ => op.records
      | _ => []) ++ acknowledged ops rs
  | _, _ => []

/-- The offsets a reply hands out. -/
def Reply.given : Reply → List Nat
  | offset o => [o]
  | offsets os => os
  | _ => []

/-- The offsets handed out by a run, in order. -/
def givenOffsets (rs : List (Res KafkoError Reply)) : List Nat :=
  rs.flatMap fun
    | .ok reply => reply.given
    | _ => []

/-! ## What a segment file holds -/

/-- Decodes a whole file, or fails. -/
def decodeAll (X : Crates) : Nat → Bytes → Option (List Record)
  | 0, bytes => if bytes.isEmpty then some [] else none
  | fuel + 1, bytes =>
    if bytes.isEmpty then some []
    else match Record.decode X bytes with
      | .ok (record, rest) => (decodeAll X fuel rest).map (record :: ·)
      | _ => none

/-- The records in the `.log` file of a segment. -/
def segmentRecords (X : Crates) (d : Store FileName) (base : Nat) : Option (List Record) :=
  (d.get (.log base)).bind fun f => decodeAll X f.data.length f.data

/-- The offset behind the last record of the `i`-th segment: the base of the next one, or the
next offset of the log. -/
def Log.endOfSegment (log : Log) (i : Nat) : Nat :=
  ((log.segments[i + 1]?).map fun p => p.segment.baseOffset).getD log.nextOffset

theorem decodeAll_flat {X : Crates} {fs : List LogFrame} (h : ∀ f ∈ fs, Readable X f) {fuel : Nat}
    (hFuel : fs.length ≤ fuel) : decodeAll X fuel (flat fs) = some (fs.map Frame.record) := by
  induction fs generalizing fuel with
  | nil => cases fuel <;> rfl
  | cons f fs ih =>
    obtain ⟨fuel, rfl⟩ : ∃ n, fuel = n + 1 := ⟨fuel - 1, by simp at hFuel; omega⟩
    have hNe : (flat (f :: fs)).isEmpty = false := by
      simp [f.nonempty]
    rw [decodeAll, hNe, flat_cons, h f List.mem_cons_self]
    simp only [Bool.false_eq_true, if_false]
    rw [ih (fun g hg => h g (List.mem_cons_of_mem _ hg)) (by simpa using hFuel)]
    rfl

variable {X : Crates} {env : Env FileName} {log : Log} {w : World FileName} {h : History Record}
  {n : Nat} {d : Store FileName}

/-- The frames of a chunk are the records from its base on. -/
theorem Represents.chunk_records {L : Layout} (hRep : Represents L h)
    (hChain : Chain L.oldest L.chunks L.active.base) {c : Chunk} (hc : c ∈ L.allChunks) :
    c.frames.map Frame.record = (h.records.drop c.base).take (c.next - c.base) := by
  have hOldest := Layout.oldest_le hChain hc
  have hNext : c.next = c.base + c.frames.length := rfl
  refine List.ext_getElem? fun i => ?_
  rw [List.getElem?_map, List.getElem?_take]
  by_cases hi : i < c.frames.length
  · have hAt : (h.records.drop h.oldest)[c.base - L.oldest + i]? =
        (L.frames[c.base - L.oldest + i]?).map Frame.record := by
      rw [← hRep.records, List.getElem?_map]
    rw [if_pos (by omega), ← Layout.getElem?_frames hChain hc hi, ← hAt, List.getElem?_drop,
      List.getElem?_drop, ← hRep.oldest]
    congr 1
    omega
  · rw [if_neg (by omega), List.getElem?_eq_none (by omega)]
    rfl

theorem Refines.segments_sorted (hRef : Refines X log d h n) :
    (log.segments.map fun p => p.segment.baseOffset).Pairwise (· < ·) := by
  obtain ⟨L, hLive, -⟩ := hRef
  rw [Log.baseOffsets_eq hLive.loaded]
  exact List.pairwise_map.mpr (Layout.allChunks_sorted hLive.disk.chain)

/-- A segment holds exactly the records from its base up to the base of the next one. -/
theorem Refines.segment_holds (hRef : Refines X log d h n) {i : Nat} {p : IndexedSegment}
    (hp : log.segments[i]? = some p) :
    segmentRecords X d p.segment.baseOffset = some ((h.records.drop p.segment.baseOffset).take
      (log.endOfSegment i - p.segment.baseOffset)) := by
  obtain ⟨L, hLive, hSound, hRep, -⟩ := hRef
  have hChain := hLive.disk.chain
  obtain ⟨c, hc, hLoaded⟩ := loaded_at hLive.loaded hp
  have hMem := List.mem_of_getElem? hc
  have hReadable : ∀ f ∈ c.frames, Readable X f := fun f hf =>
    hSound.readable f (Layout.mem_frames hMem hf)
  have hEnd : log.endOfSegment i = c.next := by
    have hKey : (log.segments[i + 1]?).map (fun p => p.segment.baseOffset) =
        (L.allChunks[i + 1]?).map Chunk.base := by
      rw [← List.getElem?_map, ← List.getElem?_map, Log.baseOffsets_eq hLive.loaded]
    rw [Log.endOfSegment, hKey]
    rcases Layout.next_chunk hChain hc with ⟨hActive, hNone⟩ | ⟨c', hc', hNext⟩
    · rw [hNone, Option.map_none, Option.getD_none, hLive.nextOffset, hActive]
      rfl
    · rw [hc', Option.map_some, Option.getD_some, hNext]
  obtain ⟨f, hf, hData, -⟩ := hLoaded.segment
  have hFile : d.get (.log p.segment.baseOffset) = some f := hf.file
  have hDecode : decodeAll X f.data.length f.data = some (c.frames.map Frame.record) := by
    rw [hData]
    exact decodeAll_flat hReadable (length_le_span _)
  rw [segmentRecords, hFile, Option.bind_some, hDecode, hRep.chunk_records hChain hMem, hEnd,
    hLoaded.segmentBase]

/-! ## One step and a whole run -/

theorem History.Accepts.records {op : LogOp} {reply : Reply} {h' : History Record}
    (hStep : h.Accepts op reply h') : h'.records = h.records ++ op.records := by
  cases hStep <;> simp [History.append, History.retire, LogOp.records]

theorem History.Accepts.oldest {op : LogOp} {reply : Reply} {h' : History Record}
    (hStep : h.Accepts op reply h') (hOp : op ≠ .applyRetention) : h'.oldest = h.oldest := by
  cases hStep with
  | retain => exact absurd rfl hOp
  | _ => rfl

theorem History.Accepts.given {op : LogOp} {reply : Reply} {h' : History Record}
    (hStep : h.Accepts op reply h') :
    reply.given = List.range' h.next op.records.length := by
  cases hStep <;> simp [Reply.given, LogOp.records]

theorem History.Rejects.records {op : LogOp} {h' : History Record} (hStep : h.Rejects op h') :
    h'.records = h.records := by
  cases hStep <;> rfl

/-- An undisturbed operation returns a value, unless its codec is not linked. -/
theorem exec_quiet (hX : X.Lawful) (hEnv : env.Quiet) (hRef : Refines X log w.store h n)
    {op : LogOp} (hOp : op.Admissible X log) :
    ∃ r log' w', op.exec X env log w = (r, log', w') ∧ log'.config = log.config ∧
      ∃ h' n', Refines X log' w'.store h' n' ∧
        ((∃ reply, r = .ok reply ∧ h.Accepts op reply h') ∨
          (r = .err (.compressionUnavailable log.config.compression) ∧
            log.config.compression.isAvailable X = false ∧ h.Rejects op h')) := by
  have hSpec := exec_spec hX (clean_of_quiet hEnv) hRef hOp
  unfold wp at hSpec
  rcases hRun : op.exec X env log w with ⟨r, log', w'⟩
  rw [hRun] at hSpec
  refine ⟨r, log', w', rfl, ?_⟩
  cases r with
  | ok reply =>
    obtain ⟨hConfig, h', hStep, hRef'⟩ := hSpec
    exact ⟨hConfig, h', _, hRef', Or.inl ⟨reply, rfl, hStep⟩⟩
  | err e =>
    obtain ⟨hConfig, ⟨h', hStep, hRef'⟩, ⟨rfl, hCodec⟩ | hNoisy⟩ := hSpec
    · exact ⟨hConfig, h', _, hRef', Or.inr ⟨rfl, hCodec, hStep⟩⟩
    · exact absurd hEnv.steady hNoisy
  | panic m => exact hSpec.elim
  | crash => exact absurd hEnv.alive hSpec.1

/-- What a run has done: the log refines the history extended by what it acknowledged, and
the offsets it handed out continue the old ones without a gap. -/
structure RunDone (X : Crates) (h : History Record) (config : LogConfig) (ops : List LogOp)
    (out : List (Res KafkoError Reply) × Log × World FileName) : Prop where
  sameConfig : out.2.1.config = config
  refines : ∃ oldest n, Refines X out.2.1 out.2.2.store
    ⟨h.records ++ acknowledged ops out.1, oldest⟩ n
  offsets : givenOffsets out.1 = List.range' h.next (acknowledged ops out.1).length
  accepted : config.compression.isAvailable X = true → ∀ r ∈ out.1, ∃ reply, r = .ok reply

theorem runOps_done (hX : X.Lawful) (hEnv : env.Quiet) (hRef : Refines X log w.store h n)
    {ops : List LogOp} (hOps : AdmissibleRun X env ops log w) :
    RunDone X h log.config ops (runOps X env ops log w) := by
  induction ops generalizing log w h n with
  | nil =>
    refine ⟨rfl, ⟨h.oldest, n, ?_⟩, rfl, fun _ r hr => by cases hr⟩
    rw [acknowledged.eq_def, List.append_nil]
    exact hRef
  | cons op ops ih =>
    obtain ⟨hOp, hRest⟩ := hOps
    obtain ⟨r, log', w', hRun, hConfig, h', n', hRef', hResult⟩ := exec_quiet hX hEnv hRef hOp
    rw [hRun] at hRest
    have hDone := ih hRef' hRest
    rw [hConfig] at hDone
    rw [runOps, hRun]
    dsimp only
    rcases hOut : runOps X env ops log' w' with ⟨rs, log'', w''⟩
    rw [hOut] at hDone
    obtain ⟨hConfig', ⟨oldest, n'', hRef''⟩, hOffsets, hAccepted⟩ := hDone
    dsimp only at *
    rcases hResult with ⟨reply, rfl, hStep⟩ | ⟨rfl, hCodec, hStep⟩
    · rw [hStep.records, List.append_assoc] at hRef''
      refine ⟨hConfig', ⟨oldest, n'', hRef''⟩, ?_, ?_⟩
      · have hNext : h'.next = h.next + op.records.length := by
          rw [History.next, hStep.records, List.length_append, History.next]
        rw [hNext] at hOffsets
        change reply.given ++ givenOffsets rs = _
        rw [hOffsets, hStep.given, acknowledged, List.length_append, ← List.range'_append_1]
      · intro hc r hr
        rcases List.mem_cons.mp hr with rfl | hr
        · exact ⟨reply, rfl⟩
        · exact hAccepted hc r hr
    · rw [hStep.records] at hRef''
      have hNext : h'.next = h.next := by rw [History.next, hStep.records, History.next]
      rw [hNext] at hOffsets
      refine ⟨hConfig', ⟨oldest, n'', hRef''⟩, hOffsets, ?_⟩
      intro hc
      rw [hCodec] at hc
      cases hc

theorem create_refines {σ : Type} {st : σ} (hEnv : env.Quiet) (hFresh : Fresh w.store)
    (config : LogConfig) : ∃ log w', Log.create config env st w = (.ok log, st, w') ∧
      log.config = config ∧ Refines X log w'.store History.empty 0 := by
  have hSpec : wp env (Log.create config) (Log.createPost env config st) st w :=
    Log.create_spec hFresh config
  unfold wp at hSpec
  rcases hRun : Log.create config env st w with ⟨r, st', w'⟩
  rw [hRun] at hSpec
  cases r with
  | ok log =>
    obtain ⟨rfl, hConfig, hLive⟩ := hSpec
    exact ⟨log, w', rfl, hConfig, Layout.initial, hLive, Sound.initial X, ⟨rfl, rfl, rfl⟩,
      Nat.zero_le _⟩
  | err e => exact absurd hEnv.steady hSpec
  | panic m => exact hSpec.elim
  | crash => exact absurd hEnv.alive hSpec.1

/-- An undisturbed open of a complete layout keeps all of it. -/
theorem Log.open_live {L : Layout} (hEnv : env.Quiet) (hLive : Live log w.store L)
    (hSound : Sound X L) (config : LogConfig) :
    ∃ log' w', Log.open_ X config env () w = (.ok log', (), w') ∧ log'.config = config ∧
      Live log' w'.store L := by
  obtain ⟨init, active, f, hParts⟩ := hLive.parts
  have hWhole : ∀ g ∈ L.active.frames, Whole X g := fun g hg =>
    hSound.whole g (List.mem_append_right _ hg)
  have hHolds : Holds f L.active.frames L.active.frames.length [] := by
    refine ⟨Nat.le_refl _, ?_, Or.inl ⟨rfl, rfl⟩⟩
    rw [List.take_length, List.append_nil]
    exact hParts.data
  have hAll : L.cutTo L.active.frames.length = L := by
    rw [Layout.cutTo, List.take_length]
  have hSpec := Log.open_spec () (clean_of_quiet hEnv) hLive.disk hParts.file hParts.cut hHolds
    hWhole config
  rw [hAll] at hSpec
  unfold wp at hSpec
  rcases hRun : Log.open_ X config env () w with ⟨r, st, w'⟩
  rw [hRun] at hSpec
  cases r with
  | ok log' =>
    obtain ⟨-, hConfig, hLive'⟩ := hSpec
    exact ⟨log', w', rfl, hConfig, hLive'⟩
  | err e => exact absurd hEnv.steady hSpec
  | panic m => exact absurd ((hSound.positions.take _).trackable _ _) hSpec
  | crash => exact absurd hEnv.alive hSpec.1

/-- A read in an undisturbed environment answers from the history. -/
theorem read_quiet (hEnv : env.Quiet) (hRef : Refines X log w.store h n) (offset : Nat) :
    ∃ log' w', Log.readRecordAt X offset env log w = (.ok (h.get offset), log', w') ∧
      Refines X log' w'.store h n := by
  have hSpec := exec_readRecordAt hEnv.fullReads hRef offset
  unfold wp at hSpec
  rcases hRun : Log.readRecordAt X offset env log w with ⟨r, log', w'⟩
  rw [hRun] at hSpec
  cases r with
  | ok record =>
    obtain ⟨rfl, -, hRef'⟩ := hSpec
    exact ⟨log', w', rfl, hRef'⟩
  | err e => exact absurd hEnv.steady hSpec.1
  | panic m => exact hSpec.elim
  | crash => exact absurd hEnv.alive hSpec.1

/-- The log is an append-only list: after any run of appends, batches, syncs, reads and
retention passes on a new log, offsets are positions in the list of acknowledged records,
each segment holds its slice of that list, and a read finds exactly what is not retired. -/
theorem log_refines_append_only_list (hX : X.Lawful) (hEnv : env.Quiet)
    (hFresh : Fresh w.store) (config : LogConfig) :
    ∃ log w', Log.create config env () w = (.ok log, (), w') ∧
      ∀ ops, AdmissibleRun X env ops log w' →
        ∀ results log' w'', runOps X env ops log w' = (results, log', w'') →
          (config.compression.isAvailable X = true → ∀ r ∈ results, ∃ reply, r = .ok reply) ∧
          givenOffsets results = List.range (acknowledged ops results).length ∧
          log'.nextOffset = (acknowledged ops results).length ∧
          (log'.segments.map fun p => p.segment.baseOffset).Pairwise (· < ·) ∧
          (∀ i p, log'.segments[i]? = some p →
            segmentRecords X w''.store p.segment.baseOffset =
              some (((acknowledged ops results).drop p.segment.baseOffset).take
                (log'.endOfSegment i - p.segment.baseOffset))) ∧
          ∀ offset, (Log.readRecordAt X offset env log' w'').1 =
            .ok (if log'.oldestBase ≤ offset ∧ offset < log'.nextOffset
              then (acknowledged ops results)[offset]? else none) := by
  obtain ⟨log, w', hCreate, hConfig, hRef⟩ :=
    create_refines (X := X) (σ := Unit) hEnv hFresh config
  refine ⟨log, w', hCreate, ?_⟩
  intro ops hOps results log' w'' hRun
  have hDone := runOps_done hX hEnv hRef hOps
  rw [hRun, hConfig] at hDone
  obtain ⟨-, ⟨oldest, n, hRef'⟩, hOffsets, hAccepted⟩ := hDone
  dsimp only [History.empty, List.nil_append] at hRef' hOffsets hAccepted
  have hNext := hRef'.nextOffset
  refine ⟨hAccepted, ?_, hNext, hRef'.segments_sorted, fun i p hp => hRef'.segment_holds hp, ?_⟩
  · rw [hOffsets]
    exact List.range_eq_range'.symm
  · intro offset
    obtain ⟨_, _, hRead, -⟩ := read_quiet hEnv hRef' offset
    rw [hRead, hRef'.oldestBase, hNext, History.get_eq]

/-- A record without a key and with a value of one byte. -/
def sampleRecord (b : UInt8) : Record := ⟨0, none, [b]⟩

/-- A segment holds two sample records. -/
def smallSegments : LogConfig := { LogConfig.default with segmentSizeThreshold := 60 }

/-- Four records that need two such segments. -/
def sampleRun : List LogOp :=
  [.append (sampleRecord 1), .appendBatch [sampleRecord 2], .sync,
    .appendBatch [sampleRecord 3, sampleRecord 4], .applyRetention]

theorem log_refines_append_only_list_sampleRun :
    ∃ log w', Log.create smallSegments Env.quiet () ⟨Store.empty, 0⟩ = (.ok log, (), w') ∧
      AdmissibleRun Crates.uncompressed Env.quiet sampleRun log w' ∧
      ∃ results log' w'', runOps Crates.uncompressed Env.quiet sampleRun log w' =
          (results, log', w'') ∧
        acknowledged sampleRun results = [1, 2, 3, 4].map sampleRecord ∧
        log'.segments.length = 2 ∧ log'.nextOffset = (acknowledged sampleRun results).length := by
  obtain ⟨log, w', hCreate, hRun⟩ := log_refines_append_only_list (w := ⟨Store.empty, 0⟩)
    Crates.lawful_uncompressed Env.quiet_quiet (fun name => Store.get_empty name) smallSegments
  refine ⟨log, w', hCreate, ?_⟩
  cases hCreate
  refine ⟨by decide +kernel, _, _, _, rfl, by decide +kernel, by decide +kernel, ?_⟩
  exact (hRun sampleRun (by decide +kernel) _ _ _ rfl).2.2.1

end Kafko
