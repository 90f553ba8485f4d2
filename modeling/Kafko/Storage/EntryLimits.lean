import Kafko.Storage.Capacity

/-!
# Index entries that do not fit

An index entry has 32 bits for the number of the record in its segment and 32 for its position,
and the segment it goes to may be larger than that: the threshold is any number, and an empty
segment takes a call of any size. A call panics exactly if a record that is due an entry has a
number or a position that is too large, and its bytes are in the segment by then.
-/

namespace Kafko

open Disk

/-! ## What a call asks of the index -/

namespace AppendCall

variable (X : Crates) (log : Log) (call : AppendCall)

/-- The sizes of the frames of a call. -/
def frameSizes : List Nat := call.records.map (Record.storedSize X log.config.compression)

/-- The position of a record of the call in its segment. -/
def positionOf (i : Nat) : Nat :=
  log.writePosition call.op.wireSize + ((call.frameSizes X log).take i).sum

/-- The number of a record of the call in its segment. -/
def numberOf (i : Nat) : Nat :=
  log.nextOffset + i - (log.writeIndex call.op.wireSize).baseOffset

/-- Whether a record of the call gets an index entry: it is the first of its segment, or enough
bytes have passed since the last entry. -/
def isDue (i : Nat) : Bool :=
  ((log.writeIndex call.op.wireSize).trackAll log.nextOffset (log.writePosition call.op.wireSize)
    ((call.frameSizes X log).take i)).needEntry

/-- The records that are due an entry have a number and a position below `2 ^ 32`. -/
def DueFit : Prop :=
  ∀ i, i < call.records.length → call.isDue X log i = true →
    call.numberOf log i < 2 ^ 32 ∧ call.positionOf X log i < 2 ^ 32

instance : Decidable (call.DueFit X log) :=
  inferInstanceAs (Decidable (∀ i, i < call.records.length → _ → _))

end AppendCall

/-- Tracking a list of records, seen record by record. -/
theorem SparseIndex.fitsAll_iff (x : SparseIndex) (offset filePos : Nat) (ns : List Nat) :
    x.fitsAll offset filePos ns = true ↔ ∀ i, i < ns.length →
      (x.trackAll offset filePos (ns.take i)).needEntry = true →
        offset + i - x.baseOffset < 2 ^ 32 ∧ filePos + (ns.take i).sum < 2 ^ 32 := by
  induction ns generalizing x offset filePos with
  | nil => simp [fitsAll]
  | cons n ns ih =>
    rw [fitsAll, Bool.and_eq_true, ih, fitsEntry_iff, track_baseOffset]
    constructor
    · intro hFits i hi
      obtain ⟨hFirst, hRest⟩ := hFits
      cases i with
      | zero => exact hFirst
      | succ i =>
        rw [List.take_succ_cons, trackAll, List.sum_cons]
        intro hDue
        have hLater := hRest i (Nat.lt_of_succ_lt_succ hi) hDue
        omega
    · intro hAll
      refine ⟨hAll 0 (Nat.zero_lt_succ _), ?_⟩
      intro i hi hDue
      have hLater := hAll (i + 1) (Nat.succ_lt_succ hi)
      rw [List.take_succ_cons, trackAll, List.sum_cons] at hLater
      have := hLater hDue
      omega

section

variable {X : Crates} {env : Env FileName} {log : Log} {w : World FileName} {L : Layout}

theorem AppendCall.entriesFit_iff (hCodec : log.config.compression.isAvailable X = true)
    (call : AppendCall) : call.op.entriesFit X log = true ↔ call.DueFit X log := by
  have hSizes : sizes (framesOf X log.config.compression call.op.records) =
      call.frameSizes X log := sizes_framesOf hCodec _
  rw [LogOp.entriesFit, hSizes, SparseIndex.fitsAll_iff, frameSizes, List.length_map]
  rfl

/-- A call panics exactly if an entry that is due does not fit. -/
theorem AppendMove.Made.panics_iff (hEnv : env.Quiet) {calls : List AppendCall}
    {config : LogConfig} {m : AppendMove} (h : m.Made X env calls config) :
    (∃ message, m.result = .panic message) ↔
      config.compression.isAvailable X = true ∧ ¬ m.call.DueFit X m.before := by
  obtain ⟨w, w', L, hLive, hRun⟩ := h.run
  have hReturns := m.call.exec_returns (X := X) hEnv hLive
  rw [wp, hRun] at hReturns
  rw [← h.config]
  cases hCodec : m.before.config.compression.isAvailable X with
  | false =>
    constructor
    · rintro ⟨message, hPanic⟩
      rw [hPanic] at hReturns
      change m.before.config.compression.isAvailable X = true at hReturns
      rw [hCodec] at hReturns
      cases hReturns
    · intro hNone
      cases hNone.1
  | true =>
    rw [← m.call.entriesFit_iff hCodec]
    rcases m.call.exec_cases hEnv hLive hCodec with
      ⟨reply, log', w', hOk, hFits, -⟩ | ⟨message, log', w', hPanic, hUnfit, -⟩
    · obtain ⟨hResult, -⟩ := Prod.mk.inj (hRun.symm.trans hOk)
      simp [hResult, hFits]
    · obtain ⟨hResult, -⟩ := Prod.mk.inj (hRun.symm.trans hPanic)
      simp [hResult, hUnfit]

/-- The bytes of a call that panics are in their segment. -/
theorem AppendMove.Made.panic_leaves_bytes (hEnv : env.Quiet) {calls : List AppendCall}
    {config : LogConfig} {m : AppendMove} (h : m.Made X env calls config) {message : String}
    (hPanic : m.result = .panic message) : ∃ base, ∀ b, m.after.sizeAt b =
      m.before.sizeAt b + if b = base then (m.call.frameSizes X m.before).sum else 0 := by
  obtain ⟨w, w', L, hLive, hRun⟩ := h.run
  have hCodec : m.before.config.compression.isAvailable X = true := by
    have hReturns := m.call.exec_returns (X := X) hEnv hLive
    rw [wp, hRun, hPanic] at hReturns
    exact hReturns
  have hSettles := m.call.exec_settles hEnv hLive hCodec
  rw [wp, hRun, hPanic] at hSettles
  obtain ⟨base, hGrows, -⟩ := Layout.written_sizeAt hCodec hLive.disk.chain m.call.records
  refine ⟨base, fun b => ?_⟩
  rw [Log.sizeAt_of_sizes hSettles.2, Log.sizeAt_of_sizes hLive.segmentSizes]
  exact hGrows b

/-- In a run from a new log no call panics if and only if all entries that are due fit. -/
theorem appends_return_iff (hEnv : env.Quiet) {config : LogConfig} {w w' : World FileName}
    (hFresh : Fresh w.store) (hOpen : Log.open_ X config env () w = (.ok log, (), w'))
    (calls : List AppendCall) :
    (∀ m ∈ appendMoves X env calls log w', ∀ message, m.result ≠ .panic message) ↔
      ∀ m ∈ appendMoves X env calls log w',
        config.compression.isAvailable X = true → m.call.DueFit X m.before := by
  obtain ⟨-, rfl, hLive⟩ := ok_of_wp (Log.open_fresh_spec hFresh config) hOpen
  constructor
  · intro hNone m hm hCodec
    by_contra hUnfit
    obtain ⟨message, hPanic⟩ :=
      ((mem_appendMoves hEnv hLive hm).panics_iff hEnv).mpr ⟨hCodec, hUnfit⟩
    exact hNone m hm message hPanic
  · intro hFit m hm message hPanic
    obtain ⟨hCodec, hUnfit⟩ :=
      ((mem_appendMoves hEnv hLive hm).panics_iff hEnv).mp ⟨message, hPanic⟩
    exact hUnfit (hFit m hm hCodec)

/-- Below `2 ^ 32` for the threshold and for every call, a good estimate is enough. -/
theorem AppendCall.dueFit_of_small {d : Store FileName} (h : Live log d L)
    (hCodec : log.config.compression.isAvailable X = true) (call : AppendCall)
    (hHolds : call.EstimateHolds X log) (hThreshold : log.config.segmentSizeThreshold < 2 ^ 32)
    (hSmall : (call.frameSizes X log).sum < 2 ^ 32) : call.DueFit X log := by
  have hSizes : sizes (framesOf X log.config.compression call.op.records) =
      call.frameSizes X log := sizes_framesOf hCodec _
  have hPos : ∀ n ∈ call.frameSizes X log, 0 < n := by
    rw [← hSizes]
    intro n hn
    obtain ⟨f, -, rfl⟩ := List.mem_map.mp hn
    exact f.length_pos
  have hNext : log.nextOffset = (L.target (L.overflows call.op.wireSize
      log.config.segmentSizeThreshold)).active.base + (L.target (L.overflows call.op.wireSize
      log.config.segmentSizeThreshold)).active.frames.length := by
    rw [h.nextOffset]
    cases L.overflows call.op.wireSize log.config.segmentSizeThreshold with
    | false => rfl
    | true => exact L.next_rotate.symm
  rw [← call.entriesFit_iff hCodec, LogOp.entriesFit, hSizes, h.writeIndex, h.writePosition, hNext]
  apply SparseIndex.fitsAll_of_lt (SparseIndex.tracked_baseOffset _ _ _) (length_le_span _) hPos
  rw [EstimateHolds, Log.activeSize_of_sizes h.segmentSizes] at hHolds
  change 0 < _ → span L.active.frames + call.op.wireSize ≤ _ →
    span L.active.frames + (call.frameSizes X log).sum ≤ _ at hHolds
  by_cases hEmpty : span L.active.frames = 0
  · rw [Layout.overflows, if_pos hEmpty]
    change span L.active.frames + _ < _
    omega
  · rw [Layout.overflows, if_neg hEmpty]
    by_cases hRoom : span L.active.frames + call.op.wireSize ≤ log.config.segmentSizeThreshold
    · rw [decide_eq_false (by omega)]
      change span L.active.frames + _ < _
      have := hHolds (by omega) hRoom
      omega
    · rw [decide_eq_true (by omega)]
      change span [] + _ < _
      rw [span_nil]
      omega

/-- Without compression a threshold and calls below `2 ^ 32` bytes are safe. -/
theorem small_appends_return (hEnv : env.Quiet) {calls : List AppendCall} (h : Live log w.store L)
    (hNone : log.config.compression = .none) (hThreshold : log.config.segmentSizeThreshold < 2 ^ 32)
    (hSmall : ∀ call ∈ calls, (call.records.map Record.wireSize).sum < 2 ^ 32) :
    ∀ m ∈ appendMoves X env calls log w, ∀ message, m.result ≠ .panic message := by
  intro m hm message hPanic
  have hMade := mem_appendMoves hEnv h hm
  obtain ⟨hCodec, hUnfit⟩ := (hMade.panics_iff hEnv).mp ⟨message, hPanic⟩
  obtain ⟨w₁, -, L₁, hLive, -⟩ := hMade.run
  rw [← hMade.config] at hNone hThreshold hCodec
  apply hUnfit
  apply AppendCall.dueFit_of_small hLive hCodec _ (m.call.estimateHolds_none hNone) hThreshold
  rw [AppendCall.frameSizes, hNone]
  exact hSmall _ hMade.asked

/-! ## A segment that is too long -/

/-- One record that stays in the active segment. -/
theorem AppendCall.dueFit_append {d : Store FileName} (h : Live log d L) {r : Record}
    (hStays : L.overflows r.wireSize log.config.segmentSizeThreshold = false) :
    DueFit X log (.append r) ↔
      ((SparseIndex.tracked L.active.base log.config.indexInterval
        L.active.frames).needEntry = true →
        L.active.frames.length < 2 ^ 32 ∧ span L.active.frames < 2 ^ 32) := by
  have hn : op (.append r) = .append r := rfl
  have hSize : (LogOp.append r).wireSize = r.wireSize := by simp [LogOp.wireSize, LogOp.records]
  have hIndex := h.writeIndex r.wireSize
  have hPos := h.writePosition r.wireSize
  rw [hStays] at hIndex hPos
  have hNext : log.nextOffset = L.active.base + L.active.frames.length := h.nextOffset
  have hNumber : numberOf log (.append r) 0 = L.active.frames.length := by
    rw [numberOf, hn, hSize, hIndex, SparseIndex.tracked_baseOffset, hNext]
    change L.active.base + _ + 0 - L.active.base = _
    omega
  have hPosition : positionOf X log (.append r) 0 = span L.active.frames := by
    rw [positionOf, hn, hSize, hPos]
    rfl
  have hDue : isDue X log (.append r) 0 = (SparseIndex.tracked L.active.base
      log.config.indexInterval L.active.frames).needEntry := by
    rw [isDue, hn, hSize, hIndex]
    rfl
  rw [← hNumber, ← hPosition, ← hDue]
  constructor
  · intro hFit
    exact hFit 0 Nat.zero_lt_one
  · intro hFirst i hi
    obtain rfl : i = 0 := Nat.lt_one_iff.mp hi
    exact hFirst

/-- The log and the rest of the run after a call that returns. -/
theorem appendMoves_fit (hEnv : env.Quiet) (h : Live log w.store L)
    (hCodec : log.config.compression.isAvailable X = true) {call : AppendCall}
    (calls : List AppendCall) (hFit : call.DueFit X log) : ∃ reply log' w',
      appendMoves X env (call :: calls) log w =
        ⟨call, log, .ok reply, log'⟩ :: appendMoves X env calls log' w' ∧
      log'.config = log.config ∧
      Live log' w'.store (L.written X log.config call.records) := by
  rcases call.exec_cases hEnv h hCodec with
    ⟨reply, log', w', hRun, -, hConfig, hLive⟩ | ⟨message, log', w', hRun, hUnfit, -⟩
  · refine ⟨reply, log', w', ?_, hConfig, hLive⟩
    rw [appendMoves, hRun]
  · rw [(call.entriesFit_iff hCodec).mpr hFit] at hUnfit
    cases hUnfit

theorem appendMoves_unfit (hEnv : env.Quiet) (h : Live log w.store L)
    (hCodec : log.config.compression.isAvailable X = true) {call : AppendCall}
    (calls : List AppendCall) (hUnfit : ¬ call.DueFit X log) : ∃ message log',
      appendMoves X env (call :: calls) log w = [⟨call, log, .panic message, log'⟩] := by
  rcases call.exec_cases hEnv h hCodec with
    ⟨reply, log', w', hRun, hFits, -⟩ | ⟨message, log', w', hRun, -⟩
  · exact absurd ((call.entriesFit_iff hCodec).mp hFits) hUnfit
  · refine ⟨message, log', ?_⟩
    rw [appendMoves, hRun]

end

/-- A record larger than the interval is followed by an entry. -/
theorem SparseIndex.needEntry_track {x : SparseIndex} {offset filePos size : Nat}
    (hLarge : x.interval ≤ size) : (x.track offset filePos size).needEntry = true := by
  unfold track
  split <;> simp [needEntry] <;> omega

@[simp] theorem SparseIndex.track_interval (x : SparseIndex) (offset filePos size : Nat) :
    (x.track offset filePos size).interval = x.interval := by
  unfold track
  split <;> rfl

/-- The default configuration, with segments of up to 8 GiB. -/
def largeSegments : LogConfig := { LogConfig.default with segmentSizeThreshold := 2 ^ 33 }

theorem span_replicate (f : LogFrame) (k : Nat) :
    span (List.replicate k f) = k * f.bytes.length := by
  induction k with
  | zero => simp
  | succ k ih =>
    rw [List.replicate_succ, span_cons, ih, Nat.succ_mul]
    omega

/-- A log whose active segment holds the same frame a number of times. -/
def Layout.repeated (f : LogFrame) (k : Nat) : Layout := ⟨0, [], ⟨0, List.replicate k f⟩, 0⟩

section

variable {r : Record} {f : LogFrame} {log : Log} {w : World FileName} {k : Nat}

/-- Three records of at most 2.5 GiB stay in one segment. -/
theorem Layout.repeated_stays (hLength : f.bytes.length = r.wireSize)
    (hSmall : r.wireSize < 2 ^ 31 + 2 ^ 29) (hk : k ≤ 2) :
    (repeated f k).overflows r.wireSize (2 ^ 33) = false := by
  have hSpan : span (repeated f k).active.frames = k * r.wireSize := by
    rw [← hLength]
    exact span_replicate f k
  have : k * r.wireSize ≤ 2 * r.wireSize := Nat.mul_le_mul_right _ hk
  rw [overflows, hSpan]
  split
  · rfl
  · exact decide_eq_false (by omega)

theorem Layout.repeated_written (hFrames : framesOf Crates.uncompressed .none [r] = [f])
    (hStays : (repeated f k).overflows r.wireSize (2 ^ 33) = false) :
    written Crates.uncompressed largeSegments (repeated f k) [r] = repeated f (k + 1) := by
  have hSum : ([r].map Record.wireSize).sum = r.wireSize := by simp
  rw [written, if_neg (by simp), hSum]
  change step _ ((repeated f k).overflows r.wireSize (2 ^ 33))
    (framesOf Crates.uncompressed .none [r]) = _
  rw [hStays, hFrames]
  change (⟨0, [], ⟨0, List.replicate k f ++ [f]⟩, 0⟩ : Layout) = repeated f (k + 1)
  rw [← List.replicate_succ', repeated]

/-- As long as the segment is shorter than `2 ^ 32`, the next record is accepted. -/
theorem repeated_returns (hFrames : framesOf Crates.uncompressed .none [r] = [f])
    (hStays : (Layout.repeated f k).overflows r.wireSize (2 ^ 33) = false)
    (hShort : k < 2 ^ 32 ∧ k * f.bytes.length < 2 ^ 32) (hConfig : log.config = largeSegments)
    (hLive : Live log w.store (Layout.repeated f k)) (calls : List AppendCall) :
    ∃ m log' w', appendMoves Crates.uncompressed Env.quiet (.append r :: calls) log w =
        m :: appendMoves Crates.uncompressed Env.quiet calls log' w' ∧
      log'.config = largeSegments ∧ Live log' w'.store (Layout.repeated f (k + 1)) := by
  have hFit : AppendCall.DueFit Crates.uncompressed log (.append r) := by
    rw [AppendCall.dueFit_append hLive (by rw [hConfig]; exact hStays)]
    intro _
    change (List.replicate k f).length < _ ∧ span (List.replicate k f) < _
    rw [List.length_replicate, span_replicate]
    exact hShort
  obtain ⟨reply, log', w', hMoves, hConfig', hLive'⟩ := appendMoves_fit Env.quiet_quiet hLive
    (by rw [hConfig]; rfl) calls hFit
  rw [hConfig] at hConfig' hLive'
  rw [← Layout.repeated_written hFrames hStays]
  exact ⟨_, log', w', hMoves, hConfig', hLive'⟩

/-- Three records of 2 GiB in one segment: the third is due an entry and starts behind `2 ^ 32`. -/
theorem large_appends_panic (hLarge : 2 ^ 31 ≤ r.wireSize)
    (hSmall : r.wireSize < 2 ^ 31 + 2 ^ 29) (hConfig : log.config = largeSegments)
    (hLive : Live log w.store Layout.initial) :
    ∃ m ∈ appendMoves Crates.uncompressed Env.quiet [.append r, .append r, .append r] log w,
      ∃ message, m.result = .panic message := by
  obtain ⟨bytes, hOk⟩ := @Record.wire_isAvailable Crates.uncompressed .none rfl r
  obtain ⟨f, hFrames, hLength⟩ : ∃ f, framesOf Crates.uncompressed .none [r] = [f] ∧
      f.bytes.length = r.wireSize :=
    ⟨_, framesOf_cons hOk, Record.length_wire_stored hOk⟩
  obtain ⟨m₁, log₁, w₁, hMoves₁, hConfig₁, hLive₁⟩ := @repeated_returns r f log w 0 hFrames
    (Layout.repeated_stays hLength hSmall (by omega)) (by omega) hConfig hLive
    [.append r, .append r]
  obtain ⟨m₂, log₂, w₂, hMoves₂, hConfig₂, hLive₂⟩ := @repeated_returns r f log₁ w₁ 1 hFrames
    (Layout.repeated_stays hLength hSmall (by omega)) (by omega) hConfig₁ hLive₁ [.append r]
  have hStays : (Layout.repeated f 2).overflows r.wireSize (2 ^ 33) = false :=
    Layout.repeated_stays hLength hSmall (Nat.le_refl _)
  have hUnfit : ¬ AppendCall.DueFit Crates.uncompressed log₂ (.append r) := by
    rw [AppendCall.dueFit_append hLive₂ (by rw [hConfig₂]; exact hStays), hConfig₂]
    intro hFit
    have hDue : (SparseIndex.tracked 0 4096 [f, f]).needEntry = true := by
      apply SparseIndex.needEntry_track
      rw [SparseIndex.track_interval]
      change 4096 ≤ f.bytes.length
      omega
    have hPos := (hFit hDue).2
    change span (List.replicate 2 f) < _ at hPos
    rw [span_replicate] at hPos
    omega
  obtain ⟨message, log₃, hMoves₃⟩ := appendMoves_unfit Env.quiet_quiet hLive₂
    (by rw [hConfig₂]; rfl) [] hUnfit
  rw [hMoves₁, hMoves₂, hMoves₃]
  exact ⟨⟨.append r, log₂, .panic message, log₃⟩, by simp, message, rfl⟩

end

/-- A record with a value of 2 GiB. -/
def largeRecord : Record := ⟨0, none, List.replicate (2 ^ 31) 0⟩

theorem wireSize_largeRecord : largeRecord.wireSize = 2 ^ 31 + 25 := by
  have hValue : largeRecord.value.length = 2 ^ 31 := List.length_replicate
  rw [Record.wireSize, hValue]
  rfl

/-- Three of these records are too much for the index of an 8 GiB segment. -/
theorem large_segments_panic :
    ∃ log w, Log.open_ Crates.uncompressed largeSegments Env.quiet () ⟨Store.empty, 0⟩ =
        (.ok log, (), w) ∧
      ¬ ∀ m ∈ appendMoves Crates.uncompressed Env.quiet
          [.append largeRecord, .append largeRecord, .append largeRecord] log w,
        ∀ message, m.result ≠ .panic message := by
  have hFresh : Fresh (Store.empty : Store FileName) := fun name => Store.get_empty name
  obtain ⟨log, w, hOpen⟩ : ∃ log w, Log.open_ Crates.uncompressed largeSegments Env.quiet ()
      ⟨Store.empty, 0⟩ = (.ok log, (), w) := ⟨_, _, rfl⟩
  obtain ⟨-, hConfig, hLive⟩ := ok_of_wp (Log.open_fresh_spec hFresh largeSegments) hOpen
  refine ⟨log, w, hOpen, ?_⟩
  intro hNone
  have hSize := wireSize_largeRecord
  obtain ⟨m, hm, message, hPanic⟩ :=
    @large_appends_panic largeRecord log w (by omega) (by omega) hConfig hLive
  exact hNone m hm message hPanic

/-- The default configuration does not panic over a few small records. -/
theorem appends_return_iff_small :
    ∃ log w, Log.open_ Crates.uncompressed LogConfig.default Env.quiet () ⟨Store.empty, 0⟩ =
        (.ok log, (), w) ∧
      ∀ m ∈ appendMoves Crates.uncompressed Env.quiet
          [.append (sampleRecord 1), .appendBatch [sampleRecord 2, sampleRecord 3]] log w,
        ∀ message, m.result ≠ .panic message := by
  refine ⟨_, _, rfl, ?_⟩
  refine (@appends_return_iff Crates.uncompressed Env.quiet _ Env.quiet_quiet LogConfig.default
    ⟨Store.empty, 0⟩ _ (fun name => Store.get_empty name) rfl _).mpr ?_
  intro m hm _
  revert m
  decide +kernel

end Kafko
