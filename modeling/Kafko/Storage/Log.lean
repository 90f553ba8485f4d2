import Kafko.Storage.Segment
import Mathlib.Data.List.Sort

/-!
# The segment log

`log.rs`. A `Log` owns its segments, oldest first, and the offset of the next record. The
scratch buffers of the source (`encode_buf`, `actual_sizes`) are cleared at the start of
every batch and read by nothing else, so they are local values here. Offsets and sizes are
natural numbers; the conversions that can fail (`u32` index entries) or wrap (`i64`
milliseconds) are explicit. The decode loops carry the number of unread bytes as fuel,
which is enough because every iteration reads at least one byte.
-/

namespace Kafko

open Disk

structure Duration where
  secs : Nat
  nanos : Nat
  deriving DecidableEq, Repr

def Duration.asMillis (d : Duration) : Nat := d.secs * 1000 + d.nanos / 1000000

structure LogConfig where
  segmentSizeThreshold : Nat
  indexInterval : Nat
  maxSegmentAge : Option Duration
  maxPartitionBytes : Option Nat
  retentionCheckInterval : Duration
  batchMaxRecords : Nat
  batchMaxBytes : Nat
  compression : Compression
  deriving DecidableEq, Repr

def LogConfig.default : LogConfig where
  segmentSizeThreshold := 2 ^ 30
  indexInterval := 4 * 1024
  maxSegmentAge := none
  maxPartitionBytes := none
  retentionCheckInterval := ⟨60, 0⟩
  batchMaxRecords := 1024
  batchMaxBytes := 64 * 1024
  compression := .none

structure IndexedSegment where
  segment : Segment
  index : SparseIndex
  deriving DecidableEq, Repr

structure Log where
  config : LogConfig
  segments : List IndexedSegment
  nextOffset : Nat
  deriving DecidableEq, Repr

/-! ## Access to the parts of a log -/

namespace IndexedSegment

variable {α : Type}

def onSegment (m : LogIO Segment α) : LogIO IndexedSegment α :=
  Fx.zoom IndexedSegment.segment (fun p s => { p with segment := s }) m

def onIndex (m : LogIO SparseIndex α) : LogIO IndexedSegment α :=
  Fx.zoom IndexedSegment.index (fun p x => { p with index := x }) m

end IndexedSegment

namespace Log

open IndexedSegment

variable {σ α : Type}

/-- `self.segments.last_mut().expect(..)`. -/
def onActive (m : LogIO IndexedSegment α) : LogIO Log α := fun env log w =>
  match log.segments.getLast? with
  | none => (.panic "segments invariant: never empty after create", log, w)
  | some active =>
    match m env active w with
    | (r, active', w') =>
      (r, { log with segments := log.segments.dropLast ++ [active'] }, w')

/-- `&mut self.segments[i]`. -/
def onSegmentAt (i : Nat) (m : LogIO IndexedSegment α) : LogIO Log α := fun env log w =>
  match log.segments[i]? with
  | none => (.panic "index out of bounds", log, w)
  | some pair =>
    match m env pair w with
    | (r, pair', w') => (r, { log with segments := log.segments.set i pair' }, w')

def totalSize (log : Log) : Nat := (log.segments.map fun p => p.segment.size).sum

/-- Whether `additional` bytes would push the active segment past the threshold. -/
def activeWouldOverflow (additional : Nat) : LogIO Log Bool := do
  let log ← Fx.get
  match log.segments.getLast? with
  | none => Fx.panic "segments invariant: never empty after create"
  | some active =>
    pure (active.segment.wouldOverflow additional log.config.segmentSizeThreshold)

/-! ## Creating and rotating -/

def create (config : LogConfig) : LogIO σ Log := do
  Fx.mkdir
  let segment ← Segment.create 0
  let index ← SparseIndex.create 0 config.indexInterval
  pure ⟨config, [⟨segment, index⟩], 0⟩

/-- Fsyncs the active segment and its sparse index. -/
def sync : LogIO Log Unit := do
  onActive (onSegment Segment.sync)
  onActive (onIndex SparseIndex.sync)

/-- Seals the active segment, both files synced, and only then creates the next one. -/
def rotateActiveSegment : LogIO Log Unit := do
  onActive (onSegment Segment.sync)
  onActive (onIndex SparseIndex.sync)
  let log ← Fx.get
  let newSegment ← Segment.create log.nextOffset
  let newIndex ← SparseIndex.create log.nextOffset log.config.indexInterval
  Fx.modify fun log => { log with segments := log.segments ++ [⟨newSegment, newIndex⟩] }

/-! ## Appending -/

def append (X : Crates) (record : Record) : LogIO Log Nat := do
  let wireSizeEstimate := record.wireSize
  let shouldRotate ← activeWouldOverflow wireSizeEstimate
  if shouldRotate then rotateActiveSegment else pure ()
  let log ← Fx.get
  let (actualSize, buf) ← Fx.lift (record.encodeWith X [] log.config.compression)
  let filePos ← onActive (onSegment (Segment.append buf))
  let offset := log.nextOffset
  onActive (onIndex (SparseIndex.trackAppend offset filePos actualSize))
  Fx.modify fun log => { log with nextOffset := log.nextOffset + 1 }
  pure offset

/-- Encodes a batch into one buffer and lists the encoded sizes. -/
def encodeBatch (X : Crates) (c : Compression) :
    List Record → Bytes → List Nat → Res KafkoError (Bytes × List Nat)
  | [], buf, sizes => .ok (buf, sizes)
  | record :: records, buf, sizes => do
    let (actual, buf) ← record.encodeWith X buf c
    encodeBatch X c records buf (sizes ++ [actual])

/-- Tracks the records of a batch one after the other. -/
def trackBatch : List Nat → Nat → Nat → LogIO Log Unit
  | [], _, _ => pure ()
  | size :: sizes, offset, filePos => do
    onActive (onIndex (SparseIndex.trackAppend offset filePos size))
    trackBatch sizes (offset + 1) (filePos + size)

def appendBatch (X : Crates) (records : List Record) : LogIO Log (List Nat) :=
  if records.isEmpty then pure []
  else do
    let totalWireSize := (records.map Record.wireSize).sum
    let shouldRotate ← activeWouldOverflow totalWireSize
    if shouldRotate then rotateActiveSegment else pure ()
    let log ← Fx.get
    let offsets := List.range' log.nextOffset records.length
    let (encodeBuf, actualSizes) ←
      Fx.lift (encodeBatch X log.config.compression records [] [])
    let filePos ← onActive (onSegment (Segment.append encodeBuf))
    trackBatch actualSizes log.nextOffset filePos
    Fx.modify fun log => { log with nextOffset := log.nextOffset + records.length }
    pure offsets

/-! ## Reading -/

def findSegmentIndex (log : Log) (offset : Nat) : Nat :=
  match binarySearchByKey log.segments offset (fun p => p.segment.baseOffset) with
  | .ok i => i
  | .error 0 => 0
  | .error (i + 1) => i

/-- Decodes forward from `current` until it reaches `offset` or runs out of bytes. -/
def findRecord (X : Crates) (offset : Nat) :
    Nat → Bytes → Nat → Res KafkoError (Option Record)
  | 0, _, _ => .ok none
  | fuel + 1, slice, current =>
    if slice.isEmpty then .ok none
    else match Record.decode X slice with
      | .ok (record, rest) =>
        if current = offset then .ok (some record)
        else findRecord X offset fuel rest (current + 1)
      | .err (.truncated _) => .ok none
      | .err e => .err e
      | .panic m => .panic m
      | .crash => .crash

/-- Reads the rest of the segment from the closest indexed record on. -/
def readFrom (X : Crates) (offset : Nat) : LogIO IndexedSegment (Option Record) := do
  let pair ← Fx.get
  let (filePos, startingOffset) := pair.index.lookup offset
  let remaining := pair.segment.size - filePos
  if remaining = 0 then pure none
  else do
    let slice ← onSegment (Segment.readAt filePos remaining)
    Fx.lift (findRecord X offset slice.length slice startingOffset)

def readRecordAt (X : Crates) (offset : Nat) : LogIO Log (Option Record) := do
  let log ← Fx.get
  if log.nextOffset ≤ offset then pure none
  else onSegmentAt (log.findSegmentIndex offset) (readFrom X offset)

/-! ## Retention -/

/-- `remove_file` that takes a missing file for success. -/
def removeIfExists (name : FileName) : LogIO σ Unit :=
  Fx.recover (Fx.remove name) fun e => if e = .io .notFound then some () else none

/-- The segment leaves memory before its files leave the disk. -/
def deleteOldestSegment : LogIO Log Unit := do
  let log ← Fx.get
  match log.segments with
  | [] => Fx.panic "removal index (is 0) should be < len (is 0)"
  | oldest :: rest => do
    Fx.modify fun log => { log with segments := rest }
    Fx.remove oldest.segment.path
    removeIfExists (.index oldest.segment.baseOffset)

/-- `i64::saturating_sub`. -/
def saturatingSub (a b : Int) : Int := max (-2 ^ 63) (min (2 ^ 63 - 1) (a - b))

/-- The age loop; the fuel is the number of segments. -/
def deleteByAge (cutoff : Int) : Nat → LogIO Log Nat
  | 0 => pure 0
  | fuel + 1 => do
    let log ← Fx.get
    match log.segments with
    | oldest :: _ :: _ => do
      let mtime ← oldest.segment.lastModifiedMs
      if mtime < cutoff then do
        deleteOldestSegment
        let deleted ← deleteByAge cutoff fuel
        pure (deleted + 1)
      else pure 0
    | _ => pure 0

/-- The size loop; the fuel is the number of segments. -/
def deleteBySize (maxBytes : Nat) : Nat → LogIO Log Nat
  | 0 => pure 0
  | fuel + 1 => do
    let log ← Fx.get
    if 1 < log.segments.length ∧ maxBytes < log.totalSize then do
      deleteOldestSegment
      let deleted ← deleteBySize maxBytes fuel
      pure (deleted + 1)
    else pure 0

def applyRetention : LogIO Log Nat := do
  let now ← Fx.now
  let nowMs := epochMillis now
  let log ← Fx.get
  let byAge ← match log.config.maxSegmentAge with
    | none => pure 0
    | some maxAge =>
      let maxAgeMs := (maxAge.asMillis : Int).bmod (2 ^ 64)
      deleteByAge (saturatingSub nowMs maxAgeMs) log.segments.length
  let log ← Fx.get
  let bySize ← match log.config.maxPartitionBytes with
    | none => pure 0
    | some maxBytes => deleteBySize maxBytes log.segments.length
  pure (byAge + bySize)

/-! ## Opening -/

/-- The base offset of a `.log` file name. -/
def logBase : FileName → Option Nat
  | .log base => some base
  | .index _ => none

def discoverSegmentOffsets : LogIO σ (List Nat) := do
  let names ← Fx.readDir
  pure ((names.filterMap logBase).insertionSort (· ≤ ·))

/-- The decode loop of the recovery scan: where the last whole record ends. -/
def lastValid (X : Crates) : Nat → Bytes → Nat → Res KafkoError Nat
  | 0, _, pos => .ok pos
  | fuel + 1, slice, pos =>
    if slice.isEmpty then .ok pos
    else match Record.decode X slice with
      | .ok (_, rest) => lastValid X fuel rest (pos + (slice.length - rest.length))
      | .err (.truncated _) => .ok pos
      | .err (.crcMismatch _ _) => .ok pos
      | .err (.invalidLength _) => .ok pos
      | .err e => .err e
      | .panic m => .panic m
      | .crash => .crash

/-- Reads the whole file into a zeroed buffer and ignores how much was read. -/
def readWhole : LogIO Segment Bytes := do
  let s ← Fx.get
  let bytes ← Segment.readAt 0 s.size
  pure (bytes ++ List.replicate (s.size - bytes.length) 0)

def scanForLastValidPosition (X : Crates) : LogIO Segment Nat := do
  let s ← Fx.get
  if s.size = 0 then pure 0
  else do
    let buf ← readWhole
    Fx.lift (lastValid X buf.length buf 0)

/-- Drops what lies behind the last whole record. -/
def truncateTail (X : Crates) : LogIO Segment Unit := do
  let lastValidPos ← scanForLastValidPosition X
  let s ← Fx.get
  if lastValidPos < s.size then Segment.truncate lastValidPos else pure ()

/-- The decode loop of the index rebuild; counts the records. -/
def replayLoop (X : Crates) (base : Nat) : Nat → Bytes → Nat → Nat → LogIO SparseIndex Nat
  | 0, _, _, count => pure count
  | fuel + 1, slice, filePos, count =>
    if slice.isEmpty then pure count
    else do
      let (_, rest) ← Fx.lift (Record.decode X slice)
      let consumed := slice.length - rest.length
      SparseIndex.trackAppend (base + count) filePos consumed
      replayLoop X base fuel rest (filePos + consumed) (count + 1)

def replayRecordsToIndex (X : Crates) (base : Nat) : LogIO IndexedSegment Nat := do
  let pair ← Fx.get
  if pair.segment.size = 0 then pure 0
  else do
    let buf ← onSegment readWhole
    onIndex (replayLoop X base buf.length buf 0 0)

def recoverActiveSegment (X : Crates) (base interval : Nat) :
    LogIO σ (IndexedSegment × Nat) := do
  let segment ← Segment.open_ base
  let (_, segment) ← Fx.withLocal segment (truncateTail X)
  removeIfExists (.index base)
  let index ← SparseIndex.create base interval
  let (recordCount, pair) ← Fx.withLocal ⟨segment, index⟩ (replayRecordsToIndex X base)
  pure (pair, recordCount)

/-- Opens the sealed segments, trusting their indexes. -/
def openSealed (interval : Nat) : List Nat → LogIO σ (List IndexedSegment)
  | [] => pure []
  | base :: bases => do
    let segment ← Segment.open_ base
    let index ← SparseIndex.open_ base interval
    let rest ← openSealed interval bases
    pure (⟨segment, index⟩ :: rest)

/-- Opens an existing log or creates a fresh one; only the last segment is verified. -/
def open_ (X : Crates) (config : LogConfig) : LogIO σ Log := do
  Fx.mkdir
  let baseOffsets ← discoverSegmentOffsets
  match baseOffsets.getLast? with
  | none => create config
  | some activeBase => do
    let sealedSegments ← openSealed config.indexInterval baseOffsets.dropLast
    let (active, activeRecordCount) ←
      recoverActiveSegment X activeBase config.indexInterval
    pure ⟨config, sealedSegments ++ [active], activeBase + activeRecordCount⟩

end Log

end Kafko
