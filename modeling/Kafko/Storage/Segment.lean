import Kafko.Wire.Frame
import Kafko.Disk.Search

/-!
# Segment files and their sparse indexes

`segment.rs` and `sparse_index.rs`. File names are written with the base offset as a
zero-padded decimal of twenty digits, which is injective on 64-bit offsets and inverse to
the parse in `discover_segment_offsets`; a name is therefore its kind and its base offset.

A `Segment` caches where it believes the handle of its file stands (`cursor`). The real
position is kept by the file in the store, and only a seek, a read or a write moves it.
-/

namespace Kafko

open Disk

inductive FileName
  | log (base : Nat)
  | index (base : Nat)
  deriving DecidableEq, Repr

/-- Computations over one partition directory. -/
abbrev LogIO (σ α : Type) := Fx FileName KafkoError σ α

/-- `duration_since(UNIX_EPOCH)` in milliseconds, cast to `i64`; 0 before the epoch. -/
def epochMillis (t : Int) : Int := if t < 0 then 0 else t.bmod (2 ^ 64)

/-! ## Segments -/

structure Segment where
  baseOffset : Nat
  size : Nat
  cursor : Option Nat
  deriving DecidableEq, Repr

namespace Segment

variable {σ : Type}

def path (s : Segment) : FileName := .log s.baseOffset

def create (base : Nat) : LogIO σ Segment := do
  Fx.createNew (.log base)
  pure ⟨base, 0, some 0⟩

def open_ (base : Nat) : LogIO σ Segment := do
  let len ← Fx.metadataLen (.log base)
  Fx.openFile (.log base)
  pure ⟨base, len, some 0⟩

/-- An empty segment accepts any first write. -/
def wouldOverflow (s : Segment) (additional threshold : Nat) : Bool :=
  if s.size = 0 then false else decide (threshold < s.size + additional)

/-- Seeks only when the cached position is not the wanted one. -/
def ensureCursor (pos : Nat) : LogIO Segment Unit := do
  let s ← Fx.get
  if s.cursor = some pos then pure ()
  else do
    Fx.seek s.path pos
    Fx.modify fun s => { s with cursor := some pos }

def append (bytes : Bytes) : LogIO Segment Nat := do
  let s ← Fx.get
  let filePos := s.size
  ensureCursor filePos
  Fx.write s.path bytes
  Fx.modify fun s =>
    { s with cursor := some (filePos + bytes.length), size := filePos + bytes.length }
  pure filePos

/-- Reads up to `len` bytes from `filePos` on; the result is the part of the buffer the
call filled. -/
def readAt (filePos len : Nat) : LogIO Segment Bytes := do
  let s ← Fx.get
  ensureCursor filePos
  let bytes ← Fx.read s.path len
  Fx.modify fun s => { s with cursor := some (filePos + bytes.length) }
  pure bytes

def truncate (newSize : Nat) : LogIO Segment Unit := do
  let s ← Fx.get
  Fx.setLen s.path newSize
  Fx.syncData s.path
  Fx.modify fun s => { s with size := newSize, cursor := none }

def sync : LogIO Segment Unit := do
  let s ← Fx.get
  Fx.syncData s.path

def lastModifiedMs (s : Segment) : LogIO σ Int := do
  let modified ← Fx.metadataMtime s.path
  pure (epochMillis modified)

end Segment

/-! ## Sparse indexes -/

/-- Both fields are `u32` in the source; `trackAppend` checks the conversions. -/
structure IndexEntry where
  relativeOffset : Nat
  filePosition : Nat
  deriving DecidableEq, Repr

structure SparseIndex where
  baseOffset : Nat
  entries : List IndexEntry
  bytesSinceLastEntry : Nat
  interval : Nat
  deriving DecidableEq, Repr

/-- The eight bytes of one entry. -/
def IndexEntry.encode (e : IndexEntry) : Bytes :=
  beBytes 4 e.relativeOffset ++ beBytes 4 e.filePosition

namespace SparseIndex

variable {σ : Type}

def path (x : SparseIndex) : FileName := .index x.baseOffset

/-- `chunks_exact(8)`: a partial entry at the end is dropped. -/
def decodeEntries : Bytes → List IndexEntry
  | a :: b :: c :: d :: e :: f :: g :: h :: rest =>
    ⟨beNat [a, b, c, d], beNat [e, f, g, h]⟩ :: decodeEntries rest
  | _ => []

def create (base interval : Nat) : LogIO σ SparseIndex := do
  Fx.createNew (.index base)
  pure ⟨base, [], 0, interval⟩

def open_ (base interval : Nat) : LogIO σ SparseIndex := do
  let bytes ← Fx.readAll (.index base)
  Fx.openFile (.index base)
  pure ⟨base, decodeEntries bytes, 0, interval⟩

def needEntry (x : SparseIndex) : Bool :=
  x.entries.isEmpty || decide (x.interval ≤ x.bytesSinceLastEntry)

def writeEntry (e : IndexEntry) : LogIO SparseIndex Unit := do
  let x ← Fx.get
  Fx.append x.path e.encode

/-- Writes one entry; both conversions to `u32` are checked, and `expect` puts the error behind its
message. -/
def addEntry (absoluteOffset filePosition : Nat) : LogIO SparseIndex Unit := do
  let x ← Fx.get
  let relativeOffset := absoluteOffset - x.baseOffset
  if 2 ^ 32 ≤ relativeOffset then
    Fx.panic "relative offset exceeds u32 (segment too large?): TryFromIntError(())"
  else if 2 ^ 32 ≤ filePosition then
    Fx.panic "file position exceeds u32 (segment too large?): TryFromIntError(())"
  else do
    writeEntry ⟨relativeOffset, filePosition⟩
    Fx.modify fun x =>
      { x with entries := x.entries ++ [⟨relativeOffset, filePosition⟩],
               bytesSinceLastEntry := 0 }

/-- Adds an entry for the record just appended if it is the first or enough bytes have
passed since the last one. -/
def trackAppend (absoluteOffset filePosition recordSize : Nat) : LogIO SparseIndex Unit := do
  let x ← Fx.get
  if x.needEntry then addEntry absoluteOffset filePosition else pure ()
  Fx.modify fun x => { x with bytesSinceLastEntry := x.bytesSinceLastEntry + recordSize }

/-- The file position and the offset of the closest indexed record at or before
`absoluteOffset`. -/
def lookup (x : SparseIndex) (absoluteOffset : Nat) : Nat × Nat :=
  if absoluteOffset < x.baseOffset then (0, x.baseOffset)
  else
    let relative := min (absoluteOffset - x.baseOffset) (2 ^ 32 - 1)
    let at_ (i : Nat) : Nat × Nat :=
      match x.entries[i]? with
      | some e => (e.filePosition, x.baseOffset + e.relativeOffset)
      | none => (0, x.baseOffset)
    match binarySearchByKey x.entries relative IndexEntry.relativeOffset with
    | .ok i => at_ i
    | .error 0 => (0, x.baseOffset)
    | .error (i + 1) => at_ i

def sync : LogIO SparseIndex Unit := do
  let x ← Fx.get
  Fx.syncData x.path

end SparseIndex

end Kafko
