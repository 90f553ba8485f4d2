import Kafko.Storage.Log
import Kafko.Disk.Framing

/-!
# What a log directory holds

A `Layout` describes a log by its frames: sealed chunks, oldest first, and an active one.
`OnDisk` ties a layout to the bytes of a directory at any moment, also in the middle of an
operation: sealed chunks are complete and synced, the active file holds a prefix of its
frames, and the sync point of the active file lies between two frames. It says nothing
about the active index, which recovery rebuilds. `Live` adds the in-memory log to it.

`Layout.durable` is a lower bound for the number of synced frames of the active chunk, so
a sync that nobody relies on needs no new layout.
-/

namespace Kafko

open Disk

abbrev LogFrame := Frame Record

/-- A segment as a list of frames. -/
structure Chunk where
  base : Nat
  frames : List LogFrame

namespace Chunk

/-- The offset behind the last record. -/
def next (c : Chunk) : Nat := c.base + c.frames.length

end Chunk

/-- Sealed chunks that follow each other without a gap, from offset `oldest` to `base`. -/
def Chain : Nat → List Chunk → Nat → Prop
  | oldest, [], base => oldest = base
  | oldest, c :: cs, base => c.base = oldest ∧ c.frames ≠ [] ∧ Chain c.next cs base

structure Layout where
  oldest : Nat
  chunks : List Chunk
  active : Chunk
  durable : Nat

namespace Layout

def next (L : Layout) : Nat := L.active.next

/-- Every frame of the log, oldest first. -/
def frames (L : Layout) : List LogFrame := L.chunks.flatMap Chunk.frames ++ L.active.frames

/-- The offset up to which everything is known to be synced. -/
def durableOffset (L : Layout) : Nat := L.active.base + L.durable

def push (L : Layout) (fs : List LogFrame) : Layout :=
  { L with active := ⟨L.active.base, L.active.frames ++ fs⟩ }

def rotate (L : Layout) : Layout :=
  { L with chunks := L.chunks ++ [L.active], active := ⟨L.next, []⟩, durable := 0 }

def synced (L : Layout) : Layout := { L with durable := L.active.frames.length }

/-- The layout after an append that rotates first or not. -/
def step (L : Layout) (rotates : Bool) (fs : List LogFrame) : Layout :=
  (if rotates then L.rotate else L).push fs

end Layout

/-! ## Index entries for a list of frames -/

/-- Every entry names a frame and the position it starts at; entries are in order. -/
structure IndexFor (entries : List IndexEntry) (fs : List LogFrame) : Prop where
  sorted : entries.Pairwise fun a b => a.relativeOffset < b.relativeOffset
  exact : ∀ e ∈ entries, e.relativeOffset < fs.length ∧
    e.filePosition = span (fs.take e.relativeOffset)
  small : ∀ e ∈ entries, e.relativeOffset < 2 ^ 32 ∧ e.filePosition < 2 ^ 32

/-- The bytes of an index file. -/
def encodeEntries (entries : List IndexEntry) : Bytes := entries.flatMap IndexEntry.encode

/-! ## The directory -/

/-- A file whose whole content has been synced. -/
def Settled (f : File) : Prop := f.synced = f.data.length ∧ f.cut = []

structure SealedOnDisk (d : Store FileName) (c : Chunk) : Prop where
  log : ∃ f, d.get (.log c.base) = some f ∧ f.data = flat c.frames ∧ Settled f
  index : ∃ f entries, d.get (.index c.base) = some f ∧ f.data = encodeEntries entries ∧
    IndexFor entries c.frames ∧ Settled f

/-- The active `.log` file: a prefix of the frames, synced up to a frame boundary that
covers the durable ones. -/
structure ActiveOnDisk (f : File) (fs : List LogFrame) (durable : Nat) : Prop where
  content : f.data ++ f.cut <+: flat fs
  synced : ∃ k, durable ≤ k ∧ k ≤ fs.length ∧ f.synced = span (fs.take k)
  covered : f.synced ≤ f.data.length

structure OnDisk (d : Store FileName) (L : Layout) : Prop where
  chain : Chain L.oldest L.chunks L.active.base
  chunks : ∀ c ∈ L.chunks, SealedOnDisk d c
  active : ∃ f, d.get (.log L.active.base) = some f ∧
    ActiveOnDisk f L.active.frames L.durable
  logs : ∀ b, (d.get (.log b)).isSome → b = L.active.base ∨ ∃ c ∈ L.chunks, c.base = b
  indexes : ∀ b, (d.get (.index b)).isSome → b ≤ L.active.base

/-! ## The log in memory -/

/-- An open segment: its cached size and position are those of the file. -/
structure SegmentOk (d : Store FileName) (s : Segment) (f : File) : Prop where
  file : d.get s.path = some f
  size : s.size = f.data.length
  cursor : ∀ p, s.cursor = some p → f.pos = p

/-- An open index: its file decodes to the entries in memory. -/
structure IndexOk (d : Store FileName) (x : SparseIndex) : Prop where
  file : ∃ f, d.get x.path = some f ∧ f.data = encodeEntries x.entries

/-- A segment and its index in memory, for a given chunk. -/
structure Loaded (d : Store FileName) (p : IndexedSegment) (c : Chunk) : Prop where
  segmentBase : p.segment.baseOffset = c.base
  segment : ∃ f, SegmentOk d p.segment f ∧ f.data = flat c.frames ∧ f.cut = []
  indexBase : p.index.baseOffset = c.base
  index : IndexOk d p.index
  entries : IndexFor p.index.entries c.frames

/-- The index one gets by tracking frames of the given sizes from an empty one. -/
def SparseIndex.track (x : SparseIndex) (offset filePosition size : Nat) : SparseIndex :=
  if x.needEntry then
    { x with entries := x.entries ++ [⟨offset - x.baseOffset, filePosition⟩],
             bytesSinceLastEntry := size }
  else { x with bytesSinceLastEntry := x.bytesSinceLastEntry + size }

def SparseIndex.trackAll : SparseIndex → Nat → Nat → List Nat → SparseIndex
  | x, _, _, [] => x
  | x, offset, filePosition, size :: sizes =>
    trackAll (x.track offset filePosition size) (offset + 1) (filePosition + size) sizes

/-- The index of a segment all of whose frames were tracked from the start. -/
def SparseIndex.tracked (base interval : Nat) (fs : List LogFrame) : SparseIndex :=
  trackAll ⟨base, [], 0, interval⟩ base 0 (sizes fs)

/-- The log in memory agrees with the directory, the active index having been told of the
first `m` frames: `init` are the sealed segments, `f` is the active `.log` file. -/
structure Parts (log : Log) (d : Store FileName) (L : Layout) (m : Nat)
    (init : List IndexedSegment) (active : IndexedSegment) (f : File) : Prop where
  disk : OnDisk d L
  split : log.segments = init ++ [active]
  loaded : List.Forall₂ (Loaded d) init L.chunks
  base : active.segment.baseOffset = L.active.base
  segment : SegmentOk d active.segment f
  data : f.data = flat L.active.frames
  cut : f.cut = []
  index : IndexOk d active.index
  entries : IndexFor active.index.entries (L.active.frames.take m)
  tracked : active.index =
    SparseIndex.tracked L.active.base log.config.indexInterval (L.active.frames.take m)

/-- The log in memory agrees with the directory. -/
structure Live (log : Log) (d : Store FileName) (L : Layout) : Prop where
  parts : ∃ init active f, Parts log d L L.active.frames.length init active f
  nextOffset : log.nextOffset = L.next

end Kafko
