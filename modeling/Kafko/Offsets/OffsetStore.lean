import Kafko.Disk.Links
import Kafko.Disk.Effect
import Kafko.Wire.Compression

/-!
# Committed offsets of a consumer group

`offset_store.rs`. A group's offsets, one per partition, are kept in a file named after the
group:

    crc32 (4) | count (4) | count × (partition (4) offset (8))

little endian, the checksum covering everything behind it. A file that is short, damaged or
truncated stands for zeros. A commit writes the encoding to a temporary file beside it,
syncs that file and renames it over the group's file.

The offsets of a topic are committed by several consumers at once, so a commit is given by
its single file operations (`Commit`); `Desk` is the directory with all the stores open on
it, and `Desk.step` lets any of them do its next operation, fail, or lets the machine crash.
-/

namespace Kafko

open Disk

/-! ## The file format -/

/-- A range of a slice; a range that does not lie inside it is a panic. -/
def slice {ε : Type} (bytes : Bytes) (start len : Nat) : Res ε Bytes :=
  if start + len ≤ bytes.length then .ok ((bytes.drop start).take len)
  else .panic "range end index out of range for slice"

namespace OffsetStore

/-- The pairs of partition and offset, the first partition being `partition`. -/
def encodeEntries (partition : Nat) : List UInt64 → Bytes
  | [] => []
  | offset :: offsets =>
    leBytes 4 partition ++ leBytes 8 offset.toNat ++ encodeEntries (partition + 1) offsets

def encodeBody (offsets : List UInt64) : Bytes :=
  leBytes 4 offsets.length ++ encodeEntries 0 offsets

def encode (X : Crates) (offsets : List UInt64) : Bytes :=
  leBytes 4 (X.crc32 (encodeBody offsets)).toNat ++ encodeBody offsets

/-- The loop of `decode` from the `i`-th pair on, with `left` pairs to go. -/
def decodeFrom (body : Bytes) (partitionCount : Nat) :
    (i left : Nat) → List UInt64 → Res KafkoError (List UInt64)
  | _, 0, result => .ok result
  | i, left + 1, result => do
    let base := 4 + i * 12
    let partition := leNat (← slice body base 4)
    let offset := UInt64.ofNat (leNat (← slice body (base + 4) 8))
    decodeFrom body partitionCount (i + 1) left
      (if partition < partitionCount then result.set partition offset else result)

def decode (X : Crates) (bytes : Bytes) (partitionCount : Nat) :
    Res KafkoError (List UInt64) :=
  let result := List.replicate partitionCount 0
  if bytes.length < 8 then .ok result
  else do
    let crc := leNat (← slice bytes 0 4)
    let body := bytes.drop 4
    if (X.crc32 body).toNat ≠ crc then .ok result
    else do
      let count := leNat (← slice body 0 4)
      if body.length < 4 + count * 12 then .ok result
      else decodeFrom body partitionCount 0 count result

end OffsetStore

/-! ## Stores -/

def tempSuffix : String := ".tmp"

def validateGroupName (group : String) : Res KafkoError Unit :=
  Res.failIf (group.isEmpty ∨ group = "." ∨ group = ".." ∨
    ¬ group.toList.all fun c => c.isAlphanum || c = '.' || c = '_' || c = '-')
    (.invalidGroupName group)

/-- An open store. Its two paths are determined by the group. -/
structure OffsetStore where
  group : String
  committed : List UInt64
  deriving DecidableEq, Repr

namespace OffsetStore

def filePath (store : OffsetStore) : String := store.group

def tempPath (store : OffsetStore) : String := store.group ++ tempSuffix

/-- `OffsetStore::open` on a readable directory. -/
def «open» (X : Crates) (dir : Links String) (group : String) (partitionCount : Nat) :
    Res KafkoError OffsetStore := do
  validateGroupName group
  match dir.read group with
  | some bytes =>
    let committed ← decode X bytes partitionCount
    .ok ⟨group, committed⟩
  | none => .ok ⟨group, List.replicate partitionCount 0⟩

end OffsetStore

/-! ## Commits in progress -/

/-- A call of `commit` that has created its temporary file. -/
structure Commit where
  offsets : List UInt64
  handle : Nat
  /-- How much of the encoding is written. -/
  written : Nat
  /-- Whether `sync_all` has returned. -/
  synced : Bool

/-- An open store and the commit its owner is waiting for. -/
structure Seat where
  store : OffsetStore
  commit : Option Commit

/-- A topic's directory of offsets, the stores open on it, and the commits that have been
completed, the latest first. -/
structure Desk where
  dir : Links String
  seats : List Seat
  completed : List (String × List UInt64)

/-- One step of the consumers of a topic. -/
inductive DeskEvent
  /-- `OffsetStore::open`. -/
  | open (group : String)
  /-- `commit` is called and creates the temporary file. -/
  | create (seat : Nat) (offsets : List UInt64)
  /-- At most `len` further bytes are written. -/
  | write (seat len : Nat)
  | sync (seat : Nat)
  /-- The rename, with which the commit is complete. -/
  | rename (seat : Nat)
  /-- The next operation fails and `commit` returns the error, or its caller gives up. -/
  | fail (seat : Nat)
  /-- The machine stops; of the `i`-th file `kept i` bytes survive if so many are not
  synced. -/
  | crash (kept : Nat → Nat)

namespace Desk

def empty : Desk := ⟨Links.empty, [], []⟩

def setSeat (s : Desk) (seat : Nat) (store : OffsetStore) (commit : Option Commit) : Desk :=
  { s with seats := s.seats.set seat ⟨store, commit⟩ }

/-- The store of an idle seat. -/
def idle (s : Desk) (seat : Nat) : Option OffsetStore :=
  match s.seats[seat]? with
  | some ⟨store, none⟩ => some store
  | _ => none

/-- The store and the commit of a seat that is committing. -/
def busy (s : Desk) (seat : Nat) : Option (OffsetStore × Commit) :=
  match s.seats[seat]? with
  | some ⟨store, some c⟩ => some (store, c)
  | _ => none

/-- One step, if it is possible. A consumer commits one offset per partition. `write_all` and
`sync_all` are taken as they are documented: when they return `Ok` the bytes are in the file, or on
disk, and `commit` goes on to the next of its calls. -/
def step (X : Crates) (partitionCount : Nat) (s : Desk) : DeskEvent → Option Desk
  | .open group =>
    match OffsetStore.open X s.dir group partitionCount with
    | .ok store => some { s with seats := s.seats ++ [⟨store, none⟩] }
    | _ => some s
  | .create seat offsets => do
    let store ← s.idle seat
    guard (offsets.length = partitionCount)
    let (dir, handle) := s.dir.create store.tempPath
    pure ({ s with dir := dir }.setSeat seat store (some ⟨offsets, handle, 0, false⟩))
  | .write seat len => do
    let (store, c) ← s.busy seat
    guard (c.synced = false)
    let chunk := ((OffsetStore.encode X c.offsets).drop c.written).take len
    pure ({ s with dir := s.dir.writeAt c.handle c.written chunk }.setSeat seat store
      (some { c with written := c.written + chunk.length }))
  | .sync seat => do
    let (store, c) ← s.busy seat
    guard (c.written = (OffsetStore.encode X c.offsets).length)
    pure ({ s with dir := s.dir.syncAll c.handle }.setSeat seat store
      (some { c with synced := true }))
  | .rename seat => do
    let (store, c) ← s.busy seat
    guard (c.synced = true)
    match s.dir.rename store.tempPath store.filePath with
    | some dir =>
      pure ({ s with dir := dir, completed := (store.group, c.offsets) :: s.completed }.setSeat
        seat { store with committed := c.offsets } none)
    | none => pure (s.setSeat seat store none)
  | .fail seat => do
    let (store, _) ← s.busy seat
    pure (s.setSeat seat store none)
  | .crash kept => some { s with dir := s.dir.crash kept, seats := [] }

def run (X : Crates) (partitionCount : Nat) (s : Desk) : List DeskEvent → Option Desk
  | [] => some s
  | event :: events => do
    let s' ← s.step X partitionCount event
    s'.run X partitionCount events

/-- The offsets of the group's last completed commit. -/
def lastCommitted (s : Desk) (group : String) : Option (List UInt64) :=
  (s.completed.find? fun entry => entry.1 = group).map Prod.snd

end Desk

/-! ## The format round trip -/

namespace OffsetStore

theorem length_encodeEntries (partition : Nat) (offsets : List UInt64) :
    (encodeEntries partition offsets).length = offsets.length * 12 := by
  induction offsets generalizing partition with
  | nil => rfl
  | cons offset offsets ih =>
    simp only [encodeEntries, List.length_append, length_leBytes, ih, List.length_cons]
    omega

/-- A field of a byte string whose position is known. -/
theorem slice_field {ε : Type} (before : Bytes) {after : Bytes} {start w n : Nat}
    (h : before.length = start) :
    (slice (before ++ (leBytes w n ++ after)) start w : Res ε Bytes) = .ok (leBytes w n) := by
  unfold slice
  rw [if_pos (by simp [h]), ← h, List.drop_left, List.take_append_of_le_length (by simp),
    List.take_of_length_le (by simp)]

/-- Writes `offsets` into `result` from a partition on. -/
def overlay (result : List UInt64) (partition : Nat) : List UInt64 → List UInt64
  | [] => result
  | offset :: offsets => overlay (result.set partition offset) (partition + 1) offsets

theorem decodeFrom_encodeEntries {partitionCount partition : Nat} {before : Bytes}
    (hBefore : before.length = 4 + partition * 12) (offsets result : List UInt64)
    (hFits : partition + offsets.length ≤ 2 ^ 32) (hLen : result.length = partitionCount) :
    decodeFrom (before ++ encodeEntries partition offsets) partitionCount partition
      offsets.length result = .ok (overlay result partition offsets) := by
  induction offsets generalizing partition before result with
  | nil => rfl
  | cons offset offsets ih =>
    rw [List.length_cons] at hFits
    have hPartition : leNat (leBytes 4 partition) = partition :=
      leNat_leBytes_of_lt (by omega)
    have hOffset : UInt64.ofNat (leNat (leBytes 8 offset.toNat)) = offset := by
      rw [leNat_leBytes_of_lt (by simpa using offset.toNat_lt), UInt64.ofNat_toNat]
    have hFirst : (slice (before ++ encodeEntries partition (offset :: offsets))
        (4 + partition * 12) 4 : Res KafkoError Bytes) = .ok (leBytes 4 partition) := by
      rw [encodeEntries, List.append_assoc]
      exact slice_field _ hBefore
    have hSecond : (slice (before ++ encodeEntries partition (offset :: offsets))
        (4 + partition * 12 + 4) 8 : Res KafkoError Bytes) = .ok (leBytes 8 offset.toNat) := by
      rw [encodeEntries, List.append_assoc, ← List.append_assoc]
      exact slice_field _ (by simp [hBefore])
    have hSet : (if partition < partitionCount then result.set partition offset else result) =
        result.set partition offset := by
      split
      · rfl
      · rw [List.set_eq_of_length_le (by omega)]
    have hNext : (before ++ (leBytes 4 partition ++ leBytes 8 offset.toNat)).length =
        4 + (partition + 1) * 12 := by
      simp only [List.length_append, length_leBytes, hBefore]
      omega
    have hRest := ih hNext (result.set partition offset) (by omega) (by simpa using hLen)
    rw [List.append_assoc] at hRest
    rw [List.length_cons, decodeFrom]
    simp only [hFirst, hSecond, Res.ok_bind, hPartition, hOffset, hSet]
    rw [overlay]
    exact hRest

theorem decode_encode (X : Crates) {offsets : List UInt64} (hFits : offsets.length < 2 ^ 32)
    (partitionCount : Nat) :
    decode X (encode X offsets) partitionCount =
      .ok (overlay (List.replicate partitionCount 0) 0 offsets) := by
  have hCrc : leNat (leBytes 4 (X.crc32 (encodeBody offsets)).toNat) =
      (X.crc32 (encodeBody offsets)).toNat :=
    leNat_leBytes_of_lt (by simpa using (X.crc32 (encodeBody offsets)).toNat_lt)
  have hCount : leNat (leBytes 4 offsets.length) = offsets.length :=
    leNat_leBytes_of_lt (by simpa using hFits)
  have hLong : ¬ (encode X offsets).length < 8 := by
    simp only [encode, encodeBody, List.length_append, length_leBytes]
    omega
  have hBody : (encode X offsets).drop 4 = encodeBody offsets := by
    rw [encode, List.drop_left' (length_leBytes 4 _)]
  have hFirst : (slice (encode X offsets) 0 4 : Res KafkoError Bytes) =
      .ok (leBytes 4 (X.crc32 (encodeBody offsets)).toNat) :=
    slice_field [] rfl
  have hSecond : (slice (encodeBody offsets) 0 4 : Res KafkoError Bytes) =
      .ok (leBytes 4 offsets.length) :=
    slice_field [] rfl
  have hWhole : ¬ (encodeBody offsets).length < 4 + offsets.length * 12 := by
    simp [encodeBody, length_encodeEntries]
  unfold decode
  simp only [hLong, if_false, hFirst, Res.ok_bind, hBody, hCrc, ne_eq, not_true_eq_false,
    hSecond, hCount, hWhole]
  have hStart : (leBytes 4 offsets.length).length = 4 + 0 * 12 := by simp
  exact decodeFrom_encodeEntries hStart offsets _ (by omega) (by simp)

theorem getElem?_overlay (result offsets : List UInt64) (partition i : Nat) :
    (overlay result partition offsets)[i]? =
      if partition ≤ i ∧ i < partition + offsets.length ∧ i < result.length
      then offsets[i - partition]? else result[i]? := by
  induction offsets generalizing result partition with
  | nil =>
    rw [overlay, if_neg]
    simp only [List.length_nil]
    omega
  | cons offset offsets ih =>
    rw [overlay, ih, List.length_set, List.length_cons]
    by_cases hAt : i = partition
    · subst hAt
      rw [if_neg (by omega)]
      by_cases hIn : i < result.length
      · rw [if_pos (by omega), List.getElem?_set_self hIn, Nat.sub_self]
        rfl
      · rw [if_neg (by omega), List.set_eq_of_length_le (by omega)]
    · rw [List.getElem?_set_ne (Ne.symm hAt)]
      by_cases hIn : partition + 1 ≤ i ∧ i < partition + 1 + offsets.length ∧ i < result.length
      · rw [if_pos hIn, if_pos (by omega)]
        have hPred : i - partition = i - (partition + 1) + 1 := by omega
        rw [hPred, List.getElem?_cons_succ]
      · rw [if_neg hIn, if_neg (by omega)]

/-- One offset per partition comes back as it was. -/
theorem overlay_zeros {partitionCount : Nat} {offsets : List UInt64}
    (h : offsets.length = partitionCount) :
    overlay (List.replicate partitionCount 0) 0 offsets = offsets := by
  ext1 i
  rw [getElem?_overlay, List.length_replicate]
  by_cases hIn : i < partitionCount
  · rw [if_pos (by omega), Nat.sub_zero]
  · rw [if_neg (by omega), List.getElem?_eq_none (by simpa using hIn),
      List.getElem?_eq_none (by omega)]

end OffsetStore

end Kafko
