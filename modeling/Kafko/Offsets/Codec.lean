import Kafko.Offsets.OffsetStore

/-!
# The offset file as a codec

What `decode` makes of an arbitrary byte string. A file counts if it is `Intact`: its checksum is
the one of everything behind it and the pairs it declares are there. Of an intact file the last
pair stored for a partition is the one that stands, and any other file stands for zeros. The
number of pairs is whatever the file says, so the bound on it comes from the width of its field.
-/

namespace Kafko

open Disk

namespace OffsetStore

/-- The number of pairs a file declares. -/
def storedCount (bytes : Bytes) : Nat := leNat ((bytes.drop 4).take 4)

/-- The `i`-th pair of a file, partition first. -/
def storedPair (bytes : Bytes) (i : Nat) : Nat × UInt64 :=
  (leNat ((bytes.drop (8 + i * 12)).take 4),
    UInt64.ofNat (leNat ((bytes.drop (12 + i * 12)).take 8)))

/-- The pairs of a file from the `i`-th on. -/
def storedFrom (bytes : Bytes) : (i left : Nat) → List (Nat × UInt64)
  | _, 0 => []
  | i, left + 1 => storedPair bytes i :: storedFrom bytes (i + 1) left

def storedPairs (bytes : Bytes) : List (Nat × UInt64) := storedFrom bytes 0 (storedCount bytes)

/-- The offset of the last pair for a partition. -/
def lastStored (pairs : List (Nat × UInt64)) (partition : Nat) : Option UInt64 :=
  (pairs.reverse.find? fun pair => pair.1 = partition).map Prod.snd

structure Intact (X : Crates) (bytes : Bytes) : Prop where
  header : 8 ≤ bytes.length
  checksum : leNat (bytes.take 4) = (X.crc32 (bytes.drop 4)).toNat
  fits : 8 + storedCount bytes * 12 ≤ bytes.length

variable {X : Crates} {bytes : Bytes} {partitionCount : Nat}

/-- The count is a `u32`, so the length it stands for is far below the range of `usize`. -/
theorem storedCount_lt (bytes : Bytes) : storedCount bytes < 2 ^ 32 := by
  have hLt := leNat_lt ((bytes.drop 4).take 4)
  have hLen : ((bytes.drop 4).take 4).length ≤ 4 := List.length_take_le 4 _
  have hPow : 256 ^ ((bytes.drop 4).take 4).length ≤ 256 ^ 4 :=
    Nat.pow_le_pow_right (by decide) hLen
  have hWidth : (256 : Nat) ^ 4 = 2 ^ 32 := by decide
  unfold storedCount
  omega

/-! ## The last pair of a partition -/

theorem lastStored_cons (pair : Nat × UInt64) (pairs : List (Nat × UInt64)) (partition : Nat) :
    lastStored (pair :: pairs) partition =
      (lastStored pairs partition).or (if pair.1 = partition then some pair.2 else none) := by
  unfold lastStored
  rw [List.reverse_cons, List.find?_append]
  cases pairs.reverse.find? fun pair => pair.1 = partition with
  | some found => rfl
  | none =>
    by_cases hPair : pair.1 = partition
    · simp [hPair]
    · simp [hPair]

/-- Stores one pair, if its partition is in range. -/
def storePair (partitionCount : Nat) (result : List UInt64) (pair : Nat × UInt64) :
    List UInt64 :=
  if pair.1 < partitionCount then result.set pair.1 pair.2 else result

theorem length_storePair (result : List UInt64) (pair : Nat × UInt64) :
    (storePair partitionCount result pair).length = result.length := by
  unfold storePair
  split
  · exact List.length_set
  · rfl

theorem length_foldl_storePair (pairs : List (Nat × UInt64)) (result : List UInt64) :
    (pairs.foldl (storePair partitionCount) result).length = result.length := by
  induction pairs generalizing result with
  | nil => rfl
  | cons pair pairs ih => rw [List.foldl_cons, ih, length_storePair]

/-- Pairs are stored one after the other, so the last one for a partition stands. -/
theorem getElem?_foldl_storePair {partition : Nat} (hPartition : partition < partitionCount)
    (pairs : List (Nat × UInt64)) {result : List UInt64} (hLen : result.length = partitionCount) :
    (pairs.foldl (storePair partitionCount) result)[partition]? =
      (lastStored pairs partition).or result[partition]? := by
  induction pairs generalizing result with
  | nil => rfl
  | cons pair pairs ih =>
    have hHead : (storePair partitionCount result pair)[partition]? =
        (if pair.1 = partition then some pair.2 else none).or result[partition]? := by
      unfold storePair
      by_cases hPair : pair.1 = partition
      · rw [if_pos hPair, if_pos (hPair ▸ hPartition), hPair]
        rw [List.getElem?_set_self (hLen ▸ hPartition)]
        rfl
      · rw [if_neg hPair, Option.none_or]
        split
        · exact List.getElem?_set_ne hPair
        · rfl
    rw [List.foldl_cons, ih ((length_storePair _ _).trans hLen), hHead, lastStored_cons,
      Option.or_assoc]

/-! ## Decoding -/

theorem slice_eq {ε : Type} {start len : Nat} (h : start + len ≤ bytes.length) :
    (slice bytes start len : Res ε Bytes) = .ok ((bytes.drop start).take len) := if_pos h

/-- The loop stores the pairs it was given, one after the other. -/
theorem decodeFrom_eq {i left : Nat} (hFits : 8 + (i + left) * 12 ≤ bytes.length)
    (result : List UInt64) :
    decodeFrom (bytes.drop 4) partitionCount i left result =
      .ok ((storedFrom bytes i left).foldl (storePair partitionCount) result) := by
  induction left generalizing i result with
  | zero => rfl
  | succ left ih =>
    have hLen : (bytes.drop 4).length = bytes.length - 4 := List.length_drop
    have hFirst : (slice (bytes.drop 4) (4 + i * 12) 4 : Res KafkoError Bytes) =
        .ok ((bytes.drop (8 + i * 12)).take 4) := by
      rw [slice_eq (by omega), List.drop_drop]
      congr 3
      omega
    have hSecond : (slice (bytes.drop 4) (4 + i * 12 + 4) 8 : Res KafkoError Bytes) =
        .ok ((bytes.drop (12 + i * 12)).take 8) := by
      rw [slice_eq (by omega), List.drop_drop]
      congr 3
      omega
    rw [decodeFrom]
    simp only [hFirst, hSecond, Res.ok_bind]
    rw [ih (by omega), storedFrom, List.foldl_cons]
    rfl

/-- Eight bytes are enough to read the checksum and the count. -/
theorem slice_header (hHeader : 8 ≤ bytes.length) :
    (slice bytes 0 4 : Res KafkoError Bytes) = .ok (bytes.take 4) ∧
      (slice (bytes.drop 4) 0 4 : Res KafkoError Bytes) = .ok ((bytes.drop 4).take 4) := by
  have hLen : (bytes.drop 4).length = bytes.length - 4 := List.length_drop
  exact ⟨slice_eq (by omega), slice_eq (by omega)⟩

theorem decode_of_intact (h : Intact X bytes) (partitionCount : Nat) :
    decode X bytes partitionCount = .ok ((storedPairs bytes).foldl (storePair partitionCount)
      (List.replicate partitionCount 0)) := by
  have hLen : (bytes.drop 4).length = bytes.length - 4 := List.length_drop
  have hHeader := h.header
  have hFits := h.fits
  obtain ⟨hCrc, hCount⟩ := slice_header hHeader
  have hWhole : ¬ (bytes.drop 4).length < 4 + leNat ((bytes.drop 4).take 4) * 12 := by
    unfold storedCount at hFits
    omega
  unfold decode
  dsimp only
  rw [if_neg (by omega), hCrc, Res.ok_bind, h.checksum, if_neg (not_not_intro rfl), hCount,
    Res.ok_bind, if_neg hWhole]
  exact decodeFrom_eq (by omega) _

theorem decode_of_damaged (h : ¬ Intact X bytes) (partitionCount : Nat) :
    decode X bytes partitionCount = .ok (List.replicate partitionCount 0) := by
  unfold decode
  dsimp only
  by_cases hShort : bytes.length < 8
  · rw [if_pos hShort]
  · have hLen : (bytes.drop 4).length = bytes.length - 4 := List.length_drop
    obtain ⟨hCrc, hCount⟩ := slice_header (Nat.le_of_not_lt hShort)
    rw [if_neg hShort, hCrc, Res.ok_bind]
    by_cases hSum : (X.crc32 (bytes.drop 4)).toNat ≠ leNat (bytes.take 4)
    · rw [if_pos hSum]
    · rw [if_neg hSum, hCount, Res.ok_bind, if_pos]
      by_contra hWhole
      apply h
      refine ⟨by omega, (not_not.mp hSum).symm, ?_⟩
      unfold storedCount
      omega

/-- Every byte string decodes to one offset for each partition: of an intact file the last one
stored, and otherwise zero. -/
theorem decode_spec (X : Crates) (bytes : Bytes) (partitionCount : Nat) :
    ∃ result, decode X bytes partitionCount = .ok result ∧ result.length = partitionCount ∧
      (¬ Intact X bytes → result = List.replicate partitionCount 0) ∧
      (Intact X bytes → ∀ partition, partition < partitionCount →
        result[partition]? = some ((lastStored (storedPairs bytes) partition).getD 0)) := by
  by_cases hIntact : Intact X bytes
  · refine ⟨_, decode_of_intact hIntact partitionCount, ?_, fun h => absurd hIntact h, ?_⟩
    · rw [length_foldl_storePair, List.length_replicate]
    · intro _ partition hPartition
      rw [getElem?_foldl_storePair hPartition _ List.length_replicate,
        List.getElem?_replicate_of_lt hPartition]
      cases lastStored (storedPairs bytes) partition <;> rfl
  · exact ⟨_, decode_of_damaged hIntact partitionCount, List.length_replicate, fun _ => rfl,
      fun h => absurd h hIntact⟩

theorem length_overlay (result offsets : List UInt64) (partition : Nat) :
    (overlay result partition offsets).length = result.length := by
  induction offsets generalizing result partition with
  | nil => rfl
  | cons offset offsets ih => rw [overlay, ih, List.length_set]

/-- What was encoded decodes for any number of partitions: the partitions both sides know get
their offset, the others zero. -/
theorem decode_encode_spec (X : Crates) {offsets : List UInt64} (hFits : offsets.length < 2 ^ 32)
    (partitionCount : Nat) :
    ∃ result, decode X (encode X offsets) partitionCount = .ok result ∧
      result.length = partitionCount ∧
      ∀ partition, partition < partitionCount →
        result[partition]? = some (offsets[partition]?.getD 0) := by
  refine ⟨_, decode_encode X hFits partitionCount, ?_, ?_⟩
  · rw [length_overlay, List.length_replicate]
  · intro partition hPartition
    rw [getElem?_overlay, List.length_replicate, List.getElem?_replicate_of_lt hPartition]
    by_cases hIn : partition < offsets.length
    · rw [if_pos (by omega), Nat.sub_zero, List.getElem?_eq_getElem hIn]
      rfl
    · rw [if_neg (by omega), List.getElem?_eq_none (by omega)]
      rfl

end OffsetStore

/-- The offset file as a codec: what was encoded comes back for any number of partitions, and
any other byte string reads as what is intact in it, without a read out of bounds. -/
theorem OffsetStore.offset_file_codec (X : Crates) (partitionCount : Nat) :
    (∀ offsets : List UInt64, offsets.length < 2 ^ 32 →
      ∃ result, decode X (encode X offsets) partitionCount = .ok result ∧
        result.length = partitionCount ∧
        (∀ i, i < min partitionCount offsets.length → result[i]? = offsets[i]?) ∧
        (∀ i, i < partitionCount → offsets.length ≤ i → result[i]? = some 0)) ∧
    (∀ bytes : Bytes, 4 + storedCount bytes * 12 < 2 ^ 64 ∧
      ∃ result, decode X bytes partitionCount = .ok result ∧ result.length = partitionCount ∧
        (¬ Intact X bytes → result = List.replicate partitionCount 0) ∧
        (Intact X bytes → ∀ i, i < partitionCount →
          result[i]? = some ((lastStored (storedPairs bytes) i).getD 0))) := by
  constructor
  · intro offsets hFits
    obtain ⟨result, hDecode, hLen, hEntries⟩ := decode_encode_spec X hFits partitionCount
    refine ⟨result, hDecode, hLen, ?_, ?_⟩
    · intro i hi
      rw [hEntries i (by omega), List.getElem?_eq_getElem (by omega), Option.getD_some]
    · intro i hi hBeyond
      rw [hEntries i hi, List.getElem?_eq_none hBeyond, Option.getD_none]
  · intro bytes
    have hCount := storedCount_lt bytes
    exact ⟨by omega, decode_spec X bytes partitionCount⟩

/-- Three offsets, read with room for two. -/
theorem OffsetStore.offset_file_codec_narrowed :
    ∃ result, decode Crates.uncompressed (encode Crates.uncompressed [5, 6, 7]) 2 = .ok result ∧
      result[1]? = some 6 := by
  obtain ⟨result, hDecode, -, hEntries, -⟩ :=
    (OffsetStore.offset_file_codec Crates.uncompressed 2).1 [5, 6, 7] (by decide)
  exact ⟨result, hDecode, hEntries 1 (by decide)⟩

end Kafko
