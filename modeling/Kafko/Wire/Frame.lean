import Kafko.Wire.Record

/-!
# Frames: what one encoded record looks like to the decoder

`Record.wire` is the byte string `encodeWith` appends (`encodeWith_eq`). Two facts about it
carry everything above this layer: the decoder reads a whole frame back and stops exactly
at its end (`decode_wire`), and on every strict prefix of a frame it reports `truncated`
and nothing else (`decode_strict_prefix`). Neither needs anything of the checksum.
-/

namespace Kafko

open Disk Res

namespace Record

/-! ## The bytes of a frame -/

/-- The frame around an already compressed value. -/
def frameBytes (X : Crates) (r : Record) (c : Compression) (valBytes : Bytes) : Bytes :=
  beBytes 4 (4 + (r.payload c valBytes).length) ++
    beBytes 4 (X.crc32 (r.payload c valBytes)).toNat ++ r.payload c valBytes

/-- The frame of a record under a codec. -/
def wire (X : Crates) (c : Compression) (r : Record) : Res KafkoError Bytes := do
  let valBytes ← c.compress X r.value
  pure (r.frameBytes X c valBytes)

/-- The bytes the key takes, its length field included. -/
def keyLen (r : Record) : Nat :=
  match r.key with
  | none => 4
  | some k => 4 + k.length

theorem four_le_keyLen (r : Record) : 4 ≤ r.keyLen := by
  unfold keyLen
  split <;> omega

theorem length_payload (r : Record) (c : Compression) (valBytes : Bytes) :
    (r.payload c valBytes).length = 1 + 8 + r.keyLen + (4 + valBytes.length) := by
  unfold payload keyBytes keyLen
  cases r.key with
  | none => simp; omega
  | some k => simp; omega

theorem length_frameBytes (X : Crates) (r : Record) (c : Compression) (valBytes : Bytes) :
    (r.frameBytes X c valBytes).length = 21 + r.keyLen + valBytes.length := by
  simp only [frameBytes, List.length_append, length_beBytes, length_payload]
  omega

/-- Overwriting the placeholder leaves the frame behind the old buffer. -/
theorem encodeInner_eq (X : Crates) (r : Record) (out : Bytes) (c : Compression)
    (override : Option Bytes) :
    r.encodeInner X out c override =
      ((r.frameBytes X c (override.getD r.value)).length,
        out ++ r.frameBytes X c (override.getD r.value)) := by
  have hDrop : ∀ (a b p : Bytes), (a ++ b ++ p).drop (a ++ b).length = p := by
    intro a b p
    simp
  have hTake : ∀ (a b p : Bytes), (a ++ b ++ p).take a.length = a := by
    intro a b p
    simp
  have hRest : ∀ (a p : Bytes), (a ++ beBytes 4 0 ++ p).drop (a.length + 4) = p := by
    intro a p
    have h := hDrop a (beBytes 4 0) p
    rwa [List.length_append, length_beBytes] at h
  simp only [encodeInner, hDrop, hTake, hRest]
  simp only [frameBytes, length_payload, keyLen, Prod.mk.injEq, List.length_append,
    length_beBytes, List.append_assoc]
  refine ⟨?_, ?_⟩
  · omega
  · trivial

/-- Encoding leaves the old contents alone, appends the frame and returns its size. -/
theorem encodeWith_eq (X : Crates) (r : Record) (out : Bytes) (c : Compression) :
    r.encodeWith X out c = (do
      let bytes ← r.wire X c
      pure (bytes.length, out ++ bytes)) := by
  cases c with
  | none =>
    simp [encodeWith, wire, Compression.compress, encodeInner_eq]
  | lz4 =>
    simp only [encodeWith, wire]
    cases Compression.compress X .lz4 r.value <;>
      simp [encodeInner_eq] <;> rfl
  | zstd =>
    simp only [encodeWith, wire]
    cases Compression.compress X .zstd r.value <;>
      simp [encodeInner_eq] <;> rfl

theorem wire_eq_ok {X : Crates} {c : Compression} {r : Record} {bytes : Bytes} :
    r.wire X c = .ok bytes ↔
      ∃ valBytes, c.compress X r.value = .ok valBytes ∧ r.frameBytes X c valBytes = bytes := by
  simp [wire, bind_eq_ok]

/-- Encoding can only fail because the codec is not linked. -/
theorem wire_cases (X : Crates) (c : Compression) (r : Record) :
    (∃ bytes, r.wire X c = .ok bytes) ∨ r.wire X c = .err (.compressionUnavailable c) := by
  unfold wire
  cases c with
  | none => exact Or.inl ⟨_, rfl⟩
  | lz4 =>
    cases hc : X.lz4 with
    | none =>
      right
      simp [Compression.compress, Compression.lz4Compress, hc]
    | some codec =>
      left
      simp [Compression.compress, Compression.lz4Compress, hc]
  | zstd =>
    cases hc : X.zstd with
    | none =>
      right
      simp [Compression.compress, Compression.zstdCompress, hc]
    | some codec =>
      left
      simp [Compression.compress, Compression.zstdCompress, hc]

theorem wire_isAvailable {X : Crates} {c : Compression} (h : c.isAvailable X = true)
    (r : Record) : ∃ bytes, r.wire X c = .ok bytes := by
  rcases wire_cases X c r with hOk | hErr
  · exact hOk
  · exfalso
    cases c with
    | none => simp [wire, Compression.compress] at hErr
    | lz4 =>
      obtain ⟨codec, hc⟩ := Option.isSome_iff_exists.mp h
      simp [wire, Compression.compress, Compression.lz4Compress, hc] at hErr
    | zstd =>
      obtain ⟨codec, hc⟩ := Option.isSome_iff_exists.mp h
      simp [wire, Compression.compress, Compression.zstdCompress, hc] at hErr

theorem length_wire {X : Crates} {c : Compression} {r : Record} {bytes : Bytes}
    (h : r.wire X c = .ok bytes) : 25 ≤ bytes.length := by
  obtain ⟨valBytes, -, rfl⟩ := wire_eq_ok.mp h
  have := r.four_le_keyLen
  rw [length_frameBytes]
  omega

theorem wire_ne_nil {X : Crates} {c : Compression} {r : Record} {bytes : Bytes}
    (h : r.wire X c = .ok bytes) : bytes ≠ [] := by
  have := length_wire h
  rintro rfl
  simp at this

/-! ## Decoding a frame -/

theorem decodeKey_key {r : Record} (hLen : r.keyLen < 2 ^ 32) (totalLen : Nat)
    (rest : Bytes) :
    ∃ keyLenRaw buf, getU32 (r.keyBytes ++ rest) = .ok (keyLenRaw, buf) ∧
      decodeKey totalLen keyLenRaw buf = .ok (r.key, rest) := by
  unfold keyBytes
  cases hKey : r.key with
  | none =>
    refine ⟨_, _, getU32_append (by decide) rest, ?_⟩
    simp [decodeKey]
  | some k =>
    have hk : k.length < keyNullSentinel := by
      simp only [keyLen, hKey] at hLen
      unfold keyNullSentinel
      omega
    simp only [List.append_assoc]
    refine ⟨_, _, getU32_append (Nat.lt_trans hk (by decide)) (k ++ rest), ?_⟩
    simp only [decodeKey, if_neg (Nat.ne_of_lt hk), getBytes_append, ok_bind]
    rw [failIf_neg (by simp)]
    rfl

theorem decodeValue_value (X : Crates) (c : Compression) {valBytes : Bytes}
    (hLen : valBytes.length < 2 ^ 32) (totalLen : Nat) (rest : Bytes) :
    decodeValue X c totalLen (beBytes 4 valBytes.length ++ (valBytes ++ rest)) = (do
      let value ← c.decompress X valBytes
      pure (value, rest)) := by
  simp only [decodeValue, getU32_append hLen, getBytes_append, ok_bind]
  rw [failIf_neg (by simp), failIf_neg (by simp)]
  rfl

/-- The fields behind the checksum read back; only decompression is left to do. -/
theorem decodePayload_payload (X : Crates) (r : Record) (c : Compression) (valBytes rest : Bytes)
    (totalLen : Nat) (hLen : (r.payload c valBytes).length + 4 < 2 ^ 32) :
    decodePayload X totalLen (r.payload c valBytes ++ rest) = (do
      let value ← c.decompress X valBytes
      pure (⟨r.timestampMs, r.key, value⟩, rest)) := by
  rw [length_payload] at hLen
  obtain ⟨keyLenRaw, buf, hRaw, hRest⟩ := decodeKey_key (r := r) (by omega) totalLen
    (beBytes 4 valBytes.length ++ (valBytes ++ rest))
  unfold decodePayload
  simp only [payload, List.append_assoc, List.cons_append, List.nil_append, getU8_cons,
    Compression.fromFlag_flag, ok_bind, getI64_append, hRaw, hRest]
  rw [decodeValue_value X c (by omega) totalLen rest]
  cases c.decompress X valBytes <;> rfl

theorem decode_frameBytes (X : Crates) (r : Record) (c : Compression) (valBytes rest : Bytes)
    (hLen : (r.frameBytes X c valBytes).length < 2 ^ 32 + 4) :
    decode X (r.frameBytes X c valBytes ++ rest) = (do
      let value ← c.decompress X valBytes
      pure (⟨r.timestampMs, r.key, value⟩, rest)) := by
  have hKey := r.four_le_keyLen
  have hPayload := length_payload r c valBytes
  rw [length_frameBytes] at hLen
  have hCrc : (X.crc32 (r.payload c valBytes)).toNat < 2 ^ 32 := UInt32.toNat_lt _
  have hTotal : 4 + (r.payload c valBytes).length < 2 ^ 32 := by omega
  unfold decode
  simp only [frameBytes, List.append_assoc]
  rw [failIf_neg (by simp), ok_bind, getU32_append hTotal, ok_bind]
  simp only []
  rw [failIf_neg (by unfold minTotalLen; omega), ok_bind, failIf_neg (by simp), ok_bind,
    getU32_append hCrc, ok_bind]
  simp only []
  rw [getBytes_append_of_length (by omega), ok_bind]
  simp only []
  rw [failIf_neg (by simp), ok_bind, decodePayload_payload X r c valBytes rest _ (by omega)]

/-- A frame whose value survives its codec reads back, and the decoder stops at its end. -/
theorem decode_wire {X : Crates} (hX : X.Lawful) {c : Compression} {r : Record}
    {bytes : Bytes} (hWire : r.wire X c = .ok bytes) (hFits : c.Fits r.value)
    (hLen : bytes.length < 2 ^ 32 + 4) (rest : Bytes) :
    decode X (bytes ++ rest) = .ok (r, rest) := by
  obtain ⟨valBytes, hVal, rfl⟩ := wire_eq_ok.mp hWire
  rw [decode_frameBytes X r c valBytes rest hLen,
    Compression.decompress_compress hX hFits hVal]
  rfl

/-- A frame whose value is above the cap is refused, whatever follows it. -/
theorem decode_wire_oversized {X : Crates} (hX : X.Lawful) {c : Compression} {r : Record}
    {bytes : Bytes} (hWire : r.wire X c = .ok bytes) (hSmall : c = .lz4 → r.value.length < 2 ^ 32)
    (hBig : ¬ c.Fits r.value) (hLen : bytes.length < 2 ^ 32 + 4) (rest : Bytes) :
    decode X (bytes ++ rest) = .err .decompressionFailed := by
  obtain ⟨valBytes, hVal, rfl⟩ := wire_eq_ok.mp hWire
  rw [decode_frameBytes X r c valBytes rest hLen,
    Compression.decompress_compress_oversized hX hSmall hBig hVal]
  rfl

theorem decode_short (X : Crates) {buf : Bytes} (h : buf.length < 4) :
    decode X buf = .err (.truncated (4 - buf.length)) := by
  unfold decode
  rw [failIf_pos h]
  rfl

@[simp] theorem decode_nil (X : Crates) : decode X [] = .err (.truncated 4) :=
  decode_short X (by simp)

/-- A torn frame is reported as truncated, at every byte it may be torn at. -/
theorem decode_strict_prefix {X : Crates} {c : Compression} {r : Record} {bytes : Bytes}
    (hWire : r.wire X c = .ok bytes) (hLen : bytes.length < 2 ^ 32 + 4) {n : Nat}
    (hn : n < bytes.length) : ∃ needed, decode X (bytes.take n) = .err (.truncated needed) := by
  obtain ⟨valBytes, -, rfl⟩ := wire_eq_ok.mp hWire
  have hKey := r.four_le_keyLen
  have hPayload := length_payload r c valBytes
  rw [length_frameBytes] at hLen hn
  by_cases hShort : n < 4
  · exact ⟨_, decode_short X (by simp; omega)⟩
  · have hTotal : 4 + (r.payload c valBytes).length < 2 ^ 32 := by omega
    have hSplit : (r.frameBytes X c valBytes).take n =
        beBytes 4 (4 + (r.payload c valBytes).length) ++
          (beBytes 4 (X.crc32 (r.payload c valBytes)).toNat ++
            r.payload c valBytes).take (n - 4) := by
      rw [frameBytes, List.append_assoc, List.take_append, length_beBytes,
        List.take_of_length_le (by simp; omega)]
    refine ⟨4 + (r.payload c valBytes).length - (n - 4), ?_⟩
    have hRest : ((beBytes 4 (X.crc32 (r.payload c valBytes)).toNat ++
        r.payload c valBytes).take (n - 4)).length = n - 4 := by
      simp only [List.length_take, List.length_append, length_beBytes]
      omega
    rw [hSplit]
    unfold decode
    rw [failIf_neg (by simp), ok_bind, getU32_append hTotal, ok_bind]
    simp only [hRest]
    rw [failIf_neg (by unfold minTotalLen; omega), ok_bind, failIf_pos (by omega), err_bind]

end Record

end Kafko
