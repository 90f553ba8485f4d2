import Kafko.Wire.Grammar

/-!
# The decoder stays inside its buffer

The readers of the decoder panic on a buffer that is too short. Only the first read, the key and
the value are guarded where they stand; the fields between the checksum and the key rely on the
minimum the outer length was compared with. `decode_returns`: whatever the bytes, no read is
short. `decode_consumes`: a record takes at least `25` bytes off the front.
-/

namespace Kafko

open Disk Res

namespace Record

variable {X : Crates} {buf : Bytes}

/-! ## The readers on a buffer that is long enough -/

theorem getBytes_of_le {n : Nat} (h : n ≤ buf.length) :
    ∃ front rest, getBytes n buf = .ok (front, rest) ∧ rest.length + n = buf.length := by
  refine ⟨buf.take n, buf.drop n, if_neg (by omega), ?_⟩
  rw [List.length_drop]
  omega

theorem getU8_of_le (h : 1 ≤ buf.length) :
    ∃ b rest, getU8 buf = .ok (b, rest) ∧ rest.length + 1 = buf.length := by
  obtain ⟨front, rest, hGet, hRest⟩ := getBytes_of_le h
  exact ⟨front.headD 0, rest, by rw [getU8, hGet]; rfl, hRest⟩

theorem getU32_of_le (h : 4 ≤ buf.length) :
    ∃ n rest, getU32 buf = .ok (n, rest) ∧ rest.length + 4 = buf.length := by
  obtain ⟨front, rest, hGet, hRest⟩ := getBytes_of_le h
  exact ⟨beNat front, rest, by rw [getU32, hGet]; rfl, hRest⟩

theorem getI64_of_le (h : 8 ≤ buf.length) :
    ∃ t rest, getI64 buf = .ok (t, rest) ∧ rest.length + 8 = buf.length := by
  obtain ⟨front, rest, hGet, hRest⟩ := getBytes_of_le h
  exact ⟨(UInt64.ofNat (beNat front)).toInt64, rest, by rw [getI64, hGet]; rfl, hRest⟩

/-! ## No branch reads past the end -/

theorem fromFlag_returns (flag : UInt8) : Returns (Compression.fromFlag flag) := by
  unfold Compression.fromFlag
  split
  · exact returns_ok _
  split
  · exact returns_ok _
  split
  · exact returns_ok _
  · exact returns_err _

theorem decompress_returns (X : Crates) (c : Compression) (stored : Bytes) :
    Returns (c.decompress X stored) := by
  cases c with
  | none => exact returns_ok stored
  | lz4 =>
    unfold Compression.decompress Compression.lz4Decompress
    cases X.lz4 with
    | none => exact returns_err _
    | some codec =>
      dsimp only
      split
      · exact returns_err _
      split
      · exact returns_err _
      cases codec.decompressSizePrepended stored with
      | none => exact returns_err _
      | some raw => exact returns_ok raw
  | zstd =>
    unfold Compression.decompress Compression.zstdDecompress
    cases X.zstd with
    | none => exact returns_err _
    | some codec =>
      dsimp only
      cases codec.decompress stored decompressMaxSize with
      | none => exact returns_err _
      | some raw => exact returns_ok raw

/-- The key is guarded by a comparison of its own. -/
theorem decodeKey_returns (totalLen keyLenRaw : Nat) (buf : Bytes) :
    Returns (decodeKey totalLen keyLenRaw buf) := by
  unfold decodeKey
  split
  · exact returns_ok _
  apply returns_failIf_bind
  intro hLong
  obtain ⟨key, rest, hKey, -⟩ := getBytes_of_le (Nat.le_of_not_lt hLong)
  rw [hKey]
  exact returns_ok _

/-- So are the length of the value and the value. -/
theorem decodeValue_returns (X : Crates) (c : Compression) (totalLen : Nat) (buf : Bytes) :
    Returns (decodeValue X c totalLen buf) := by
  unfold decodeValue
  apply returns_failIf_bind
  intro hField
  obtain ⟨valLen, rest, hLen, -⟩ := getU32_of_le (Nat.le_of_not_lt hField)
  rw [hLen]
  apply returns_failIf_bind
  intro hLong
  obtain ⟨rawVal, tail, hVal, -⟩ := getBytes_of_le (Nat.le_of_not_lt hLong)
  rw [hVal]
  apply (decompress_returns X c rawVal).bind
  intro value _
  exact returns_ok _

/-- Flag, timestamp and key length take `13` bytes, and nothing but the outer length promises
them. -/
theorem decodePayload_returns (X : Crates) (totalLen : Nat) (h : 13 ≤ buf.length) :
    Returns (decodePayload X totalLen buf) := by
  unfold decodePayload
  have hOne : 1 ≤ buf.length := by omega
  obtain ⟨flag, afterFlag, hFlag, hFlagLen⟩ := getU8_of_le hOne
  rw [hFlag]
  apply (fromFlag_returns flag).bind
  intro c _
  have hEight : 8 ≤ afterFlag.length := by omega
  obtain ⟨t, afterTime, hTime, hTimeLen⟩ := getI64_of_le hEight
  rw [hTime]
  have hFour : 4 ≤ afterTime.length := by omega
  obtain ⟨keyLenRaw, afterLen, hLen, -⟩ := getU32_of_le hFour
  simp only [ok_bind, hLen]
  apply (decodeKey_returns totalLen keyLenRaw afterLen).bind
  intro key _
  apply (decodeValue_returns X c totalLen key.2).bind
  intro value _
  exact returns_ok _

/-- On every byte string the decoder returns: a short read would be a panic. -/
theorem decode_returns (X : Crates) (buf : Bytes) : Returns (decode X buf) := by
  unfold decode
  apply returns_failIf_bind
  intro hFour
  obtain ⟨totalLen, body, hTotal, -⟩ := getU32_of_le (Nat.le_of_not_lt hFour)
  rw [hTotal]
  apply returns_failIf_bind
  intro hMin
  apply returns_failIf_bind
  intro hWhole
  -- from here on at least `minTotalLen = 21` bytes are left
  unfold minTotalLen at hMin
  have hField : 4 ≤ body.length := by omega
  obtain ⟨crc, payload, hCrc, hPayload⟩ := getU32_of_le hField
  rw [hCrc]
  have hCover : totalLen - 4 ≤ payload.length := by omega
  obtain ⟨covered, behind, hCovered, -⟩ := getBytes_of_le hCover
  simp only [ok_bind, hCovered]
  apply returns_failIf_bind
  intro _
  apply decodePayload_returns
  omega

/-! ## Progress -/

/-- A record takes at least `25` bytes, all of them from the front of the buffer. -/
theorem decode_consumes {rest : Bytes} {r : Record} (h : decode X buf = .ok (r, rest)) :
    ∃ front, buf = front ++ rest ∧ 25 ≤ front.length := by
  obtain ⟨front, -, rfl⟩ := decode_splits h
  refine ⟨front, rfl, ?_⟩
  obtain ⟨totalLen, c, stored, hFramed⟩ := decode_eq_ok_iff.mp h
  have hLen := hFramed.length_eq
  have hKey := r.four_le_keyLen
  rw [length_payload, List.length_append] at hLen
  omega

/-- The two ways to end, with the progress of the successful one. -/
theorem decode_cases (X : Crates) (buf : Bytes) :
    (∃ e, decode X buf = .err e) ∨
      ∃ r front rest, decode X buf = .ok (r, rest) ∧ buf = front ++ rest ∧ 25 ≤ front.length := by
  rcases decode_returns X buf with ⟨⟨r, rest⟩, hOk⟩ | hErr
  · obtain ⟨front, hSplit, hLong⟩ := decode_consumes hOk
    exact Or.inr ⟨r, front, rest, hOk, hSplit, hLong⟩
  · exact Or.inl hErr

end Record

end Kafko
