import Kafko.Wire.Grammar
import Kafko.Disk.Reads

/-!
# Buffers whose end is missing

The readers of a log see buffers that lack their end: a search decodes what its read call
returned, and the scan and the replay decode a buffer in which the bytes the call did not return
are zeros. This module compares one step of the decoder on such a buffer with the step on the
whole one. What is accepted in a buffer that was cut is accepted in the whole one
(`decode_append`), and a record that is read with another size, because its fields were replaced
by zeros, ends behind the last byte that is left and before its true end
(`decode_zeroFilled_size`).
-/

namespace Kafko

open Disk Res

/-! ## Zeros in place of bytes -/

theorem zeroFilled_of_le {n : Nat} {bytes : Bytes} (h : bytes.length ≤ n) :
    zeroFilled n bytes = bytes := by
  simp [zeroFilled, List.take_of_length_le h]

theorem zeroFilled_zero (bytes : Bytes) :
    zeroFilled 0 bytes = List.replicate bytes.length 0 := by
  simp [zeroFilled]

theorem zeroFilled_drop {n k : Nat} {bytes : Bytes} (hk : k ≤ bytes.length) :
    (zeroFilled n bytes).drop k = zeroFilled (n - k) (bytes.drop k) := by
  unfold zeroFilled
  rw [List.drop_append, List.drop_take, List.drop_replicate]
  congr 2
  simp only [List.length_take, List.length_drop]
  omega

theorem zeroFilled_take {n k : Nat} {bytes : Bytes} (hk : k ≤ bytes.length) :
    (zeroFilled n bytes).take k = zeroFilled n (bytes.take k) := by
  unfold zeroFilled
  rw [List.take_append, List.take_take, List.take_take, List.take_replicate, Nat.min_comm n k]
  congr 2
  simp only [List.length_take]
  omega

theorem leNat_append (a b : Bytes) : leNat (a ++ b) = leNat a + 256 ^ a.length * leNat b := by
  induction a with
  | nil => simp [leNat]
  | cons x a ih =>
    rw [List.cons_append, leNat, ih, leNat, List.length_cons, pow_succ]
    ring

theorem leNat_zeros (k : Nat) : leNat (List.replicate k 0) = 0 := by
  induction k with
  | zero => rfl
  | succ k ih => rw [List.replicate_succ, leNat, ih]; rfl

/-- A big-endian field loses what its last bytes stand for. -/
theorem beNat_zeroFilled (n : Nat) (bytes : Bytes) :
    ∃ lost, beNat bytes = beNat (zeroFilled n bytes) + lost ∧ lost < 256 ^ (bytes.length - n) := by
  have hSplit : bytes.reverse = (bytes.drop n).reverse ++ (bytes.take n).reverse := by
    rw [← List.reverse_append, List.take_append_drop]
  have hZeros : (zeroFilled n bytes).reverse =
      List.replicate (bytes.drop n).length 0 ++ (bytes.take n).reverse := by
    rw [zeroFilled, List.reverse_append, List.reverse_replicate]
    congr 2
    simp only [List.length_take, List.length_drop]
    omega
  refine ⟨leNat (bytes.drop n).reverse, ?_, ?_⟩
  · rw [beNat, beNat, hSplit, hZeros, leNat_append, leNat_append, leNat_zeros,
      List.length_reverse, List.length_replicate]
    omega
  · have hLt := leNat_lt (bytes.drop n).reverse
    rwa [List.length_reverse, List.length_drop] at hLt

namespace Record

variable {X : Crates} {buf rest rest' : Bytes} {r r' : Record} {n : Nat}

/-! ## One step of the decoder -/

theorem decode_rest (h : decode X buf = .ok (r, rest)) :
    rest = buf.drop (buf.length - rest.length) ∧ rest.length < buf.length := by
  obtain ⟨front, hFront, rfl⟩ := decode_splits h
  have hLen : (front ++ rest).length - rest.length = front.length := by simp
  refine ⟨by rw [hLen, List.drop_left], ?_⟩
  rw [List.length_append]
  omega

/-- More bytes behind an accepted frame change nothing. -/
theorem decode_append (h : decode X buf = .ok (r, rest)) (tail : Bytes) :
    decode X (buf ++ tail) = .ok (r, rest ++ tail) := by
  obtain ⟨totalLen, c, stored, hFramed⟩ := decode_eq_ok_iff.mp h
  have hWhole := hFramed.whole
  have hLong := hFramed.long
  unfold minTotalLen at hLong
  obtain ⟨payload, hPayload, hBytes⟩ := hFramed.bytes
  have hCovered : ((buf ++ tail).drop 8).take (totalLen - 4) =
      (buf.drop 8).take (totalLen - 4) := by
    rw [List.drop_append_of_le_length (by omega),
      List.take_append_of_le_length (by rw [List.length_drop]; omega)]
  refine decode_eq_ok_iff.mpr ⟨totalLen, c, stored, hFramed.long, hFramed.short, ?_, payload,
    hPayload, ?_⟩
  · rw [List.length_append]
    omega
  · rw [hCovered]
    conv => lhs; rw [hBytes]
    simp only [List.append_assoc]

/-- The outer length of an accepted frame is that of bytes in the buffer. -/
theorem announced_le (h : decode X buf = .ok (r, rest)) : 4 + announced buf ≤ buf.length := by
  obtain ⟨totalLen, c, stored, hFramed⟩ := decode_eq_ok_iff.mp h
  rw [hFramed.announced]
  exact hFramed.whole

/-- What is accepted in a cut buffer was not cut off. -/
theorem decode_of_take (h : decode X (buf.take n) = .ok (r, rest)) :
    decode X buf = .ok (r, rest ++ buf.drop n) ∧ 4 + announced buf ≤ n ∧
      buf.length - (rest ++ buf.drop n).length ≤ n ∧
      rest = (rest ++ buf.drop n).take (n - (buf.length - (rest ++ buf.drop n).length)) := by
  have hWhole := decode_append h (buf.drop n)
  rw [List.take_append_drop] at hWhole
  have hEnd := announced_le h
  have hLt := (decode_rest h).2
  have hSame : announced (buf.take n) = announced buf := by
    rw [announced, announced, List.take_take]
    congr 2
    rw [List.length_take] at hEnd
    omega
  rw [hSame] at hEnd
  simp only [List.length_take] at hEnd hLt
  have hSize : buf.length - (rest ++ buf.drop n).length = min n buf.length - rest.length := by
    rw [List.length_append, List.length_drop]
    omega
  refine ⟨hWhole, by omega, by omega, ?_⟩
  by_cases hCut : n ≤ buf.length
  · rw [hSize, Nat.min_eq_left hCut, Nat.sub_sub_self (by omega), List.take_left]
  · rw [List.drop_of_length_le (by omega), List.append_nil, List.take_of_length_le (by omega)]

/-! ## The size of a record -/

/-- The 32-bit field at a position. -/
def fieldAt (buf : Bytes) (pos : Nat) : Nat := beNat ((buf.drop pos).take 4)

/-- The bytes of a key whose length field holds `raw`. -/
def rawKeyLen (raw : Nat) : Nat := if raw = keyNullSentinel then 0 else raw

/-- The size of an accepted record follows from its two length fields. -/
theorem decode_size (h : decode X buf = .ok (r, rest)) :
    buf.length - rest.length = 25 + rawKeyLen (fieldAt buf 17) +
        fieldAt buf (21 + rawKeyLen (fieldAt buf 17)) ∧
      25 + rawKeyLen (fieldAt buf 17) ≤ buf.length := by
  obtain ⟨totalLen, c, stored, hFramed⟩ := decode_eq_ok_iff.mp h
  have hLength := hFramed.length_eq
  have hKeyLen := length_payload r c stored
  obtain ⟨payload, hPayload, hBytes⟩ := hFramed.bytes
  obtain rfl := hPayload.fields
  have hHead : buf.drop 17 =
      r.keyBytes ++ (beBytes 4 stored.length ++ (stored ++ rest)) := by
    generalize (X.crc32 ((buf.drop 8).take (totalLen - 4))).toNat = crc at hBytes
    rw [hBytes]
    simp only [payload, List.append_assoc]
    rw [← List.append_assoc, ← List.append_assoc, ← List.append_assoc]
    exact List.drop_left' (by simp)
  have hRead : ∀ (k : Nat) (tail : Bytes), k < 2 ^ 32 →
      beNat ((beBytes 4 k ++ tail).take 4) = k := by
    intro k tail hk
    rw [List.take_left' (length_beBytes 4 k)]
    exact beNat_beBytes_of_lt hk
  have hKey : rawKeyLen (fieldAt buf 17) + 4 = r.keyLen ∧
      (buf.drop 17).drop (4 + rawKeyLen (fieldAt buf 17)) =
        beBytes 4 stored.length ++ (stored ++ rest) := by
    rcases r.keyBytes_eq with ⟨hNone, hField⟩ | ⟨k, hSome, hField⟩
    · have hRaw : fieldAt buf 17 = keyNullSentinel := by
        rw [fieldAt, hHead, hField]
        exact hRead _ _ (by decide)
      rw [hRaw, rawKeyLen, if_pos rfl, keyLen, hNone, hHead, hField]
      exact ⟨rfl, List.drop_left' (length_beBytes 4 _)⟩
    · have hLt := hPayload.key k hSome
      have hRaw : fieldAt buf 17 = k.length := by
        rw [fieldAt, hHead, hField, List.append_assoc]
        exact hRead _ _ (Nat.lt_trans hLt (by decide))
      rw [hRaw, rawKeyLen, if_neg (Nat.ne_of_lt hLt), keyLen, hSome, hHead, hField]
      exact ⟨Nat.add_comm _ _, List.drop_left' (by simp)⟩
  obtain ⟨hLen, hValue⟩ := hKey
  have hStored : fieldAt buf (21 + rawKeyLen (fieldAt buf 17)) = stored.length := by
    rw [fieldAt, show 21 + rawKeyLen (fieldAt buf 17) = 17 + (4 + rawKeyLen (fieldAt buf 17)) by
      omega, ← List.drop_drop, hValue]
    exact hRead _ _ hPayload.bounded
  rw [hStored]
  omega

/-- A field of a buffer whose end is zeros. -/
theorem fieldAt_zeroFilled {pos : Nat} (hPos : pos + 4 ≤ buf.length) :
    (pos + 4 ≤ n → fieldAt (zeroFilled n buf) pos = fieldAt buf pos) ∧
      (n ≤ pos → fieldAt (zeroFilled n buf) pos = 0) ∧
      ∃ lost, fieldAt buf pos = fieldAt (zeroFilled n buf) pos + lost ∧
        lost < 256 ^ (pos + 4 - n) := by
  have hField : ((zeroFilled n buf).drop pos).take 4 =
      zeroFilled (n - pos) ((buf.drop pos).take 4) := by
    rw [zeroFilled_drop (by omega), zeroFilled_take (by rw [List.length_drop]; omega)]
  have hFour : ((buf.drop pos).take 4).length = 4 := by
    simp only [List.length_take, List.length_drop]
    omega
  unfold fieldAt
  rw [hField]
  refine ⟨?_, ?_, ?_⟩
  · intro hIn
    rw [zeroFilled_of_le (by omega)]
  · intro hOut
    rw [Nat.sub_eq_zero_of_le hOut, zeroFilled_zero, hFour]
    rfl
  · obtain ⟨lost, hLost, hLt⟩ := beNat_zeroFilled (n - pos) ((buf.drop pos).take 4)
    refine ⟨lost, hLost, Nat.lt_of_lt_of_le hLt (Nat.pow_le_pow_right (by decide) ?_)⟩
    omega

/-- Zeros in place of the last bytes can only make an accepted record end earlier, and then no
byte that was left stands behind it. A key length whose low bytes are lost could be taken for the
absent key's only in a buffer of more than `2 ^ 32 - 2 ^ 24` bytes. -/
theorem decode_zeroFilled_size (h : decode X buf = .ok (r, rest))
    (h' : decode X (zeroFilled n buf) = .ok (r', rest'))
    (hSmall : buf.length ≤ 2 ^ 32 - 2 ^ 24) (hNe : rest'.length ≠ rest.length) :
    n ≤ buf.length - rest'.length ∧ rest.length < rest'.length := by
  obtain ⟨hSize, hRoom⟩ := decode_size h
  obtain ⟨hSize', hRoom'⟩ := decode_size h'
  have hLt := (decode_rest h).2
  have hLt' := (decode_rest h').2
  rw [zeroFilled_length] at hSize' hRoom' hLt'
  have hKeyRoom : 17 + 4 ≤ buf.length := by omega
  have hValueRoom : 21 + rawKeyLen (fieldAt (zeroFilled n buf) 17) + 4 ≤ buf.length := by omega
  obtain ⟨hKeySame, -, lost, hKeyLost, hLost⟩ := fieldAt_zeroFilled (n := n) hKeyRoom
  obtain ⟨hValueSame, hValueGone, lost', hValueLost, -⟩ := fieldAt_zeroFilled (n := n) hValueRoom
  by_cases hKey : 21 ≤ n
  · -- the key field is whole, so only the value's length can have changed
    rw [hKeySame hKey] at hSize' hValueSame hValueLost
    by_cases hValue : 25 + rawKeyLen (fieldAt buf 17) ≤ n
    · rw [hValueSame (by omega)] at hSize'
      omega
    · omega
  · -- the value's length reads as zero
    rw [hValueGone (by omega)] at hSize'
    have hKeyLen : rawKeyLen (fieldAt (zeroFilled n buf) 17) ≤ rawKeyLen (fieldAt buf 17) := by
      unfold rawKeyLen keyNullSentinel at *
      split
      · exact Nat.zero_le _
      · next hSome =>
        split
        · next hNull =>
          rw [if_neg hSome] at hRoom'
          by_cases hGone : n ≤ 17
          · rw [(fieldAt_zeroFilled (by omega)).2.1 hGone]
          · have hThree : 256 ^ (17 + 4 - n) ≤ 256 ^ 3 :=
              Nat.pow_le_pow_right (by decide) (by omega)
            omega
        · omega
    omega

/-- Zeros are no frame. -/
theorem decode_zeros (X : Crates) (k : Nat) :
    (∃ m, decode X (List.replicate k 0) = .err (.truncated m)) ∨
      decode X (List.replicate k 0) = .err (.invalidLength 0) := by
  by_cases hShort : k < 4
  · exact Or.inl ⟨_, decode_short X (by rwa [List.length_replicate])⟩
  · obtain ⟨k, rfl⟩ : ∃ m, k = 4 + m := ⟨k - 4, by omega⟩
    right
    have hLen : getU32 (beBytes 4 0 ++ List.replicate k 0) = .ok (0, List.replicate k 0) :=
      getU32_append (by decide) _
    have hSplit : List.replicate (4 + k) (0 : UInt8) = beBytes 4 0 ++ List.replicate k 0 := by
      rw [List.replicate_add]
      rfl
    rw [hSplit]
    unfold decode
    rw [failIf_neg (by simp), ok_bind, hLen, ok_bind]
    rfl

/-! ## Frames that are torn -/

/-- The computation does not end with the error of a torn frame. -/
def Untorn {α : Type} (r : Res KafkoError α) : Prop := ∀ m, r ≠ .err (.truncated m)

theorem untorn_ok {α : Type} (a : α) : Untorn (.ok a) := by
  intro m h
  cases h

theorem untorn_err {α : Type} {e : KafkoError} (h : ∀ m, e ≠ .truncated m) :
    Untorn (.err e : Res KafkoError α) := by
  intro m hEq
  exact h m (Res.err.inj hEq)

theorem Untorn.bind {α β : Type} {r : Res KafkoError α} {f : α → Res KafkoError β}
    (h : Untorn r) (hf : ∀ a, Untorn (f a)) : Untorn (r >>= f) := by
  cases r with
  | ok a => exact hf a
  | err e => exact untorn_err fun m hEq => h m (congrArg Res.err hEq)
  | panic p =>
    intro m hEq
    cases hEq
  | crash =>
    intro m hEq
    cases hEq

theorem untorn_failIf {c : Prop} [Decidable c] {e : KafkoError} (h : ∀ m, e ≠ .truncated m) :
    Untorn (failIf c e) := by
  unfold failIf
  split
  · exact untorn_err h
  · exact untorn_ok ()

theorem untorn_getBytes (n : Nat) (buf : Bytes) : Untorn (getBytes n buf) := by
  intro m hEq
  unfold getBytes at hEq
  split at hEq <;> cases hEq

theorem untorn_fromFlag (flag : UInt8) : Untorn (Compression.fromFlag flag) := by
  unfold Compression.fromFlag
  split
  · exact untorn_ok _
  split
  · exact untorn_ok _
  split
  · exact untorn_ok _
  · exact untorn_err (by simp)

theorem untorn_decompress (X : Crates) (c : Compression) (stored : Bytes) :
    Untorn (c.decompress X stored) := by
  cases c with
  | none => exact untorn_ok stored
  | lz4 =>
    unfold Compression.decompress Compression.lz4Decompress
    cases X.lz4 with
    | none => exact untorn_err (by simp)
    | some codec =>
      dsimp only
      split
      · exact untorn_err (by simp)
      split
      · exact untorn_err (by simp)
      cases codec.decompressSizePrepended stored with
      | none => exact untorn_err (by simp)
      | some raw => exact untorn_ok raw
  | zstd =>
    unfold Compression.decompress Compression.zstdDecompress
    cases X.zstd with
    | none => exact untorn_err (by simp)
    | some codec =>
      dsimp only
      cases codec.decompress stored decompressMaxSize with
      | none => exact untorn_err (by simp)
      | some raw => exact untorn_ok raw

theorem untorn_decodeKey (totalLen raw : Nat) (buf : Bytes) :
    Untorn (decodeKey totalLen raw buf) := by
  unfold decodeKey
  split
  · exact untorn_ok _
  · apply (untorn_failIf (by simp)).bind
    intro _
    exact (untorn_getBytes raw buf).bind fun _ => untorn_ok _

theorem untorn_decodeValue (X : Crates) (c : Compression) (totalLen : Nat) (buf : Bytes) :
    Untorn (decodeValue X c totalLen buf) := by
  apply (untorn_failIf (by simp)).bind
  intro _
  apply ((untorn_getBytes 4 buf).bind fun _ => untorn_ok _).bind
  intro field
  apply (untorn_failIf (by simp)).bind
  intro _
  apply (untorn_getBytes _ _).bind
  intro raw
  exact (untorn_decompress X c raw.1).bind fun _ => untorn_ok _

/-- Behind the checksum no length error says that bytes are missing. -/
theorem untorn_decodePayload (X : Crates) (totalLen : Nat) (buf : Bytes) :
    Untorn (decodePayload X totalLen buf) := by
  apply ((untorn_getBytes 1 buf).bind fun _ => untorn_ok _).bind
  intro flag
  apply (untorn_fromFlag flag.1).bind
  intro c
  apply ((untorn_getBytes 8 _).bind fun _ => untorn_ok _).bind
  intro time
  apply ((untorn_getBytes 4 _).bind fun _ => untorn_ok _).bind
  intro raw
  apply (untorn_decodeKey totalLen raw.1 raw.2).bind
  intro key
  exact (untorn_decodeValue X c totalLen key.2).bind fun _ => untorn_ok _

/-- How a buffer of at least four bytes is decoded. -/
theorem decode_eq (X : Crates) (h : 4 ≤ buf.length) : decode X buf = (do
    failIf (announced buf < minTotalLen) (.invalidLength (announced buf))
    failIf (buf.length - 4 < announced buf)
      (.truncated (announced buf - (buf.length - 4)))
    let (expectedCrc, body) ← getU32 (buf.drop 4)
    let (crcInput, _) ← getBytes (announced buf - 4) body
    failIf ((X.crc32 crcInput).toNat ≠ expectedCrc)
      (.crcMismatch expectedCrc (X.crc32 crcInput).toNat)
    decodePayload X (announced buf) body) := by
  unfold decode
  rw [failIf_neg (by omega), ok_bind, getU32, getBytes, if_neg (by omega), ok_bind]
  simp only [pure_eq, ok_bind, List.length_drop]
  rfl

/-- A frame is called torn if its announced end lies behind the buffer, and then it is called
torn in every shorter buffer. -/
theorem decode_take_of_torn {m : Nat} (h : decode X buf = .err (.truncated m)) (n : Nat) :
    ∃ needed, decode X (buf.take n) = .err (.truncated needed) := by
  by_cases hCut : n < 4 ∨ buf.length < 4
  · exact ⟨_, decode_short X (by rw [List.length_take]; omega)⟩
  rw [decode_eq X (by omega)] at h
  have hLen : 4 ≤ (buf.take n).length := by
    rw [List.length_take]
    omega
  have hSame : announced (buf.take n) = announced buf := by
    rw [announced, announced, List.take_take, Nat.min_eq_left (by omega)]
  by_cases hMin : announced buf < minTotalLen
  · rw [failIf_pos hMin] at h
    cases h
  rw [failIf_neg hMin, ok_bind] at h
  by_cases hEnd : buf.length - 4 < announced buf
  · have hEnd' : (buf.take n).length - 4 < announced buf := by
      rw [List.length_take]
      omega
    refine ⟨announced buf - ((buf.take n).length - 4), ?_⟩
    rw [decode_eq X hLen, hSame, failIf_neg hMin, ok_bind, failIf_pos hEnd', err_bind]
  · rw [failIf_neg hEnd, ok_bind] at h
    refine absurd h (Untorn.bind ?_ (fun crc => ?_) m)
    · exact (untorn_getBytes _ _).bind fun _ => untorn_ok _
    · apply (untorn_getBytes _ _).bind
      intro covered
      exact (untorn_failIf (by simp)).bind fun _ => untorn_decodePayload X _ _

end Record

end Kafko
