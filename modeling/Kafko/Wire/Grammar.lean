import Kafko.Wire.Frame

/-!
# Which byte strings the decoder accepts

`IsPayload` is the grammar of the bytes behind the checksum, and `Framed` puts the checksum and
an outer length in front of them. The grammar of a frame asks the outer length to be that of
checksum and payload (`InGrammar`). The decoder never compares the two: it bounds the inner
lengths by the whole buffer (`decode_eq_ok_iff`), so it also accepts a frame that ends before or
behind its announced end, as long as the checksum fits the announced one.
-/

namespace Kafko

open Disk Res

namespace Record

variable {X : Crates}

/-! ## The grammar -/

/-- The bytes behind the checksum, field by field. -/
structure IsPayload (X : Crates) (c : Compression) (stored : Bytes) (r : Record)
    (payload : Bytes) : Prop where
  fields : payload = r.payload c stored
  key : ∀ k, r.key = some k → k.length < keyNullSentinel
  bounded : stored.length < 2 ^ 32
  value : c.decompress X stored = .ok r.value

/-- A buffer that starts with an outer length, a checksum and a payload. The checksum covers
what the outer length announces. -/
structure Framed (X : Crates) (totalLen : Nat) (c : Compression) (stored : Bytes) (r : Record)
    (rest buf : Bytes) : Prop where
  long : minTotalLen ≤ totalLen
  short : totalLen < 2 ^ 32
  whole : 4 + totalLen ≤ buf.length
  bytes : ∃ payload, IsPayload X c stored r payload ∧
    buf = beBytes 4 totalLen ++ (beBytes 4 (X.crc32 ((buf.drop 8).take (totalLen - 4))).toNat ++
      (payload ++ rest))

/-- The documented frame: nothing is left over between the payload and the announced end. -/
def InGrammar (X : Crates) (r : Record) (rest buf : Bytes) : Prop :=
  ∃ c stored payload, IsPayload X c stored r payload ∧ 4 + payload.length < 2 ^ 32 ∧
    buf = beBytes 4 (4 + payload.length) ++
      (beBytes 4 (X.crc32 payload).toNat ++ (payload ++ rest))

/-! ## The readers, read backwards -/

theorem getBytes_eq_ok {n : Nat} {buf front rest : Bytes} :
    getBytes n buf = .ok (front, rest) ↔ front.length = n ∧ buf = front ++ rest := by
  unfold getBytes
  constructor
  · intro h
    split at h
    · cases h
    · next hLen =>
      obtain ⟨rfl, rfl⟩ := Prod.mk.inj (Res.ok.inj h)
      refine ⟨?_, (List.take_append_drop n buf).symm⟩
      rw [List.length_take]
      omega
  · rintro ⟨rfl, rfl⟩
    simp

theorem getU8_eq_ok {buf rest : Bytes} {b : UInt8} :
    getU8 buf = .ok (b, rest) ↔ buf = b :: rest := by
  constructor
  · intro h
    obtain ⟨⟨front, back⟩, hFront, hEq⟩ := bind_eq_ok.mp h
    obtain ⟨hLen, rfl⟩ := getBytes_eq_ok.mp hFront
    obtain ⟨b', rfl⟩ := List.length_eq_one_iff.mp hLen
    cases hEq
    rfl
  · rintro rfl
    exact getU8_cons b rest

theorem getU32_eq_ok {n : Nat} {buf rest : Bytes} :
    getU32 buf = .ok (n, rest) ↔ n < 2 ^ 32 ∧ buf = beBytes 4 n ++ rest := by
  constructor
  · intro h
    obtain ⟨⟨front, back⟩, hFront, hEq⟩ := bind_eq_ok.mp h
    obtain ⟨hLen, rfl⟩ := getBytes_eq_ok.mp hFront
    cases hEq
    have hLt := beNat_lt front
    rw [hLen] at hLt
    exact ⟨by omega, by rw [beBytes_beNat hLen]⟩
  · rintro ⟨hLt, rfl⟩
    exact getU32_append hLt rest

theorem getI64_eq_ok {t : Int64} {buf rest : Bytes} :
    getI64 buf = .ok (t, rest) ↔ buf = beBytes 8 t.toUInt64.toNat ++ rest := by
  constructor
  · intro h
    obtain ⟨⟨front, back⟩, hFront, hEq⟩ := bind_eq_ok.mp h
    obtain ⟨hLen, rfl⟩ := getBytes_eq_ok.mp hFront
    cases hEq
    have hLt := beNat_lt front
    rw [hLen] at hLt
    have hNat : (UInt64.ofNat (beNat front)).toNat = beNat front :=
      UInt64.toNat_ofNat_of_lt' (Nat.lt_of_lt_of_le hLt (by decide))
    change front ++ rest = beBytes 8 (UInt64.ofNat (beNat front)).toNat ++ rest
    rw [hNat, beBytes_beNat hLen]
  · rintro rfl
    exact getI64_append t rest

theorem failIf_bind_eq_ok {α : Type} {p : Prop} [Decidable p] {e : KafkoError}
    {f : Unit → Res KafkoError α} {a : α} :
    failIf p e >>= f = .ok a ↔ ¬ p ∧ f () = .ok a := by
  by_cases h : p
  · rw [failIf_pos h, err_bind]
    simp [h]
  · rw [failIf_neg h, ok_bind]
    simp [h]

theorem fromFlag_eq_ok {flag : UInt8} {c : Compression} :
    Compression.fromFlag flag = .ok c ↔ flag = c.flag := by
  constructor
  · intro h
    unfold Compression.fromFlag at h
    split at h
    · next hFlag =>
      cases h
      exact hFlag
    · split at h
      · next hFlag =>
        cases h
        exact hFlag
      · split at h
        · next hFlag =>
          cases h
          exact hFlag
        · cases h
  · rintro rfl
    exact Compression.fromFlag_flag c

theorem decodeKey_eq_ok {totalLen raw : Nat} {buf rest : Bytes} {key : Option Bytes}
    (hRaw : raw < 2 ^ 32) : decodeKey totalLen raw buf = .ok (key, rest) ↔
      (key = none ∧ raw = keyNullSentinel ∧ rest = buf) ∨
        ∃ k, key = some k ∧ raw = k.length ∧ k.length < keyNullSentinel ∧ buf = k ++ rest := by
  unfold decodeKey
  by_cases hNull : raw = keyNullSentinel
  · rw [if_pos hNull]
    constructor
    · intro h
      cases h
      exact Or.inl ⟨rfl, hNull, rfl⟩
    · rintro (⟨rfl, -, rfl⟩ | ⟨k, rfl, hLen, hLt, -⟩)
      · rfl
      · omega
  · rw [if_neg hNull, failIf_bind_eq_ok]
    constructor
    · rintro ⟨-, h⟩
      obtain ⟨⟨k, back⟩, hKey, hEq⟩ := bind_eq_ok.mp h
      obtain ⟨hLen, rfl⟩ := getBytes_eq_ok.mp hKey
      cases hEq
      refine Or.inr ⟨k, rfl, hLen.symm, ?_, rfl⟩
      unfold keyNullSentinel at *
      omega
    · rintro (⟨-, hEq, -⟩ | ⟨k, rfl, rfl, -, rfl⟩)
      · exact absurd hEq hNull
      · refine ⟨by simp, ?_⟩
        rw [getBytes_append]
        rfl

theorem decodeValue_eq_ok {c : Compression} {totalLen : Nat} {buf rest value : Bytes} :
    decodeValue X c totalLen buf = .ok (value, rest) ↔
      ∃ stored, stored.length < 2 ^ 32 ∧ buf = beBytes 4 stored.length ++ (stored ++ rest) ∧
        c.decompress X stored = .ok value := by
  constructor
  · intro h
    rw [decodeValue, failIf_bind_eq_ok] at h
    obtain ⟨-, h⟩ := h
    obtain ⟨⟨valLen, back⟩, hLen, h₁⟩ := bind_eq_ok.mp h
    obtain ⟨hLt, rfl⟩ := getU32_eq_ok.mp hLen
    dsimp only at h₁
    rw [failIf_bind_eq_ok] at h₁
    obtain ⟨-, h₁⟩ := h₁
    obtain ⟨⟨stored, after⟩, hStored, h₂⟩ := bind_eq_ok.mp h₁
    obtain ⟨rfl, rfl⟩ := getBytes_eq_ok.mp hStored
    obtain ⟨raw, hRaw, hEq⟩ := bind_eq_ok.mp h₂
    cases hEq
    exact ⟨stored, hLt, rfl, hRaw⟩
  · rintro ⟨stored, hLt, rfl, hValue⟩
    rw [decodeValue_value X c hLt, hValue]
    rfl

/-- The key field, read backwards. -/
theorem keyBytes_eq (r : Record) : (r.key = none ∧ r.keyBytes = beBytes 4 keyNullSentinel) ∨
    ∃ k, r.key = some k ∧ r.keyBytes = beBytes 4 k.length ++ k := by
  unfold keyBytes
  cases r.key with
  | none => exact Or.inl ⟨rfl, rfl⟩
  | some k => exact Or.inr ⟨k, rfl, rfl⟩

theorem decodePayload_eq_ok {totalLen : Nat} {buf rest : Bytes} {r : Record} :
    decodePayload X totalLen buf = .ok (r, rest) ↔
      ∃ c stored payload, IsPayload X c stored r payload ∧ buf = payload ++ rest := by
  constructor
  · intro h
    rw [decodePayload] at h
    obtain ⟨⟨flag, buf₁⟩, hFlag, h₁⟩ := bind_eq_ok.mp h
    obtain rfl := getU8_eq_ok.mp hFlag
    dsimp only at h₁
    obtain ⟨c, hc, h₂⟩ := bind_eq_ok.mp h₁
    obtain rfl := fromFlag_eq_ok.mp hc
    obtain ⟨⟨t, buf₂⟩, hTime, h₃⟩ := bind_eq_ok.mp h₂
    obtain rfl := getI64_eq_ok.mp hTime
    dsimp only at h₃
    obtain ⟨⟨raw, buf₃⟩, hRaw, h₄⟩ := bind_eq_ok.mp h₃
    obtain ⟨hLt, rfl⟩ := getU32_eq_ok.mp hRaw
    dsimp only at h₄
    obtain ⟨⟨key, buf₄⟩, hKey, h₅⟩ := bind_eq_ok.mp h₄
    obtain ⟨⟨value, buf₅⟩, hValue, h₆⟩ := bind_eq_ok.mp h₅
    obtain ⟨stored, hStored, rfl, hRaw'⟩ := decodeValue_eq_ok.mp hValue
    cases h₆
    refine ⟨c, stored, _, ⟨rfl, ?_, hStored, hRaw'⟩, ?_⟩
    · intro k hk
      rcases (decodeKey_eq_ok hLt).mp hKey with ⟨rfl, -, -⟩ | ⟨k', rfl, -, hk', -⟩
      · cases hk
      · obtain rfl := Option.some.inj hk
        exact hk'
    · rcases (decodeKey_eq_ok hLt).mp hKey with ⟨rfl, rfl, rfl⟩ | ⟨k', rfl, rfl, -, rfl⟩
      · simp [payload, keyBytes]
      · simp [payload, keyBytes]
  · rintro ⟨c, stored, payload, hPayload, rfl⟩
    have hKey : ∃ raw buf, raw < 2 ^ 32 ∧
        r.keyBytes ++ (beBytes 4 stored.length ++ (stored ++ rest)) = beBytes 4 raw ++ buf ∧
        decodeKey totalLen raw buf =
          .ok (r.key, beBytes 4 stored.length ++ (stored ++ rest)) := by
      rcases r.keyBytes_eq with ⟨hNone, hBytes⟩ | ⟨k, hSome, hBytes⟩
      · have hLt : keyNullSentinel < 2 ^ 32 := by decide
        refine ⟨_, _, hLt, by rw [hBytes], ?_⟩
        exact (decodeKey_eq_ok hLt).mpr (Or.inl ⟨hNone, rfl, rfl⟩)
      · have hLt := hPayload.key k hSome
        have hLt' : k.length < 2 ^ 32 := Nat.lt_trans hLt (by decide)
        refine ⟨_, _, hLt', by rw [hBytes, List.append_assoc], ?_⟩
        exact (decodeKey_eq_ok hLt').mpr (Or.inr ⟨k, hSome, rfl, hLt, rfl⟩)
    obtain ⟨raw, buf, hRaw, hField, hDecode⟩ := hKey
    have hValue := (@decodeValue_eq_ok X c totalLen _ rest r.value).mpr
      ⟨stored, hPayload.bounded, rfl, hPayload.value⟩
    rw [hPayload.fields]
    unfold decodePayload
    simp only [Record.payload, List.append_assoc, List.cons_append, List.nil_append, getU8_cons,
      Compression.fromFlag_flag, ok_bind, getI64_append, hField, getU32_append hRaw, hDecode,
      hValue]
    rfl

/-- What the decoder accepts: it compares the outer length with the buffer only. -/
theorem decode_eq_ok_iff {buf rest : Bytes} {r : Record} :
    decode X buf = .ok (r, rest) ↔
      ∃ totalLen c stored, Framed X totalLen c stored r rest buf := by
  constructor
  · intro h
    rw [decode, failIf_bind_eq_ok] at h
    obtain ⟨-, h⟩ := h
    obtain ⟨⟨totalLen, buf₁⟩, hTotal, h₁⟩ := bind_eq_ok.mp h
    obtain ⟨hLt, rfl⟩ := getU32_eq_ok.mp hTotal
    dsimp only at h₁
    rw [failIf_bind_eq_ok, failIf_bind_eq_ok] at h₁
    obtain ⟨hLong, hWhole, h₁⟩ := h₁
    obtain ⟨⟨crc, buf₂⟩, hCrc, h₂⟩ := bind_eq_ok.mp h₁
    obtain ⟨-, rfl⟩ := getU32_eq_ok.mp hCrc
    dsimp only at h₂
    obtain ⟨⟨covered, buf₃⟩, hCovered, h₃⟩ := bind_eq_ok.mp h₂
    obtain ⟨hLen, rfl⟩ := getBytes_eq_ok.mp hCovered
    dsimp only at h₃
    rw [failIf_bind_eq_ok] at h₃
    obtain ⟨hSame, h₃⟩ := h₃
    obtain ⟨c, stored, payload, hPayload, hSplit⟩ := decodePayload_eq_ok.mp h₃
    refine ⟨totalLen, c, stored, by omega, hLt, ?_, payload, hPayload, ?_⟩
    · simp only [List.length_append, length_beBytes] at hWhole ⊢
      omega
    · have hDrop : (beBytes 4 totalLen ++ (beBytes 4 crc ++ (covered ++ buf₃))).drop 8 =
          covered ++ buf₃ := by
        rw [← List.append_assoc]
        exact List.drop_left' (by simp)
      rw [hDrop, ← hLen, List.take_left', not_not.mp hSame, hSplit]
      rfl
  · rintro ⟨totalLen, c, stored, hFramed⟩
    obtain ⟨payload, hPayload, hBytes⟩ := hFramed.bytes
    have hWhole := hFramed.whole
    have hLong := hFramed.long
    have hCrc := UInt32.toNat_lt (X.crc32 ((buf.drop 8).take (totalLen - 4)))
    have hDrop : buf.drop 8 = payload ++ rest := by
      rw [hBytes, ← List.append_assoc]
      exact List.drop_left' (by simp)
    rw [hDrop] at hBytes hCrc
    have hLen : 4 + totalLen ≤ 8 + (payload ++ rest).length := by
      rw [hBytes] at hWhole
      simp only [List.length_append, length_beBytes] at hWhole ⊢
      omega
    rw [hBytes]
    unfold decode
    rw [failIf_neg (by simp), ok_bind, getU32_append hFramed.short, ok_bind]
    simp only []
    rw [failIf_neg (by omega), ok_bind, failIf_neg (by simp at hLen ⊢; omega), ok_bind,
      getU32_append hCrc, ok_bind]
    simp only []
    have hCover : getBytes (totalLen - 4) (payload ++ rest) =
        .ok ((payload ++ rest).take (totalLen - 4), (payload ++ rest).drop (totalLen - 4)) := by
      unfold getBytes
      rw [if_neg]
      unfold minTotalLen at hLong
      omega
    rw [hCover, ok_bind]
    simp only []
    rw [failIf_neg (by simp), ok_bind]
    exact decodePayload_eq_ok.mpr ⟨c, stored, payload, hPayload, rfl⟩

theorem Framed.length_eq {totalLen : Nat} {c : Compression} {stored rest buf : Bytes} {r : Record}
    (h : Framed X totalLen c stored r rest buf) :
    buf.length = 8 + (r.payload c stored).length + rest.length := by
  obtain ⟨payload, hPayload, hBytes⟩ := h.bytes
  rw [hBytes, hPayload.fields]
  simp only [List.length_append, length_beBytes]
  omega

theorem Framed.drop_eq {totalLen : Nat} {c : Compression} {stored rest buf : Bytes} {r : Record}
    (h : Framed X totalLen c stored r rest buf) : buf.drop 8 = r.payload c stored ++ rest := by
  obtain ⟨payload, hPayload, hBytes⟩ := h.bytes
  rw [hBytes, ← List.append_assoc, hPayload.fields]
  exact List.drop_left' (by simp)

theorem decode_splits {buf rest : Bytes} {r : Record} (h : decode X buf = .ok (r, rest)) :
    ∃ front, 8 ≤ front.length ∧ buf = front ++ rest := by
  obtain ⟨totalLen, c, stored, hFramed⟩ := decode_eq_ok_iff.mp h
  obtain ⟨payload, -, hBytes⟩ := hFramed.bytes
  refine ⟨buf.take (8 + payload.length), ?_, ?_⟩
  · rw [hBytes]
    simp only [List.length_take, List.length_append, length_beBytes]
    omega
  · conv => lhs; rw [← List.take_append_drop (8 + payload.length) buf]
    congr 1
    rw [hBytes, ← List.append_assoc, ← List.append_assoc]
    apply List.drop_left'
    simp only [List.length_append, length_beBytes]

/-! ## Where the two lengths disagree -/

/-- The outer length at the front of a buffer. -/
def announced (buf : Bytes) : Nat := beNat (buf.take 4)

theorem Framed.announced {totalLen : Nat} {c : Compression} {stored rest buf : Bytes} {r : Record}
    (h : Framed X totalLen c stored r rest buf) : announced buf = totalLen := by
  obtain ⟨payload, hPayload, hBytes⟩ := h.bytes
  have hTake : buf.take 4 = beBytes 4 totalLen := by
    rw [hBytes]
    exact List.take_left' (length_beBytes 4 totalLen)
  rw [Record.announced, hTake]
  exact beNat_beBytes_of_lt h.short

/-- Cutting a buffer behind an accepted frame changes nothing as long as the announced end is
still in the buffer. -/
theorem decode_take {buf rest : Bytes} {r : Record} (h : decode X buf = .ok (r, rest)) {n : Nat}
    (hFront : buf.length - rest.length ≤ n) (hEnd : 4 + announced buf ≤ n) :
    decode X (buf.take n) = .ok (r, rest.take (n - (buf.length - rest.length))) := by
  obtain ⟨totalLen, c, stored, hFramed⟩ := decode_eq_ok_iff.mp h
  have hLen := hFramed.length_eq
  have hDrop := hFramed.drop_eq
  have hWhole := hFramed.whole
  rw [hFramed.announced] at hEnd
  have hLong := hFramed.long
  obtain ⟨payload, hPayload, hBytes⟩ := hFramed.bytes
  obtain rfl := hPayload.fields
  refine decode_eq_ok_iff.mpr ⟨totalLen, c, stored, hLong, hFramed.short, ?_, _, hPayload, ?_⟩
  · rw [List.length_take]
    omega
  · have hCovered : ((buf.take n).drop 8).take (totalLen - 4) =
        (buf.drop 8).take (totalLen - 4) := by
      rw [List.drop_take, List.take_take, Nat.min_eq_left (by omega)]
    have hFour : ∀ m, (beBytes 4 m).length = 4 := length_beBytes 4
    have hCut : n - (buf.length - rest.length) = n - 4 - 4 - (r.payload c stored).length := by
      omega
    rw [hCovered, hCut]
    generalize X.crc32 ((buf.drop 8).take (totalLen - 4)) = crc at hBytes
    rw [hBytes]
    simp only [List.take_append, hFour]
    rw [List.take_of_length_le (by rw [hFour]; omega), List.take_of_length_le (by rw [hFour]; omega),
      List.take_of_length_le (by omega)]

/-- Cutting it before the announced end makes the frame look torn. -/
theorem decode_take_torn {buf rest : Bytes} {r : Record} (h : decode X buf = .ok (r, rest)) {n : Nat}
    (hEnd : n < 4 + announced buf) : ∃ needed, decode X (buf.take n) = .err (.truncated needed) := by
  obtain ⟨totalLen, c, stored, hFramed⟩ := decode_eq_ok_iff.mp h
  have hWhole := hFramed.whole
  have hLong := hFramed.long
  rw [hFramed.announced] at hEnd
  obtain ⟨payload, hPayload, hBytes⟩ := hFramed.bytes
  have hFour : ∀ m, (beBytes 4 m).length = 4 := length_beBytes 4
  by_cases hShort : n < 4
  · exact ⟨_, decode_short X (by rw [List.length_take]; omega)⟩
  · refine ⟨totalLen - (n - 4), ?_⟩
    have hTake : buf.take n = beBytes 4 totalLen ++ (buf.drop 4).take (n - 4) := by
      have hDrop : buf.drop 4 = beBytes 4 (X.crc32 ((buf.drop 8).take (totalLen - 4))).toNat ++
          (payload ++ rest) := by
        conv => lhs; rw [hBytes]
        exact List.drop_left' (hFour totalLen)
      rw [hDrop]
      conv => lhs; rw [hBytes]
      rw [List.take_append, hFour, List.take_of_length_le (by rw [hFour]; omega)]
    have hRest : ((buf.drop 4).take (n - 4)).length = n - 4 := by
      simp only [List.length_take, List.length_drop]
      omega
    rw [hTake]
    unfold decode
    rw [failIf_neg (by simp), ok_bind, getU32_append hFramed.short, ok_bind]
    simp only [hRest]
    rw [failIf_neg (by omega), ok_bind, failIf_pos (by omega), err_bind]

/-- The buffer starts with fields that fit the format and a checksum that fits the outer length,
but the fields end before or behind the announced end. -/
def Disagrees (X : Crates) (buf : Bytes) : Prop :=
  ∃ totalLen c stored r rest, Framed X totalLen c stored r rest buf ∧
    totalLen ≠ 4 + (r.payload c stored).length

/-- What the wire format promises of decoding a buffer: exactly the frames of the grammar are
accepted, a whole frame is consumed, the checksum covers every field, and an uncompressed record
encodes to the bytes it came from. -/
structure Exact (X : Crates) (buf : Bytes) : Prop where
  accepts : ∀ r rest, decode X buf = .ok (r, rest) ↔ InGrammar X r rest buf
  consumes : ∀ r rest, decode X buf = .ok (r, rest) →
    4 + announced buf ≤ buf.length ∧ rest = buf.drop (4 + announced buf)
  covered : ∀ r rest, decode X buf = .ok (r, rest) → ∃ c stored,
    IsPayload X c stored r ((buf.drop 8).take (announced buf - 4)) ∧
      (X.crc32 ((buf.drop 8).take (announced buf - 4))).toNat = beNat ((buf.drop 4).take 4)
  reencodes : ∀ r rest, decode X buf = .ok (r, rest) → buf[8]? = some Compression.none.flag →
    r.encodeWith X [] .none = .ok (4 + announced buf, buf.take (4 + announced buf))

/-- A frame of the grammar is one whose two lengths agree. -/
theorem inGrammar_iff {r : Record} {rest buf : Bytes} : InGrammar X r rest buf ↔
    ∃ c stored, Framed X (4 + (r.payload c stored).length) c stored r rest buf := by
  constructor
  · rintro ⟨c, stored, payload, hPayload, hShort, hBytes⟩
    obtain rfl := hPayload.fields
    have hKey := r.four_le_keyLen
    have hLen := length_payload r c stored
    refine ⟨c, stored, ?_, hShort, ?_, _, hPayload, ?_⟩
    · unfold minTotalLen
      omega
    · rw [hBytes]
      simp only [List.length_append, length_beBytes]
      omega
    · have hDrop : buf.drop 8 = r.payload c stored ++ rest := by
        rw [hBytes, ← List.append_assoc]
        exact List.drop_left' (by simp)
      rw [hDrop, Nat.add_sub_cancel_left, List.take_left' rfl]
      exact hBytes
  · rintro ⟨c, stored, hFramed⟩
    obtain ⟨payload, hPayload, hBytes⟩ := hFramed.bytes
    have hDrop := hFramed.drop_eq
    obtain rfl := hPayload.fields
    refine ⟨c, stored, _, hPayload, hFramed.short, ?_⟩
    rw [hDrop, Nat.add_sub_cancel_left, List.take_left' rfl] at hBytes
    exact hBytes

theorem Framed.covers {c : Compression} {stored rest buf : Bytes} {r : Record}
    (h : Framed X (4 + (r.payload c stored).length) c stored r rest buf) :
    (buf.drop 8).take (Record.announced buf - 4) = r.payload c stored := by
  rw [h.announced, h.drop_eq, Nat.add_sub_cancel_left, List.take_left' rfl]

theorem Framed.checksum {totalLen : Nat} {c : Compression} {stored rest buf : Bytes} {r : Record}
    (h : Framed X totalLen c stored r rest buf) :
    (X.crc32 ((buf.drop 8).take (totalLen - 4))).toNat = beNat ((buf.drop 4).take 4) := by
  obtain ⟨payload, -, hBytes⟩ := h.bytes
  have hField : (buf.drop 4).take 4 =
      beBytes 4 (X.crc32 ((buf.drop 8).take (totalLen - 4))).toNat := by
    generalize (X.crc32 ((buf.drop 8).take (totalLen - 4))).toNat = crc at hBytes
    rw [hBytes, List.drop_left' (length_beBytes 4 totalLen), List.take_left' (length_beBytes 4 crc)]
  rw [hField]
  exact (beNat_beBytes_of_lt (UInt32.toNat_lt _)).symm

theorem Framed.rest_eq {c : Compression} {stored rest buf : Bytes} {r : Record}
    (h : Framed X (4 + (r.payload c stored).length) c stored r rest buf) :
    rest = buf.drop (4 + Record.announced buf) := by
  have hSplit : 4 + Record.announced buf = 8 + (r.payload c stored).length := by
    rw [h.announced]
    omega
  rw [hSplit, ← List.drop_drop, h.drop_eq, List.drop_left' rfl]

/-- The bytes in front of the rest are the frame the encoder writes. -/
theorem Framed.consumed {c : Compression} {stored rest buf : Bytes} {r : Record}
    (h : Framed X (4 + (r.payload c stored).length) c stored r rest buf) :
    buf.take (4 + Record.announced buf) = r.frameBytes X c stored ∧
      (r.frameBytes X c stored).length = 4 + Record.announced buf := by
  have hCovers := h.covers
  have hAnnounced := h.announced
  obtain ⟨payload, hPayload, hBytes⟩ := h.bytes
  obtain rfl := hPayload.fields
  rw [hAnnounced] at hCovers
  rw [hCovers] at hBytes
  have hLen : (r.frameBytes X c stored).length = 4 + Record.announced buf := by
    rw [hAnnounced, frameBytes]
    simp only [List.length_append, length_beBytes]
    omega
  refine ⟨?_, hLen⟩
  have hSplit : buf = r.frameBytes X c stored ++ rest := by
    rw [frameBytes, List.append_assoc, List.append_assoc]
    exact hBytes
  rw [← hLen]
  conv => lhs; rw [hSplit]
  exact List.take_left' rfl

theorem flag_inj {c c' : Compression} (h : c.flag = c'.flag) : c = c' := by
  cases c <;> cases c' <;> first | rfl | cases h

/-- Where the lengths agree the decoder does what the format promises. -/
theorem exact_of_agrees {buf : Bytes} (h : ¬ Disagrees X buf) : Exact X buf := by
  have hAgree : ∀ r rest, decode X buf = .ok (r, rest) →
      ∃ c stored, Framed X (4 + (r.payload c stored).length) c stored r rest buf := by
    intro r rest hDecode
    obtain ⟨totalLen, c, stored, hFramed⟩ := decode_eq_ok_iff.mp hDecode
    have hEq : totalLen = 4 + (r.payload c stored).length := by
      by_contra hNe
      exact h ⟨totalLen, c, stored, r, rest, hFramed, hNe⟩
    rw [hEq] at hFramed
    exact ⟨c, stored, hFramed⟩
  refine ⟨?_, ?_, ?_, ?_⟩
  · intro r rest
    rw [inGrammar_iff]
    constructor
    · exact hAgree r rest
    · rintro ⟨c, stored, hFramed⟩
      exact decode_eq_ok_iff.mpr ⟨_, c, stored, hFramed⟩
  · intro r rest hDecode
    obtain ⟨c, stored, hFramed⟩ := hAgree r rest hDecode
    refine ⟨?_, hFramed.rest_eq⟩
    rw [hFramed.announced]
    exact hFramed.whole
  · intro r rest hDecode
    obtain ⟨c, stored, hFramed⟩ := hAgree r rest hDecode
    have hSum := hFramed.checksum
    obtain ⟨payload, hPayload, -⟩ := hFramed.bytes
    refine ⟨c, stored, ?_, ?_⟩
    · rw [hFramed.covers, ← hPayload.fields]
      exact hPayload
    · rwa [hFramed.announced]
  · intro r rest hDecode hFlag
    obtain ⟨c, stored, hFramed⟩ := hAgree r rest hDecode
    have hHead : buf[8]? = some c.flag := by
      have hDrop := hFramed.drop_eq
      rw [← Nat.add_zero 8, ← List.getElem?_drop, hDrop]
      simp [payload]
    obtain rfl : c = .none := flag_inj (Option.some.inj (hHead.symm.trans hFlag))
    obtain ⟨payload, hPayload, -⟩ := hFramed.bytes
    obtain rfl : stored = r.value := Res.ok.inj hPayload.value
    obtain ⟨hBytes, hLen⟩ := hFramed.consumed
    rw [encodeWith_eq, hBytes, ← hLen]
    rfl

/-- Fields that end elsewhere are accepted all the same, which is outside the grammar. -/
theorem Framed.not_exact {totalLen : Nat} {c : Compression} {stored rest buf : Bytes} {r : Record}
    (h : Framed X totalLen c stored r rest buf) (hNe : totalLen ≠ 4 + (r.payload c stored).length) :
    ¬ Exact X buf := by
  intro hExact
  have hDecode := decode_eq_ok_iff.mpr ⟨totalLen, c, stored, h⟩
  obtain ⟨c', stored', h'⟩ := inGrammar_iff.mp ((hExact.accepts r rest).mp hDecode)
  have hOuter := h.announced.symm.trans h'.announced
  have hLen := h.length_eq.symm.trans h'.length_eq
  omega

/-- The decoder keeps to the documented format on exactly the buffers whose two length systems
do not contradict each other under a valid checksum. -/
theorem exact_iff (X : Crates) (buf : Bytes) : Exact X buf ↔ ¬ Disagrees X buf := by
  constructor
  · rintro hExact ⟨totalLen, c, stored, r, rest, hFramed, hNe⟩
    exact hFramed.not_exact hNe hExact
  · exact exact_of_agrees

/-- A frame of 25 bytes that announces a value of one byte, and one byte behind it. -/
def straddling : Bytes :=
  let payload := [0] ++ beBytes 8 0 ++ beBytes 4 keyNullSentinel ++ beBytes 4 1
  beBytes 4 21 ++ beBytes 4 (Kafko.crc32 payload).toNat ++ payload ++ [42]

/-- The value of this record is the byte behind its frame, which no checksum covers. -/
theorem straddling_not_exact : ¬ Exact Crates.uncompressed straddling := by
  intro h
  have hDecode : decode Crates.uncompressed straddling = .ok (⟨0, none, [42]⟩, []) := by
    decide +kernel
  have hRest : straddling.drop (4 + announced straddling) = [42] := by decide +kernel
  have hEnd := (h.consumes _ _ hDecode).2
  rw [hRest] at hEnd
  cases hEnd

end Record

end Kafko
