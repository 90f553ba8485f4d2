import Kafko.Wire.Compression

/-!
# The record frame

`encodeWith` and `decode` follow `record.rs`. All integers are big endian; the frame is

    len | crc32 | flags | ts_ms | key_len | key | val_len | val

where `len` counts everything after itself and `crc32` covers everything after itself. The
narrowing casts of the three lengths reduce modulo `2 ^ 32`. Every fixed-width read and
every slice of the decoder is partial here: reading past the end is a panic.
-/

namespace Kafko

open Disk Res

/-- A single log entry. -/
structure Record where
  timestampMs : Int64
  key : Option Bytes
  value : Bytes
  deriving DecidableEq

/-- `KEY_NULL_SENTINEL`. -/
def keyNullSentinel : Nat := 2 ^ 32 - 1

/-- `MIN_TOTAL_LEN`: crc, flags, timestamp and the two length fields. -/
def minTotalLen : Nat := 4 + 1 + 8 + 4 + 4

namespace Record

/-! ## Encoding -/

/-- The on-wire size without compression. -/
def wireSize (r : Record) : Nat :=
  let keyPart := match r.key with
    | none => 4
    | some k => 4 + k.length
  4 + 4 + 1 + 8 + keyPart + 4 + r.value.length

/-- The key field; the sentinel length stands for an absent key. -/
def keyBytes (r : Record) : Bytes :=
  match r.key with
  | none => beBytes 4 keyNullSentinel
  | some k => beBytes 4 k.length ++ k

/-- Everything the checksum covers. -/
def payload (r : Record) (c : Compression) (valBytes : Bytes) : Bytes :=
  [c.flag] ++ beBytes 8 r.timestampMs.toUInt64.toNat ++ r.keyBytes ++
    beBytes 4 valBytes.length ++ valBytes

/-- Appends one frame to `out` and returns its size with the new buffer. The checksum is
written over a placeholder once the payload is in place. -/
def encodeInner (X : Crates) (r : Record) (out : Bytes) (c : Compression)
    (valBytesOverride : Option Bytes) : Nat × Bytes :=
  let startLen := out.length
  let valBytes := valBytesOverride.getD r.value
  let keyPart := match r.key with
    | none => 4
    | some k => 4 + k.length
  let valPart := 4 + valBytes.length
  let payloadLen := 1 + 8 + keyPart + valPart
  let totalLen := 4 + payloadLen
  let out := out ++ beBytes 4 totalLen
  let crcPos := out.length
  let out := out ++ beBytes 4 0
  let payloadStart := out.length
  let out := out ++ r.payload c valBytes
  let crc := X.crc32 (out.drop payloadStart)
  let out := out.take crcPos ++ beBytes 4 crc.toNat ++ out.drop (crcPos + 4)
  (out.length - startLen, out)

def encodeWith (X : Crates) (r : Record) (out : Bytes) (c : Compression) :
    Res KafkoError (Nat × Bytes) :=
  match c with
  | .none => .ok (r.encodeInner X out c none)
  | .lz4 | .zstd => do
    let scratch ← c.compress X r.value
    pure (r.encodeInner X out c (some scratch))

/-! ## Decoding -/

/-- `&buf[..n]` together with what is left after advancing by `n`. -/
def getBytes (n : Nat) (buf : Bytes) : Res KafkoError (Bytes × Bytes) :=
  if buf.length < n then .panic "advance out of bounds" else .ok (buf.take n, buf.drop n)

def getU8 (buf : Bytes) : Res KafkoError (UInt8 × Bytes) := do
  let (bs, rest) ← getBytes 1 buf
  pure (bs.headD 0, rest)

def getU32 (buf : Bytes) : Res KafkoError (Nat × Bytes) := do
  let (bs, rest) ← getBytes 4 buf
  pure (beNat bs, rest)

def getI64 (buf : Bytes) : Res KafkoError (Int64 × Bytes) := do
  let (bs, rest) ← getBytes 8 buf
  pure ((UInt64.ofNat (beNat bs)).toInt64, rest)

def decodeKey (totalLen keyLenRaw : Nat) (buf : Bytes) :
    Res KafkoError (Option Bytes × Bytes) :=
  if keyLenRaw = keyNullSentinel then .ok (none, buf)
  else do
    failIf (buf.length < keyLenRaw) (.invalidLength totalLen)
    let (key, rest) ← getBytes keyLenRaw buf
    pure (some key, rest)

def decodeValue (X : Crates) (compression : Compression) (totalLen : Nat) (buf : Bytes) :
    Res KafkoError (Bytes × Bytes) := do
  failIf (buf.length < 4) (.invalidLength totalLen)
  let (valLen, buf) ← getU32 buf
  failIf (buf.length < valLen) (.invalidLength totalLen)
  let (rawVal, buf) ← getBytes valLen buf
  let value ← compression.decompress X rawVal
  pure (value, buf)

/-- Reads the fields behind the checksum. -/
def decodePayload (X : Crates) (totalLen : Nat) (buf : Bytes) :
    Res KafkoError (Record × Bytes) := do
  let (flag, buf) ← getU8 buf
  let compression ← Compression.fromFlag flag
  let (timestampMs, buf) ← getI64 buf
  let (keyLenRaw, buf) ← getU32 buf
  let (key, buf) ← decodeKey totalLen keyLenRaw buf
  let (value, buf) ← decodeValue X compression totalLen buf
  pure (⟨timestampMs, key, value⟩, buf)

/-- Decodes one record off the front of `buf` and returns it with the rest. -/
def decode (X : Crates) (buf : Bytes) : Res KafkoError (Record × Bytes) := do
  failIf (buf.length < 4) (.truncated (4 - buf.length))
  let (totalLen, buf) ← getU32 buf
  failIf (totalLen < minTotalLen) (.invalidLength totalLen)
  failIf (buf.length < totalLen) (.truncated (totalLen - buf.length))
  let (expectedCrc, buf) ← getU32 buf
  let payloadLen := totalLen - 4
  let (crcInput, _) ← getBytes payloadLen buf
  let actualCrc := (X.crc32 crcInput).toNat
  failIf (actualCrc ≠ expectedCrc) (.crcMismatch expectedCrc actualCrc)
  decodePayload X totalLen buf

/-! ## Small facts about the readers -/

theorem getBytes_append (front rest : Bytes) :
    getBytes front.length (front ++ rest) = .ok (front, rest) := by
  simp [getBytes]

theorem getBytes_append_of_length {n : Nat} {front : Bytes} (h : front.length = n)
    (rest : Bytes) : getBytes n (front ++ rest) = .ok (front, rest) := by
  subst h
  exact getBytes_append front rest

theorem getU8_cons (b : UInt8) (rest : Bytes) : getU8 (b :: rest) = .ok (b, rest) := by
  have h := getBytes_append [b] rest
  simp only [List.length_singleton, List.singleton_append] at h
  simp [getU8, h]

theorem getU32_append {n : Nat} (h : n < 2 ^ 32) (rest : Bytes) :
    getU32 (beBytes 4 n ++ rest) = .ok (n, rest) := by
  have hRead := beNat_beBytes_of_lt (w := 4) (n := n) (by omega)
  simp [getU32, getBytes_append_of_length (length_beBytes 4 n), hRead]

theorem getI64_append (t : Int64) (rest : Bytes) :
    getI64 (beBytes 8 t.toUInt64.toNat ++ rest) = .ok (t, rest) := by
  have hLt : t.toUInt64.toNat < 256 ^ 8 := Nat.lt_of_lt_of_le t.toUInt64.toNat_lt (by decide)
  have hRead := beNat_beBytes_of_lt hLt
  simp only [getI64, getBytes_append_of_length (length_beBytes 8 _), hRead, ok_bind, pure_eq]
  rw [UInt64.ofNat_toNat]
  rfl

end Record

end Kafko
