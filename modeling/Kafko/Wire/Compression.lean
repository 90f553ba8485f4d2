import Kafko.Disk.Calls

/-!
# Errors, linked crates and value compression

The crates kafko links are outside the repository. A build is described by `Crates`: the
checksum function and, for each codec whose Cargo feature is on, its compressor and
decompressor. What the code relies on is `Crates.Lawful`.

`Compression` follows `compression.rs`. The 16 MiB cap is enforced on decompression only:
`compress` accepts every value.
-/

namespace Kafko

open Disk

/-- Per-topic value compression. -/
inductive Compression
  | none
  | lz4
  | zstd
  deriving DecidableEq, Repr

/-- All errors surfaced by the public API. -/
inductive KafkoError
  | io (kind : ErrorKind)
  | truncated (needed : Nat)
  | crcMismatch (expected actual : Nat)
  | invalidLength (len : Nat)
  | closed
  | topicAlreadyExists (name : String)
  | topicNotFound (name : String)
  | topicInUse (name : String)
  | unknownCompression (flag : UInt8)
  | decompressionFailed
  | compressionUnavailable (codec : Compression)
  | alreadyOpen (path : String)
  | partitionPanicked (payload : String)
  | invalidPartitionCount (count : Nat)
  | invalidGroupName (name : String)
  | invalidTopicLayout (topic detail : String)
  deriving DecidableEq, Repr

instance : OfIo KafkoError := ⟨KafkoError.io⟩

/-! ## Linked crates -/

/-- The block functions of `lz4_flex`. -/
structure Lz4 where
  compressInto : Bytes → Bytes
  decompressSizePrepended : Bytes → Option Bytes

/-- The bulk functions of `zstd`; decompression takes the largest output it may produce. -/
structure Zstd where
  compressToBuffer : Bytes → Bytes
  decompress : Bytes → Nat → Option Bytes

/-- A build: the checksum and the codecs whose features are on. -/
structure Crates where
  crc32 : Bytes → UInt32
  lz4 : Option Lz4
  zstd : Option Zstd

namespace Crates

/-- Each linked codec's decompressor inverts its compressor, and a capped decompression
fails on a value above the cap. -/
structure Lawful (X : Crates) : Prop where
  lz4_inverse : ∀ codec, X.lz4 = some codec → ∀ raw : Bytes, raw.length < 2 ^ 32 →
    codec.decompressSizePrepended (leBytes 4 raw.length ++ codec.compressInto raw) = some raw
  zstd_inverse : ∀ codec, X.zstd = some codec → ∀ (raw : Bytes) cap, raw.length ≤ cap →
    codec.decompress (codec.compressToBuffer raw) cap = some raw
  zstd_capped : ∀ codec, X.zstd = some codec → ∀ (raw : Bytes) cap, cap < raw.length →
    codec.decompress (codec.compressToBuffer raw) cap = none

end Crates

/-! ## Compression -/

/-- `DECOMPRESS_MAX_SIZE`. -/
def decompressMaxSize : Nat := 16 * 1024 * 1024

namespace Compression

def flag : Compression → UInt8
  | none => 0
  | lz4 => 1
  | zstd => 2

def fromFlag (flag : UInt8) : Res KafkoError Compression :=
  if flag = 0 then .ok none
  else if flag = 1 then .ok lz4
  else if flag = 2 then .ok zstd
  else .err (.unknownCompression flag)

def isAvailable (X : Crates) : Compression → Bool
  | none => true
  | lz4 => X.lz4.isSome
  | zstd => X.zstd.isSome

def lz4Compress (X : Crates) (raw : Bytes) : Res KafkoError Bytes :=
  match X.lz4 with
  | some codec => .ok (leBytes 4 raw.length ++ codec.compressInto raw)
  | Option.none => .err (.compressionUnavailable .lz4)

def zstdCompress (X : Crates) (raw : Bytes) : Res KafkoError Bytes :=
  match X.zstd with
  | some codec => .ok (codec.compressToBuffer raw)
  | Option.none => .err (.compressionUnavailable .zstd)

def lz4Decompress (X : Crates) (compressed : Bytes) : Res KafkoError Bytes :=
  match X.lz4 with
  | some codec =>
    if compressed.length < 4 then .err .decompressionFailed
    else if decompressMaxSize < leNat (compressed.take 4) then .err .decompressionFailed
    else match codec.decompressSizePrepended compressed with
      | some raw => .ok raw
      | Option.none => .err .decompressionFailed
  | Option.none => .err (.compressionUnavailable .lz4)

def zstdDecompress (X : Crates) (compressed : Bytes) : Res KafkoError Bytes :=
  match X.zstd with
  | some codec =>
    match codec.decompress compressed decompressMaxSize with
    | some raw => .ok raw
    | Option.none => .err .decompressionFailed
  | Option.none => .err (.compressionUnavailable .zstd)

def compress (X : Crates) (c : Compression) (raw : Bytes) : Res KafkoError Bytes :=
  match c with
  | none => .ok raw
  | lz4 => lz4Compress X raw
  | zstd => zstdCompress X raw

def decompress (X : Crates) (c : Compression) (compressed : Bytes) : Res KafkoError Bytes :=
  match c with
  | none => .ok compressed
  | lz4 => lz4Decompress X compressed
  | zstd => zstdDecompress X compressed

theorem fromFlag_flag (c : Compression) : fromFlag c.flag = .ok c := by
  cases c <;> rfl

/-- The largest value that comes back from the codec. -/
def Fits (c : Compression) (value : Bytes) : Prop :=
  c = none ∨ value.length ≤ decompressMaxSize

instance (c : Compression) (value : Bytes) : Decidable (c.Fits value) :=
  inferInstanceAs (Decidable (c = none ∨ value.length ≤ decompressMaxSize))

theorem decompress_compress {X : Crates} (hX : X.Lawful) {c : Compression} {raw out : Bytes}
    (hFits : c.Fits raw) (hOut : c.compress X raw = .ok out) :
    c.decompress X out = .ok raw := by
  cases c with
  | none =>
    cases hOut
    rfl
  | lz4 =>
    have hLen : raw.length ≤ decompressMaxSize := by simpa [Fits] using hFits
    have hSmall : raw.length < 2 ^ 32 := Nat.lt_of_le_of_lt hLen (by decide)
    cases hc : X.lz4 with
    | none => simp [compress, lz4Compress, hc] at hOut
    | some codec =>
      simp only [compress, lz4Compress, hc, Res.ok.injEq] at hOut
      subst hOut
      have hPrefix : leNat ((leBytes 4 raw.length ++ codec.compressInto raw).take 4) =
          raw.length := by
        rw [List.take_append_of_le_length (by simp), List.take_of_length_le (by simp)]
        exact leNat_leBytes_of_lt (by omega)
      simp only [decompress, lz4Decompress, hc, hPrefix, hX.lz4_inverse codec hc raw hSmall]
      rw [if_neg (by simp), if_neg (by omega)]
  | zstd =>
    have hLen : raw.length ≤ decompressMaxSize := by simpa [Fits] using hFits
    cases hc : X.zstd with
    | none => simp [compress, zstdCompress, hc] at hOut
    | some codec =>
      simp only [compress, zstdCompress, hc, Res.ok.injEq] at hOut
      subst hOut
      simp only [decompress, zstdDecompress, hc, hX.zstd_inverse codec hc raw _ hLen]

/-- A value above the cap is written and can never be read. -/
theorem decompress_compress_oversized {X : Crates} (hX : X.Lawful) {c : Compression}
    {raw out : Bytes} (hSmall : c = lz4 → raw.length < 2 ^ 32) (hBig : ¬ c.Fits raw)
    (hOut : c.compress X raw = .ok out) : c.decompress X out = .err .decompressionFailed := by
  have hNone : c ≠ none := fun h => hBig (Or.inl h)
  have hLen : decompressMaxSize < raw.length := by
    by_contra h
    exact hBig (Or.inr (by omega))
  cases c with
  | none => exact absurd rfl hNone
  | lz4 =>
    cases hc : X.lz4 with
    | none => simp [compress, lz4Compress, hc] at hOut
    | some codec =>
      simp only [compress, lz4Compress, hc, Res.ok.injEq] at hOut
      subst hOut
      have hRaw := hSmall rfl
      have hPrefix : leNat ((leBytes 4 raw.length ++ codec.compressInto raw).take 4) =
          raw.length := by
        rw [List.take_append_of_le_length (by simp), List.take_of_length_le (by simp)]
        exact leNat_leBytes_of_lt (by omega)
      simp only [decompress, lz4Decompress, hc, hPrefix]
      rw [if_neg (by simp), if_pos hLen]
  | zstd =>
    cases hc : X.zstd with
    | none => simp [compress, zstdCompress, hc] at hOut
    | some codec =>
      simp only [compress, zstdCompress, hc, Res.ok.injEq] at hOut
      subst hOut
      simp only [decompress, zstdDecompress, hc, hX.zstd_capped codec hc raw _ hLen]

end Compression

/-! ## A build without codecs -/

/-- One bit of the reflected CRC-32 register. -/
def crcBit (c : UInt32) : UInt32 :=
  if c &&& 1 = 1 then (c >>> 1) ^^^ 0xEDB88320 else c >>> 1

def crcByte (c : UInt32) (b : UInt8) : UInt32 :=
  crcBit (crcBit (crcBit (crcBit (crcBit (crcBit (crcBit (crcBit (c ^^^ b.toUInt32))))))))

/-- CRC-32 as `crc32fast` computes it. -/
def crc32 (bytes : Bytes) : UInt32 := (bytes.foldl crcByte 0xFFFFFFFF) ^^^ 0xFFFFFFFF

example : crc32 ("123456789".toUTF8.toList) = 0xCBF43926 := by decide +kernel

/-- The crates of a build with both compression features off. -/
def Crates.uncompressed : Crates := ⟨Kafko.crc32, none, none⟩

theorem Crates.lawful_uncompressed : Crates.uncompressed.Lawful where
  lz4_inverse codec h := by cases h
  zstd_inverse codec h := by cases h
  zstd_capped codec h := by cases h

/-! ## A build with LZ4

The blocks of this build consist of one run of literals, as the LZ4 block format encodes data
without repetitions: a token with the length in its upper half, further length bytes if the
length does not fit, and the data. -/

def literalBlock (raw : Bytes) : Bytes :=
  if raw.length < 15 then UInt8.ofNat (raw.length * 16) :: raw
  else 0xF0 :: (List.replicate ((raw.length - 15) / 255) 255 ++
    (UInt8.ofNat ((raw.length - 15) % 255) :: raw))

/-- The further length bytes: every 255 announces another one. -/
def readLength : Bytes → Option (Nat × Bytes)
  | [] => none
  | b :: rest =>
    if b = 255 then (readLength rest).map fun r => (r.1 + 255, r.2) else some (b.toNat, rest)

def readLiterals : Bytes → Option Bytes
  | [] => none
  | token :: rest =>
    let length :=
      if token.toNat / 16 = 15 then (readLength rest).map fun r => (r.1 + 15, r.2)
      else some (token.toNat / 16, rest)
    length.bind fun r => if r.2.length = r.1 then some r.2 else none

theorem readLength_replicate (k m : Nat) (hm : m < 255) (rest : Bytes) :
    readLength (List.replicate k 255 ++ (UInt8.ofNat m :: rest)) = some (k * 255 + m, rest) := by
  induction k with
  | zero =>
    have hSmall : (UInt8.ofNat m).toNat = m :=
      UInt8.toNat_ofNat_of_lt' (Nat.lt_trans hm (by decide))
    have hNe : UInt8.ofNat m ≠ 255 := by
      intro h
      rw [h] at hSmall
      exact absurd hSmall.symm (Nat.ne_of_lt hm)
    rw [List.replicate_zero, List.nil_append, readLength, if_neg hNe, hSmall]
    simp
  | succ k ih =>
    rw [List.replicate_succ, List.cons_append, readLength, if_pos rfl, ih, Option.map_some]
    simp only [Option.some.injEq, Prod.mk.injEq, and_true]
    omega

theorem readLiterals_literalBlock (raw : Bytes) : readLiterals (literalBlock raw) = some raw := by
  unfold literalBlock
  split
  · next hShort =>
    have hToken : (UInt8.ofNat (raw.length * 16)).toNat / 16 = raw.length := by
      rw [UInt8.toNat_ofNat_of_lt' (show raw.length * 16 < 2 ^ 8 by omega)]
      omega
    simp only [readLiterals, hToken]
    rw [if_neg (by omega)]
    simp
  · next hLong =>
    have hToken : (0xF0 : UInt8).toNat / 16 = 15 := by decide
    have hLength := readLength_replicate ((raw.length - 15) / 255) ((raw.length - 15) % 255)
      (Nat.mod_lt _ (by decide)) raw
    have hSum : (raw.length - 15) / 255 * 255 + (raw.length - 15) % 255 + 15 = raw.length := by
      rw [Nat.div_add_mod']
      omega
    rw [readLiterals, hToken, if_pos rfl, hLength]
    simp only [Option.map_some, Option.bind_some, hSum]
    rw [if_pos trivial]

/-- The crates of a build with the LZ4 feature on. -/
def Crates.literalLz4 : Crates where
  crc32 := Kafko.crc32
  lz4 := some
    { compressInto := literalBlock
      decompressSizePrepended := fun bytes =>
        (readLiterals (bytes.drop 4)).filter fun raw => raw.length = leNat (bytes.take 4) }
  zstd := none

theorem Crates.lawful_literalLz4 : Crates.literalLz4.Lawful where
  lz4_inverse codec h raw hRaw := by
    obtain rfl := Option.some.inj h
    have hDrop : (leBytes 4 raw.length ++ literalBlock raw).drop 4 = literalBlock raw :=
      List.drop_left' (length_leBytes 4 raw.length)
    have hTake : (leBytes 4 raw.length ++ literalBlock raw).take 4 = leBytes 4 raw.length :=
      List.take_left' (length_leBytes 4 raw.length)
    dsimp only
    rw [hDrop, hTake, readLiterals_literalBlock, leNat_leBytes_of_lt (by omega)]
    simp
  zstd_inverse codec h := by cases h
  zstd_capped codec h := by cases h

end Kafko
