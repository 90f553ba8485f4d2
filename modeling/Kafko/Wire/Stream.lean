import Kafko.Wire.Frame

/-!
# Streams of records

Records encoded one after the other into a buffer, each under a codec of its own, come back in
order by decoding as often as records were written. The frames carry their codec, so nothing
but the bytes is needed, and whatever follows the last frame is left alone.
-/

namespace Kafko

open Disk Res

namespace Record

variable {X : Crates}

/-- Encodes without a codec, which cannot fail. -/
def encode (X : Crates) (r : Record) (out : Bytes) : Nat × Bytes :=
  r.encodeInner X out .none none

/-- Encodes every record under its codec into one buffer and lists what the calls return. -/
def encodeEach (X : Crates) : List (Compression × Record) → Bytes →
    Res KafkoError (List Nat × Bytes)
  | [], out => .ok ([], out)
  | (c, r) :: items, out => do
    let (size, out) ← r.encodeWith X out c
    let (sizes, out) ← encodeEach X items out
    pure (size :: sizes, out)

/-- Decodes `n` records off the front of a buffer. -/
def decodeEach (X : Crates) : Nat → Bytes → Res KafkoError (List Record × Bytes)
  | 0, buf => .ok ([], buf)
  | n + 1, buf => do
    let (r, buf) ← decode X buf
    let (rs, buf) ← decodeEach X n buf
    pure (r :: rs, buf)

/-- The codec is linked, the length fields hold their values, and the codec gives the value
back. The outer length bounds those of the key and of the stored value. -/
structure Encodable (X : Crates) (c : Compression) (r : Record) : Prop where
  available : c.isAvailable X = true
  short : ∀ stored, c.compress X r.value = .ok stored → 4 + (r.payload c stored).length < 2 ^ 32
  fits : c.Fits r.value

/-- What one encoded record is to the rest of the world: `frame` is appended to any buffer, and
the decoder reads it back whole or reports it torn. -/
structure Carries (X : Crates) (c : Compression) (r : Record) (frame : Bytes) : Prop where
  appended : ∀ out, r.encodeWith X out c = .ok (frame.length, out ++ frame)
  plain : c = .none → frame.length = r.wireSize ∧
    ∀ out, r.encode X out = (r.wireSize, out ++ frame)
  decoded : ∀ rest, decode X (frame ++ rest) = .ok (r, rest)
  torn : ∀ n, n < frame.length → ∃ needed, decode X (frame.take n) = .err (.truncated needed)

theorem length_frameBytes_none (X : Crates) (r : Record) :
    (r.frameBytes X .none r.value).length = r.wireSize := by
  rw [length_frameBytes, wireSize, keyLen]
  cases r.key with
  | none => rfl
  | some k =>
    dsimp only
    omega

theorem Encodable.carries (hX : X.Lawful) {c : Compression} {r : Record}
    (h : Encodable X c r) : ∃ frame, Carries X c r frame := by
  obtain ⟨frame, hWire⟩ := wire_isAvailable h.available r
  obtain ⟨stored, hStored, hFrame⟩ := wire_eq_ok.mp hWire
  have hLen : frame.length < 2 ^ 32 + 4 := by
    have hShort := h.short stored hStored
    rw [length_payload] at hShort
    rw [← hFrame, length_frameBytes]
    omega
  refine ⟨frame, ?_, ?_, ?_, ?_⟩
  · intro out
    rw [encodeWith_eq, hWire]
    rfl
  · rintro rfl
    obtain rfl : r.value = stored := Res.ok.inj hStored
    have hSize := length_frameBytes_none X r
    rw [← hFrame]
    refine ⟨hSize, ?_⟩
    intro out
    rw [encode, encodeInner_eq, Option.getD_none, hSize]
  · exact decode_wire hX hWire h.fits hLen
  · intro n hn
    exact decode_strict_prefix hWire hLen hn

/-- The frames of a list of records, one for each. -/
theorem encodeEach_carries (hX : X.Lawful) {items : List (Compression × Record)}
    (h : ∀ item ∈ items, Encodable X item.1 item.2) :
    ∃ frames, List.Forall₂ (fun item frame => Carries X item.1 item.2 frame) items frames ∧
      ∀ out, encodeEach X items out = .ok (frames.map List.length, out ++ frames.flatten) := by
  induction items with
  | nil =>
    refine ⟨[], List.Forall₂.nil, ?_⟩
    intro out
    simp [encodeEach]
  | cons item items ih =>
    obtain ⟨c, r⟩ := item
    obtain ⟨frame, hFrame⟩ := (h (c, r) List.mem_cons_self).carries hX
    obtain ⟨frames, hFrames, hOut⟩ := ih fun item hItem => h item (List.mem_cons_of_mem _ hItem)
    refine ⟨frame :: frames, List.Forall₂.cons hFrame hFrames, ?_⟩
    intro out
    rw [encodeEach, hFrame.appended, ok_bind]
    dsimp only
    rw [hOut, ok_bind]
    simp

/-- Frames that carry records are read back one after the other. -/
theorem decodeEach_carries {items : List (Compression × Record)} {frames : List Bytes}
    (h : List.Forall₂ (fun item frame => Carries X item.1 item.2 frame) items frames)
    (rest : Bytes) :
    decodeEach X items.length (frames.flatten ++ rest) = .ok (items.map Prod.snd, rest) := by
  induction h with
  | nil => rfl
  | cons hFrame _ ih =>
    rw [List.length_cons, decodeEach, List.flatten_cons, List.append_assoc, hFrame.decoded, ok_bind]
    dsimp only
    rw [ih, ok_bind]
    rfl

/-- The round trip of a stream: encoding appends the frames and counts their bytes, decoding
gives the records back and leaves what follows, and no torn frame passes for a record. -/
theorem stream_round_trip (hX : X.Lawful) (items : List (Compression × Record))
    (h : ∀ item ∈ items, Encodable X item.1 item.2) :
    ∃ frames, List.Forall₂ (fun item frame => Carries X item.1 item.2 frame) items frames ∧
      (∀ out, encodeEach X items out = .ok (frames.map List.length, out ++ frames.flatten)) ∧
      ∀ rest, decodeEach X items.length (frames.flatten ++ rest) =
        .ok (items.map Prod.snd, rest) := by
  obtain ⟨frames, hFrames, hOut⟩ := encodeEach_carries hX h
  exact ⟨frames, hFrames, hOut, decodeEach_carries hFrames⟩

/-- A record without a key before the epoch, and one with an empty key and a codec. -/
def mixedItems : List (Compression × Record) :=
  [(.none, ⟨-1, none, []⟩), (.lz4, ⟨0, some [], [7, 7]⟩)]

theorem encodable_mixedItems :
    ∀ item ∈ mixedItems, Encodable Crates.literalLz4 item.1 item.2 := by
  intro item hItem
  rcases List.mem_pair.mp hItem with rfl | rfl
  · refine ⟨rfl, ?_, Or.inl rfl⟩
    intro stored hStored
    cases hStored
    decide
  · refine ⟨rfl, ?_, Or.inr (by decide)⟩
    intro stored hStored
    cases hStored
    decide

theorem stream_round_trip_mixed :
    ∃ frames, List.Forall₂ (fun item frame => Carries Crates.literalLz4 item.1 item.2 frame)
        mixedItems frames ∧
      (∀ out, encodeEach Crates.literalLz4 mixedItems out =
        .ok (frames.map List.length, out ++ frames.flatten)) ∧
      ∀ rest, decodeEach Crates.literalLz4 mixedItems.length (frames.flatten ++ rest) =
        .ok (mixedItems.map Prod.snd, rest) :=
  stream_round_trip Crates.lawful_literalLz4 mixedItems encodable_mixedItems

end Record

end Kafko
