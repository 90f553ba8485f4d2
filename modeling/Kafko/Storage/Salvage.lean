import Kafko.Storage.OpenSpec
import Kafko.Wire.Grammar
import Kafko.Wire.Stream

/-!
# What recovery reads out of arbitrary bytes

Recovery decodes the active file twice: the scan looks for the end of the last whole record, and
the replay decodes what was kept and counts it. This module is about the two decode loops on a
byte string nobody vouches for. A frame may decode in front of its successors although it
announces an end behind its own, and the truncation between the passes may cut that end off:
the replay succeeds exactly if no record of the scan announces an end behind the kept bytes
(`replay_iff_contained`).
-/

namespace Kafko

open Disk

namespace Log

variable {X : Crates}

/-! ## The two passes as functions of the bytes -/

/-- A record the scan decodes: its size and the position its frame announces to end at. -/
structure Scanned where
  record : Record
  size : Nat
  announcedEnd : Nat
  deriving DecidableEq

/-- The records the recovery scan decodes from `pos` on. -/
def scanned (X : Crates) : Nat → Bytes → Nat → List Scanned
  | 0, _, _ => []
  | fuel + 1, slice, pos =>
    match Record.decode X slice with
    | .ok (record, rest) =>
      ⟨record, slice.length - rest.length, pos + (4 + Record.announced slice)⟩ ::
        scanned X fuel rest (pos + (slice.length - rest.length))
    | _ => []

/-- The sizes of the records that the replay decodes, which has to reach the end. -/
def recordSizes (X : Crates) : Nat → Bytes → Res KafkoError (List Nat)
  | 0, _ => .ok []
  | fuel + 1, slice =>
    if slice.isEmpty then .ok []
    else do
      let (_, rest) ← Record.decode X slice
      let sizes ← recordSizes X fuel rest
      pure ((slice.length - rest.length) :: sizes)

/-- No record of the scan announces an end behind the last valid position. -/
def Contained (X : Crates) (bytes : Bytes) (last : Nat) : Prop :=
  ∀ s ∈ scanned X bytes.length bytes 0, s.announcedEnd ≤ last

instance (X : Crates) (bytes : Bytes) (last : Nat) : Decidable (Contained X bytes last) :=
  inferInstanceAs (Decidable (∀ s ∈ scanned X bytes.length bytes 0, s.announcedEnd ≤ last))

/-! ## Frames read off a buffer -/

/-- An accepted frame, as a frame of a stream. -/
theorem exists_frame {slice rest : Bytes} {r : Record} (h : Record.decode X slice = .ok (r, rest)) :
    ∃ f : LogFrame, f.record = r ∧ slice = f.bytes ++ rest := by
  obtain ⟨front, hFront, hSlice⟩ := Record.decode_splits h
  have hNe : front ≠ [] := by
    intro hNil
    rw [hNil] at hFront
    simp at hFront
  exact ⟨⟨r, front, hNe⟩, rfl, hSlice⟩

/-- Whether a frame still decodes once everything behind `kept` is cut off. -/
theorem decode_cut {front kept tail : Bytes} {r : Record}
    (h : Record.decode X (front ++ (kept ++ tail)) = .ok (r, kept ++ tail)) :
    (4 + Record.announced (front ++ (kept ++ tail)) ≤ front.length + kept.length ∧
      Record.decode X (front ++ kept) = .ok (r, kept)) ∨
    (front.length + kept.length < 4 + Record.announced (front ++ (kept ++ tail)) ∧
      ∃ needed, Record.decode X (front ++ kept) = .err (.truncated needed)) := by
  have hCut : (front ++ (kept ++ tail)).take (front.length + kept.length) = front ++ kept := by
    rw [← List.append_assoc]
    exact List.take_left' (by simp)
  by_cases hEnd : 4 + Record.announced (front ++ (kept ++ tail)) ≤ front.length + kept.length
  · left
    have hFront : (front ++ (kept ++ tail)).length - (kept ++ tail).length = front.length := by
      simp
    have hDecode := Record.decode_take h (n := front.length + kept.length) (by omega) hEnd
    rw [hCut, hFront, Nat.add_sub_cancel_left, List.take_left' rfl] at hDecode
    exact ⟨hEnd, hDecode⟩
  · right
    have hTorn := Record.decode_take_torn h (n := front.length + kept.length) (by omega)
    rw [hCut] at hTorn
    exact ⟨by omega, hTorn⟩

/-- Why the scan stopped: at the end of the file or at a frame it takes for torn. -/
def Stops (X : Crates) (tail : Bytes) : Prop :=
  tail = [] ∨ (∃ n, Record.decode X tail = .err (.truncated n)) ∨
    (∃ a b, Record.decode X tail = .err (.crcMismatch a b)) ∨
    ∃ n, Record.decode X tail = .err (.invalidLength n)

/-- A scan that ends splits the buffer into the frames it decoded and the rest. The frames
decode without the rest exactly if none of them announces an end inside it. -/
theorem lastValid_ok {fuel : Nat} {slice : Bytes} {pos last : Nat} (hFuel : slice.length ≤ fuel)
    (h : lastValid X fuel slice pos = .ok last) :
    ∃ fs tail, slice = flat fs ++ tail ∧ Decodes X tail fs ∧ Stops X tail ∧
      last = pos + span fs ∧ (scanned X fuel slice pos).map Scanned.record = fs.map Frame.record ∧
      (scanned X fuel slice pos).map Scanned.size = sizes fs ∧
      ((∀ s ∈ scanned X fuel slice pos, s.announcedEnd ≤ last) ↔ Decodes X [] fs) := by
  induction fuel generalizing slice pos with
  | zero =>
    obtain rfl := List.eq_nil_of_length_eq_zero (Nat.le_zero.mp hFuel)
    obtain rfl := Res.ok.inj h
    exact ⟨[], [], rfl, trivial, Or.inl rfl, rfl, rfl, rfl, by simp [scanned, Decodes]⟩
  | succ fuel ih =>
    -- a scan that stops at once has decoded nothing
    have hStop : Stops X slice → (∀ p, Record.decode X slice ≠ .ok p) → last = pos →
        ∃ fs tail, slice = flat fs ++ tail ∧ Decodes X tail fs ∧ Stops X tail ∧
          last = pos + span fs ∧
          (scanned X (fuel + 1) slice pos).map Scanned.record = fs.map Frame.record ∧
          (scanned X (fuel + 1) slice pos).map Scanned.size = sizes fs ∧
          ((∀ s ∈ scanned X (fuel + 1) slice pos, s.announcedEnd ≤ last) ↔ Decodes X [] fs) := by
      intro hStops hNotOk hLast
      have hNone : scanned X (fuel + 1) slice pos = [] := by
        rw [scanned]
        split
        · next hOk => exact absurd hOk (hNotOk _)
        · rfl
      rw [hNone]
      exact ⟨[], slice, rfl, trivial, hStops, hLast, rfl, rfl, by simp [Decodes]⟩
    rw [lastValid] at h
    split at h
    · next hEmpty =>
      obtain rfl := List.isEmpty_iff.mp hEmpty
      exact hStop (Or.inl rfl) (by simp) (Res.ok.inj h).symm
    cases hDecode : Record.decode X slice with
    | ok p =>
      obtain ⟨r, rest⟩ := p
      obtain ⟨f, rfl, rfl⟩ := exists_frame hDecode
      have hSize : (f.bytes ++ rest).length - rest.length = f.bytes.length := by simp
      rw [hDecode] at h
      simp only [hSize] at h
      have hPos := f.length_pos
      rw [List.length_append] at hFuel
      obtain ⟨fs, tail, rfl, hFrames, hStops, hLast, hRecords, hSizes, hEnds⟩ :=
        ih (show rest.length ≤ fuel by omega) h
      refine ⟨f :: fs, tail, by simp, ⟨hDecode, hFrames⟩, hStops, ?_, ?_, ?_, ?_⟩
      · rw [hLast, span_cons, Nat.add_assoc]
      · simp [scanned, hDecode, hRecords]
      · simp [scanned, hDecode, hSizes, sizes]
      · rw [scanned, hDecode]
        simp only [hSize, List.forall_mem_cons, hEnds]
        have hSpan : f.bytes.length + (flat fs).length = last - pos := by
          rw [hLast]
          change f.bytes.length + span fs = _
          omega
        have hLe : pos ≤ last := by omega
        rw [Decodes, List.append_nil]
        rcases decode_cut hDecode with ⟨hIn, hCut⟩ | ⟨hOut, needed, hCut⟩
        · rw [hCut]
          simp only [true_and, and_iff_right_iff_imp]
          intro _
          omega
        · rw [hCut]
          simp only [reduceCtorEq, false_and, iff_false, not_and]
          intro hBad
          omega
    | err e =>
      rw [hDecode] at h
      cases e with
      | truncated n =>
        exact hStop (Or.inr (Or.inl ⟨n, hDecode⟩)) (by simp [hDecode]) (Res.ok.inj h).symm
      | crcMismatch a b =>
        exact hStop (Or.inr (Or.inr (Or.inl ⟨a, b, hDecode⟩))) (by simp [hDecode])
          (Res.ok.inj h).symm
      | invalidLength n =>
        exact hStop (Or.inr (Or.inr (Or.inr ⟨n, hDecode⟩))) (by simp [hDecode])
          (Res.ok.inj h).symm
      | _ => cases h
    | panic m =>
      rw [hDecode] at h
      cases h
    | crash =>
      rw [hDecode] at h
      cases h

/-! ## The replay -/

theorem recordSizes_flat {fs : List LogFrame} (h : Decodes X [] fs) {fuel : Nat}
    (hFuel : fs.length ≤ fuel) : recordSizes X fuel (flat fs) = .ok (sizes fs) := by
  induction fs generalizing fuel with
  | nil => cases fuel <;> rfl
  | cons f fs ih =>
    obtain ⟨fuel, rfl⟩ : ∃ n, fuel = n + 1 := ⟨fuel - 1, by simp at hFuel; omega⟩
    have hNe : (flat (f :: fs)).isEmpty = false := by
      simp [f.nonempty]
    have hDecode := h.1
    rw [List.append_nil] at hDecode
    rw [recordSizes, hNe, flat_cons, hDecode]
    simp only [Bool.false_eq_true, if_false, Res.ok_bind]
    rw [ih h.2 (by simpa using hFuel)]
    simp [sizes]

/-- A replay that reaches the end has read the whole buffer as frames. -/
theorem recordSizes_ok {fuel : Nat} {slice : Bytes} {ns : List Nat} (hFuel : slice.length ≤ fuel)
    (h : recordSizes X fuel slice = .ok ns) :
    ∃ fs, Decodes X [] fs ∧ flat fs = slice ∧ sizes fs = ns := by
  induction fuel generalizing slice ns with
  | zero =>
    obtain rfl := List.eq_nil_of_length_eq_zero (Nat.le_zero.mp hFuel)
    obtain rfl := Res.ok.inj h
    exact ⟨[], trivial, rfl, rfl⟩
  | succ fuel ih =>
    rw [recordSizes] at h
    split at h
    · next hEmpty =>
      obtain rfl := List.isEmpty_iff.mp hEmpty
      obtain rfl := Res.ok.inj h
      exact ⟨[], trivial, rfl, rfl⟩
    obtain ⟨⟨r, rest⟩, hDecode, h₁⟩ := Res.bind_eq_ok.mp h
    obtain ⟨ms, hRest, h₂⟩ := Res.bind_eq_ok.mp h₁
    obtain ⟨f, rfl, rfl⟩ := exists_frame hDecode
    have hPos := f.length_pos
    rw [List.length_append] at hFuel
    obtain ⟨fs, hFrames, rfl, rfl⟩ := ih (by omega) hRest
    cases h₂
    refine ⟨f :: fs, ⟨?_, hFrames⟩, rfl, ?_⟩
    · rw [List.append_nil]
      exact hDecode
    · simp [sizes]

/-- Cut off from the rest, frames are replayed only if they decode on their own. -/
theorem decodes_of_recordSizes {fs : List LogFrame} {tail : Bytes} (hFrames : Decodes X tail fs)
    {fuel : Nat} (hFuel : fs.length ≤ fuel) {ns : List Nat}
    (h : recordSizes X fuel (flat fs) = .ok ns) : Decodes X [] fs := by
  induction fs generalizing fuel ns with
  | nil => trivial
  | cons f fs ih =>
    obtain ⟨fuel, rfl⟩ : ∃ n, fuel = n + 1 := ⟨fuel - 1, by simp at hFuel; omega⟩
    have hNe : (flat (f :: fs)).isEmpty = false := by
      simp [f.nonempty]
    rw [recordSizes, hNe, flat_cons] at h
    simp only [Bool.false_eq_true, if_false] at h
    obtain ⟨⟨r, rest⟩, hDecode, h₁⟩ := Res.bind_eq_ok.mp h
    obtain ⟨ms, hRest, -⟩ := Res.bind_eq_ok.mp h₁
    rcases decode_cut hFrames.1 with ⟨-, hCut⟩ | ⟨-, needed, hCut⟩
    · obtain ⟨-, rfl⟩ := Prod.mk.inj (Res.ok.inj (hCut.symm.trans hDecode))
      refine ⟨?_, ih hFrames.2 (by simpa using hFuel) hRest⟩
      rw [List.append_nil]
      exact hCut
    · rw [hCut] at hDecode
      cases hDecode

/-- The two passes agree exactly where every record the scan decodes ends, as its frame
announces, inside the bytes that are kept; they then see the same records. -/
theorem replay_iff_contained {bytes : Bytes} {last : Nat}
    (h : lastValid X bytes.length bytes 0 = .ok last) :
    (∃ ns, recordSizes X last (bytes.take last) = .ok ns) ↔ Contained X bytes last := by
  obtain ⟨fs, tail, hBytes, hFrames, -, hLast, -, -, hEnds⟩ := lastValid_ok (Nat.le_refl _) h
  rw [Nat.zero_add] at hLast
  have hTake : bytes.take last = flat fs := by
    rw [hBytes, hLast]
    exact List.take_left' rfl
  have hFuel : fs.length ≤ last := hLast ▸ length_le_span fs
  rw [hTake, Contained, hEnds]
  constructor
  · rintro ⟨ns, hReplay⟩
    exact decodes_of_recordSizes hFrames hFuel hReplay
  · intro hAlone
    exact ⟨_, recordSizes_flat hAlone hFuel⟩

/-- Frames that decode on their own are a stream of records. -/
theorem decodeEach_flat {fs : List LogFrame} (h : Decodes X [] fs) :
    Record.decodeEach X fs.length (flat fs) = .ok (fs.map Frame.record, []) := by
  induction fs with
  | nil => rfl
  | cons f fs ih =>
    have hDecode := h.1
    rw [List.append_nil] at hDecode
    rw [List.length_cons, Record.decodeEach, flat_cons, hDecode, Res.ok_bind]
    dsimp only
    rw [ih h.2, Res.ok_bind]
    rfl

end Log

end Kafko
