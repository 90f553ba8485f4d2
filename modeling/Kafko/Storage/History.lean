import Kafko.Storage.OpenSpec

/-!
# The append-only list behind a log

What a partition is for, without files: a list of records that only grows, a record's
offset being its position, and a moving lower end below which records are retired. The
second half ties it to layouts and names the conditions on records under which frames can
be read back.
-/

namespace Kafko

open Disk

/-- Every record ever appended, and the offset below which they are retired. -/
structure History (ρ : Type) where
  records : List ρ
  oldest : Nat

namespace History

variable {ρ : Type}

def empty : History ρ := ⟨[], 0⟩

def next (h : History ρ) : Nat := h.records.length

/-- The record at an offset, if it was appended and is not retired. -/
def get (h : History ρ) (offset : Nat) : Option ρ :=
  if h.oldest ≤ offset then h.records[offset]? else none

def append (h : History ρ) (rs : List ρ) : History ρ := { h with records := h.records ++ rs }

def retire (h : History ρ) (oldest : Nat) : History ρ := { h with oldest := oldest }

def truncate (h : History ρ) (n : Nat) : History ρ := { h with records := h.records.take n }

@[simp] theorem next_append (h : History ρ) (rs : List ρ) :
    (h.append rs).next = h.next + rs.length := by
  simp [next, append]

theorem get_eq (h : History ρ) (offset : Nat) :
    h.get offset = if h.oldest ≤ offset ∧ offset < h.next then h.records[offset]? else none := by
  unfold get
  by_cases hOld : h.oldest ≤ offset
  · by_cases hNew : offset < h.next
    · rw [if_pos hOld, if_pos ⟨hOld, hNew⟩]
    · rw [if_pos hOld, if_neg fun hBoth => hNew hBoth.2]
      exact List.getElem?_eq_none (Nat.le_of_not_lt hNew)
  · rw [if_neg hOld, if_neg fun hBoth => hOld hBoth.1]

end History

/-! ## Layouts -/

/-- The layout holds what is left of the history. -/
structure Represents (L : Layout) (h : History Record) : Prop where
  oldest : L.oldest = h.oldest
  next : L.next = h.next
  records : L.frames.map Frame.record = h.records.drop h.oldest

namespace Represents

variable {L : Layout} {h : History Record}

theorem recordAt (hRep : Represents L h) (offset : Nat) : L.recordAt offset = h.get offset := by
  unfold Layout.recordAt History.get
  rw [hRep.oldest]
  by_cases hOld : h.oldest ≤ offset
  · rw [if_pos hOld, if_pos hOld, ← List.getElem?_map, hRep.records, List.getElem?_drop]
    congr 1
    omega
  · rw [if_neg hOld, if_neg hOld]

theorem oldest_le (hRep : Represents L h) (hChain : Chain L.oldest L.chunks L.active.base) :
    h.oldest ≤ h.next := by
  have := Layout.length_frames hChain
  rw [← hRep.oldest, ← hRep.next]
  omega

theorem step (hRep : Represents L h) (hOldest : h.oldest ≤ h.next) (rotates : Bool)
    (fs : List LogFrame) :
    Represents (L.step rotates fs) (h.append (fs.map Frame.record)) := by
  refine ⟨?_, ?_, ?_⟩
  · rw [Layout.oldest_step]
    exact hRep.oldest
  · rw [Layout.next_step, History.next_append, hRep.next, List.length_map]
  · rw [Layout.frames_step, List.map_append, hRep.records]
    exact (List.drop_append_of_le_length hOldest).symm

theorem rotate (hRep : Represents L h) : Represents L.rotate h := by
  refine ⟨hRep.oldest, ?_, ?_⟩
  · rw [Layout.next_rotate, hRep.next]
  · rw [Layout.frames_rotate, hRep.records]

theorem synced (hRep : Represents L h) : Represents L.synced h :=
  ⟨hRep.oldest, hRep.next, hRep.records⟩

theorem retire (hRep : Represents L h) (hChain : Chain L.oldest L.chunks L.active.base) (n : Nat) :
    Represents (L.retire n) (h.retire (L.retire n).oldest) := by
  obtain ⟨hLe, hFrames⟩ := Layout.frames_retire hChain n
  refine ⟨rfl, ?_, ?_⟩
  · rw [Layout.next_retire]
    exact hRep.next
  · rw [hFrames, List.map_drop, hRep.records, List.drop_drop]
    rw [hRep.oldest] at hLe ⊢
    simp only [History.retire]
    congr 1
    omega

theorem cutTo (hRep : Represents L h) (hChain : Chain L.oldest L.chunks L.active.base) {k : Nat}
    (hk : k ≤ L.active.frames.length) :
    Represents (L.cutTo k) (h.truncate (L.active.base + k)) := by
  have hLen := hChain.length_frames
  have hNext : L.active.base + L.active.frames.length = h.records.length := hRep.next
  refine ⟨hRep.oldest, ?_, ?_⟩
  · rw [Layout.next_cutTo hk]
    simp only [History.next, History.truncate, List.length_take]
    omega
  · have hTake : (L.cutTo k).frames = L.frames.take (L.active.base + k - h.oldest) := by
      have hFrames : L.frames = L.chunks.flatMap Chunk.frames ++ L.active.frames := rfl
      rw [← hRep.oldest, hFrames, List.take_append]
      have hAll : L.active.base + k - L.oldest = (L.chunks.flatMap Chunk.frames).length + k := by
        omega
      rw [hAll, List.take_of_length_le (Nat.le_add_right _ _), Nat.add_sub_cancel_left]
      rfl
    rw [hTake, List.map_take, hRep.records]
    simp only [History.truncate]
    rw [List.drop_take]

end Represents

/-! ## Records that come back -/

namespace Record

/-- The size of the frame `append` writes for a record. -/
def encodedSize (X : Crates) (c : Compression) (r : Record) : Nat :=
  match r.wire X c with
  | .ok bytes => bytes.length
  | _ => 0

/-- The record encodes in fewer than `2 ^ 32` bytes and its value is not too large for the
decompressor. -/
def Storable (X : Crates) (c : Compression) (r : Record) : Prop :=
  r.encodedSize X c < 2 ^ 32 ∧ c.Fits r.value

instance (X : Crates) (c : Compression) (r : Record) : Decidable (r.Storable X c) :=
  inferInstanceAs (Decidable (_ ∧ _))

end Record

theorem whole_of_wire {X : Crates} (hX : X.Lawful) {c : Compression} {f : LogFrame}
    (hWire : f.record.wire X c = .ok f.bytes) (hStorable : f.record.Storable X c) :
    Whole X f := by
  obtain ⟨hLen, hFits⟩ := hStorable
  rw [Record.encodedSize, hWire] at hLen
  dsimp only at hLen
  exact ⟨Record.decode_wire hX hWire hFits (by omega), fun n hn =>
    Record.decode_strict_prefix hWire (by omega) hn⟩

theorem whole_framesOf {X : Crates} (hX : X.Lawful) {c : Compression} {rs : List Record}
    (hStorable : ∀ r ∈ rs, r.Storable X c) : ∀ f ∈ framesOf X c rs, Whole X f := by
  intro f hf
  obtain ⟨hMem, hWire⟩ := mem_framesOf hf
  exact whole_of_wire hX hWire (hStorable _ hMem)

/-- Every frame can be read back and the active ones start below `2 ^ 32`. -/
structure Sound (X : Crates) (L : Layout) : Prop where
  whole : ∀ f ∈ L.frames, Whole X f
  positions : PositionsOk 0 L.active.frames

theorem PositionsOk.append {start : Nat} {fs gs : List LogFrame} (h : PositionsOk start fs)
    (h' : PositionsOk (start + span fs) gs) : PositionsOk start (fs ++ gs) := by
  intro i hi
  by_cases hLt : i < fs.length
  · rw [List.take_append_of_le_length hLt.le]
    exact h i hLt
  · have := h' (i - fs.length) (by rw [List.length_append] at hi; omega)
    rw [List.take_append, List.take_of_length_le (by omega), span_append]
    omega

theorem PositionsOk.take {start : Nat} {fs : List LogFrame} (h : PositionsOk start fs) (n : Nat) :
    PositionsOk start (fs.take n) := by
  intro i hi
  rw [List.length_take] at hi
  have := h i (by omega)
  rw [List.take_take, Nat.min_eq_left (by omega)]
  exact this

namespace Sound

variable {X : Crates} {L : Layout}

theorem readable (h : Sound X L) : ∀ f ∈ L.frames, Readable X f :=
  fun f hf => (h.whole f hf).readable

theorem initial (X : Crates) : Sound X Layout.initial := by
  refine ⟨fun f hf => ?_, fun i hi => ?_⟩
  · simp [Layout.initial, Layout.frames] at hf
  · simp [Layout.initial] at hi

theorem rotate (h : Sound X L) : Sound X L.rotate := by
  refine ⟨?_, fun i hi => ?_⟩
  · rw [Layout.frames_rotate]
    exact h.whole
  · simp [Layout.rotate] at hi

theorem target (h : Sound X L) (rotates : Bool) : Sound X (L.target rotates) := by
  cases rotates with
  | false => exact h
  | true => exact h.rotate

theorem step (h : Sound X L) {rotates : Bool} {fs : List LogFrame} (hWhole : ∀ f ∈ fs, Whole X f)
    (hPos : PositionsOk (span (L.target rotates).active.frames) fs) :
    Sound X (L.step rotates fs) := by
  refine ⟨?_, ?_⟩
  · rw [Layout.frames_step]
    intro f hf
    rcases List.mem_append.mp hf with hf | hf
    · exact h.whole f hf
    · exact hWhole f hf
  · apply (h.target rotates).positions.append
    rwa [Nat.zero_add]

theorem synced (h : Sound X L) : Sound X L.synced := ⟨h.whole, h.positions⟩

theorem retire (h : Sound X L) (hChain : Chain L.oldest L.chunks L.active.base) (n : Nat) :
    Sound X (L.retire n) := by
  refine ⟨?_, ?_⟩
  · rw [(Layout.frames_retire hChain n).2]
    exact fun f hf => h.whole f (List.mem_of_mem_drop hf)
  · rw [Layout.active_retire]
    exact h.positions

theorem cutTo (h : Sound X L) (k : Nat) : Sound X (L.cutTo k) := by
  refine ⟨?_, h.positions.take k⟩
  intro f hf
  apply h.whole f
  rcases List.mem_append.mp hf with hf | hf
  · exact List.mem_append_left _ hf
  · exact List.mem_append_right _ (List.mem_of_mem_take hf)

end Sound

end Kafko
