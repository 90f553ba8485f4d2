import Kafko.Disk.Bytes
import Mathlib.Data.List.Infix

/-!
# Streams of frames

A frame is a nonempty byte string with the value it stands for. `flat` writes frames one
after the other, `span` is the size of the result. A prefix of a stream consists of whole
frames and a strict prefix of the next one (`exists_torn`), which is what a crash leaves of
a file that frames were appended to.
-/

namespace Disk

structure Frame (ρ : Type) where
  record : ρ
  bytes : Bytes
  nonempty : bytes ≠ []

variable {ρ : Type}

def flat (fs : List (Frame ρ)) : Bytes := fs.flatMap Frame.bytes

def span (fs : List (Frame ρ)) : Nat := (flat fs).length

/-- The sizes of the frames of a stream. -/
def sizes (fs : List (Frame ρ)) : List Nat := fs.map fun f => f.bytes.length

@[simp] theorem flat_nil : flat ([] : List (Frame ρ)) = [] := rfl

@[simp] theorem flat_cons (f : Frame ρ) (fs : List (Frame ρ)) :
    flat (f :: fs) = f.bytes ++ flat fs := rfl

@[simp] theorem flat_append (fs gs : List (Frame ρ)) : flat (fs ++ gs) = flat fs ++ flat gs := by
  simp [flat]

@[simp] theorem span_nil : span ([] : List (Frame ρ)) = 0 := rfl

@[simp] theorem span_cons (f : Frame ρ) (fs : List (Frame ρ)) :
    span (f :: fs) = f.bytes.length + span fs := by
  simp [span]

@[simp] theorem span_append (fs gs : List (Frame ρ)) : span (fs ++ gs) = span fs + span gs := by
  simp [span]

theorem Frame.length_pos (f : Frame ρ) : 0 < f.bytes.length := List.length_pos_of_ne_nil f.nonempty

theorem length_le_span (fs : List (Frame ρ)) : fs.length ≤ span fs := by
  induction fs with
  | nil => simp
  | cons f fs ih =>
    have := f.length_pos
    simp only [List.length_cons, span_cons]
    omega

theorem span_eq_zero {fs : List (Frame ρ)} : span fs = 0 ↔ fs = [] := by
  constructor
  · intro h
    have := length_le_span fs
    exact List.eq_nil_of_length_eq_zero (by omega)
  · rintro rfl
    rfl

theorem flat_take_append_drop (fs : List (Frame ρ)) (n : Nat) :
    flat (fs.take n) ++ flat (fs.drop n) = flat fs := by
  rw [← flat_append, List.take_append_drop]

theorem span_take_add_drop (fs : List (Frame ρ)) (n : Nat) :
    span (fs.take n) + span (fs.drop n) = span fs := by
  rw [← span_append, List.take_append_drop]

theorem span_take_le (fs : List (Frame ρ)) (n : Nat) : span (fs.take n) ≤ span fs := by
  have := span_take_add_drop fs n
  omega

theorem drop_span_take (fs : List (Frame ρ)) (n : Nat) :
    (flat fs).drop (span (fs.take n)) = flat (fs.drop n) := by
  rw [← flat_take_append_drop fs n]
  simp [span]

/-- Positions of frames grow with their number. -/
theorem span_take_mono (fs : List (Frame ρ)) {m n : Nat} (h : m ≤ n) :
    span (fs.take m) ≤ span (fs.take n) := by
  have := span_take_le (fs.take n) m
  rwa [List.take_take, Nat.min_eq_left h] at this

theorem span_take_append {fs : List (Frame ρ)} {n : Nat} (h : n ≤ fs.length)
    (gs : List (Frame ρ)) : span ((fs ++ gs).take n) = span (fs.take n) := by
  rw [List.take_append_of_le_length h]

/-- A prefix of a stream is some whole frames followed by a torn one: a strict prefix of
the next frame, or nothing at the end of the stream. -/
theorem exists_torn {fs : List (Frame ρ)} {bytes : Bytes} (h : bytes <+: flat fs) :
    ∃ k torn, k ≤ fs.length ∧ bytes = flat (fs.take k) ++ torn ∧
      ((k = fs.length ∧ torn = []) ∨
        ∃ f, fs[k]? = some f ∧ ∃ n, n < f.bytes.length ∧ torn = f.bytes.take n) := by
  induction fs generalizing bytes with
  | nil =>
    have hNil : bytes = [] := by simpa using h
    exact ⟨0, [], by simp, by simp [hNil], Or.inl ⟨rfl, rfl⟩⟩
  | cons f fs ih =>
    by_cases hLen : bytes.length < f.bytes.length
    · -- the stream is torn inside its first frame
      have hTake : bytes = f.bytes.take bytes.length := by
        rw [List.prefix_iff_eq_take, flat_cons, List.take_append_of_le_length hLen.le] at h
        exact h
      exact ⟨0, bytes, by simp, by simp,
        Or.inr ⟨f, by simp, bytes.length, hLen, hTake⟩⟩
    · have hSplit : bytes = f.bytes ++ bytes.drop f.bytes.length := by
        have hFront : f.bytes <+: bytes :=
          List.prefix_of_prefix_length_le (List.prefix_append _ _) h (by omega)
        obtain ⟨rest, rfl⟩ := hFront
        simp
      have hRest : bytes.drop f.bytes.length <+: flat fs := by
        have h' := h
        rw [hSplit, flat_cons] at h'
        exact (List.prefix_append_right_inj _).mp h'
      obtain ⟨k, torn, hk, hBytes, hTorn⟩ := ih hRest
      refine ⟨k + 1, torn, by simpa using hk, ?_, ?_⟩
      · rw [hSplit, hBytes]
        simp
      · rcases hTorn with ⟨hEnd, hNil⟩ | ⟨g, hg, hn⟩
        · exact Or.inl ⟨by simp [hEnd], hNil⟩
        · exact Or.inr ⟨g, by simpa using hg, hn⟩

end Disk
