import Mathlib.Data.List.Basic
import Mathlib.Tactic.Common

/-!
# Streams of records of one width

`chunksExact` cuts a list into pieces of a fixed width, as `slice::chunks_exact` does; what is
left over at the end is the `remainder`. A list that grows at its end is cut where the remainder
of the old list begins (`chunksExact_append`): appended records keep their places only if nothing
was left over.
-/

namespace Disk

variable {α : Type} {k : Nat} {l : List α}

/-- The whole pieces of width `k`. -/
def chunksExact (k : Nat) (l : List α) : List (List α) :=
  (List.range (l.length / k)).map fun i => (l.drop (k * i)).take k

/-- What is behind the last whole piece. -/
def remainder (k : Nat) (l : List α) : List α := l.drop (k * (l.length / k))

theorem chunksExact_of_lt (h : l.length < k) : chunksExact k l = [] := by
  rw [chunksExact, Nat.div_eq_of_lt h]
  rfl

theorem remainder_of_lt (h : l.length < k) : remainder k l = l := by
  rw [remainder, Nat.div_eq_of_lt h]
  rfl

theorem div_eq_succ (hk : 0 < k) (h : k ≤ l.length) :
    l.length / k = (l.drop k).length / k + 1 := by
  rw [List.length_drop]
  exact Nat.div_eq_sub_div hk h

theorem chunksExact_of_le (hk : 0 < k) (h : k ≤ l.length) :
    chunksExact k l = l.take k :: chunksExact k (l.drop k) := by
  rw [chunksExact, div_eq_succ hk h, List.range_succ_eq_map, List.map_cons, List.map_map]
  congr 1
  apply List.map_congr_left
  intro i _
  show (l.drop (k * (i + 1))).take k = ((l.drop k).drop (k * i)).take k
  rw [List.drop_drop, Nat.mul_succ, Nat.add_comm]

theorem remainder_of_le (hk : 0 < k) (h : k ≤ l.length) :
    remainder k l = remainder k (l.drop k) := by
  rw [remainder, remainder, div_eq_succ hk h, List.drop_drop, Nat.mul_succ, Nat.add_comm]

theorem length_remainder_lt (hk : 0 < k) (l : List α) : (remainder k l).length < k := by
  rw [remainder, List.length_drop]
  have hMod := Nat.mod_lt l.length hk
  have hDiv := Nat.div_add_mod l.length k
  omega

/-- What is appended is cut together with the remainder. -/
theorem chunksExact_append (hk : 0 < k) (l more : List α) :
    chunksExact k (l ++ more) = chunksExact k l ++ chunksExact k (remainder k l ++ more) := by
  induction hLen : l.length using Nat.strongRecOn generalizing l with
  | ind n ih =>
    subst hLen
    by_cases hShort : l.length < k
    · rw [chunksExact_of_lt hShort, remainder_of_lt hShort]
      rfl
    · have hLong := Nat.le_of_not_lt hShort
      have hBoth : k ≤ (l ++ more).length := by
        rw [List.length_append]
        omega
      have hRest := ih (l.drop k).length (by rw [List.length_drop]; omega) (l.drop k) rfl
      rw [chunksExact_of_le hk hBoth, chunksExact_of_le hk hLong, remainder_of_le hk hLong,
        List.take_append_of_le_length hLong, List.drop_append_of_le_length hLong, hRest]
      rfl

theorem chunksExact_eq_nil_iff (hk : 0 < k) : chunksExact k l = [] ↔ l.length < k := by
  constructor
  · intro h
    by_contra hLong
    rw [chunksExact_of_le hk (Nat.le_of_not_lt hLong)] at h
    cases h
  · exact chunksExact_of_lt

/-- Less than two widths hold one piece. -/
theorem chunksExact_eq_singleton (h : k ≤ l.length) (hLess : l.length < 2 * k) :
    chunksExact k l = [l.take k] := by
  have hRest : (l.drop k).length < k := by
    rw [List.length_drop]
    omega
  rw [chunksExact_of_le (by omega) h, chunksExact_of_lt hRest]

end Disk
