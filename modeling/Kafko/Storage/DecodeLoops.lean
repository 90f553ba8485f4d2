import Kafko.Disk.Loops
import Kafko.Storage.Log
import Kafko.Wire.Progress

/-!
# The decode loops end

Recovery and reading go through a file with `while !slice.is_empty()` loops around the decoder:
`scanWhile`, `replayWhile` and `findWhile` are these loops as the source has them, with nothing
to bound them. The model's `lastValid`, `replayLoop` and `findRecord` are the same loops cut off
at the length of the slice. A turn takes at least `25` bytes off the slice or is the last one, so
the loops end on every file content and the cut is never felt (`decode_loops_terminate`).
-/

namespace Kafko

open Disk

namespace Log

variable {X : Crates}

/-! ## The loops as the source has them -/

/-- One turn of the loop of `scan_for_last_valid_position`: `inr` is its `break`. -/
def scanTurn (X : Crates) (v : Bytes × Nat) : Res KafkoError ((Bytes × Nat) ⊕ Nat) :=
  match Record.decode X v.1 with
  | .ok (_, rest) => .ok (.inl (rest, v.2 + (v.1.length - rest.length)))
  | .err (.truncated _) => .ok (.inr v.2)
  | .err (.crcMismatch _ _) => .ok (.inr v.2)
  | .err (.invalidLength _) => .ok (.inr v.2)
  | .err e => .err e
  | .panic m => .panic m
  | .crash => .crash

/-- That loop, over the slice and the last valid position. -/
def scanWhile (X : Crates) : While FileName KafkoError Segment (Bytes × Nat) Nat where
  cond v := !v.1.isEmpty
  body v := Fx.lift (scanTurn X v)
  after v := v.2

/-- The loop of `replay_records_to_index` over the slice, the file position and the count. -/
def replayWhile (X : Crates) (base : Nat) :
    While FileName KafkoError SparseIndex (Bytes × Nat × Nat) Nat where
  cond v := !v.1.isEmpty
  body v := do
    let (slice, filePos, count) := v
    let (_, rest) ← Fx.lift (Record.decode X slice)
    let consumed := slice.length - rest.length
    SparseIndex.trackAppend (base + count) filePos consumed
    pure (.inl (rest, filePos + consumed, count + 1))
  after v := v.2.2

/-- One turn of the loop of `read_record_at`: `inr` is a `return`. -/
def findTurn (X : Crates) (offset : Nat) (v : Bytes × Nat) :
    Res KafkoError ((Bytes × Nat) ⊕ Option Record) :=
  match Record.decode X v.1 with
  | .ok (record, rest) =>
    if v.2 = offset then .ok (.inr (some record)) else .ok (.inl (rest, v.2 + 1))
  | .err (.truncated _) => .ok (.inr none)
  | .err e => .err e
  | .panic m => .panic m
  | .crash => .crash

/-- That loop, over the slice and the current offset. -/
def findWhile (X : Crates) (offset : Nat) :
    While FileName KafkoError IndexedSegment (Bytes × Nat) (Option Record) where
  cond v := !v.1.isEmpty
  body v := Fx.lift (findTurn X offset v)
  after _ := none

/-! ## The model's loops are these, cut off -/

theorem scanWhile_run (fuel : Nat) (slice : Bytes) (pos : Nat) :
    (scanWhile X).run fuel (slice, pos) = Fx.lift (lastValid X fuel slice pos) := by
  induction fuel generalizing slice pos with
  | zero => rfl
  | succ fuel ih =>
    funext env s w
    cases hEmpty : slice.isEmpty with
    | true =>
      rw [While.run_of_cond_false (by simp [scanWhile, hEmpty]), lastValid, hEmpty]
      rfl
    | false =>
      rw [While.run_succ (by simp [scanWhile, hEmpty]), lastValid, hEmpty]
      show Fx.bind _ _ env s w = Fx.lift _ env s w
      unfold Fx.bind scanWhile scanTurn
      dsimp only
      cases Record.decode X slice with
      | ok p => exact congrFun (congrFun (congrFun (ih p.2 _) env) s) w
      | err e => cases e <;> rfl
      | panic m => rfl
      | crash => rfl

theorem findWhile_run (offset fuel : Nat) (slice : Bytes) (current : Nat) :
    (findWhile X offset).run fuel (slice, current) =
      Fx.lift (findRecord X offset fuel slice current) := by
  induction fuel generalizing slice current with
  | zero => rfl
  | succ fuel ih =>
    funext env s w
    cases hEmpty : slice.isEmpty with
    | true =>
      rw [While.run_of_cond_false (by simp [findWhile, hEmpty]), findRecord, hEmpty]
      rfl
    | false =>
      rw [While.run_succ (by simp [findWhile, hEmpty]), findRecord, hEmpty]
      show Fx.bind _ _ env s w = Fx.lift _ env s w
      unfold Fx.bind findWhile findTurn
      dsimp only
      cases Record.decode X slice with
      | ok p =>
        by_cases hHere : current = offset
        · simp only [hHere, if_true]
          rfl
        · simp only [if_neg hHere]
          exact congrFun (congrFun (congrFun (ih p.2 _) env) s) w
      | err e => cases e <;> rfl
      | panic m => rfl
      | crash => rfl

theorem replayWhile_run (base fuel : Nat) (slice : Bytes) (filePos count : Nat) :
    (replayWhile X base).run fuel (slice, filePos, count) =
      replayLoop X base fuel slice filePos count := by
  induction fuel generalizing slice filePos count with
  | zero => rfl
  | succ fuel ih =>
    funext env s w
    cases hEmpty : slice.isEmpty with
    | true =>
      rw [While.run_of_cond_false (by simp [replayWhile, hEmpty]), replayLoop, hEmpty]
      rfl
    | false =>
      rw [While.run_succ (by simp [replayWhile, hEmpty]), replayLoop, hEmpty]
      simp only [Bool.false_eq_true, if_false, replayWhile, Fx.bind_assoc, ← ih]
      rfl

/-! ## Every turn makes progress -/

/-- What is left of a slice after a record was decoded. -/
theorem decode_shortens {slice rest : Bytes} {r : Record}
    (h : Record.decode X slice = .ok (r, rest)) : rest.length + 25 ≤ slice.length := by
  obtain ⟨front, rfl, hLong⟩ := Record.decode_consumes h
  rw [List.length_append]
  omega

theorem length_pos_of_not_isEmpty {slice : Bytes} (h : (!slice.isEmpty) = true) :
    0 < slice.length := by
  apply List.length_pos_of_ne_nil
  intro hNil
  rw [hNil] at h
  cases h

theorem scanTurn_progress {v v' : Bytes × Nat} (h : scanTurn X v = .ok (.inl v')) :
    v'.1.length + 25 ≤ v.1.length := by
  unfold scanTurn at h
  cases hDecode : Record.decode X v.1 with
  | ok p =>
    rw [hDecode] at h
    cases h
    exact decode_shortens hDecode
  | err e =>
    rw [hDecode] at h
    cases e <;> cases h
  | panic m =>
    rw [hDecode] at h
    cases h
  | crash =>
    rw [hDecode] at h
    cases h

theorem findTurn_progress {offset : Nat} {v v' : Bytes × Nat}
    (h : findTurn X offset v = .ok (.inl v')) : v'.1.length + 25 ≤ v.1.length := by
  unfold findTurn at h
  cases hDecode : Record.decode X v.1 with
  | ok p =>
    rw [hDecode] at h
    by_cases hHere : v.2 = offset
    · simp only [if_pos hHere] at h
      cases h
    · simp only [if_neg hHere] at h
      cases h
      exact decode_shortens hDecode
  | err e =>
    rw [hDecode] at h
    cases e <;> cases h
  | panic m =>
    rw [hDecode] at h
    cases h
  | crash =>
    rw [hDecode] at h
    cases h

theorem replayWhile_progress {env : Env FileName} {base : Nat} {v v' : Bytes × Nat × Nat}
    {x x' : SparseIndex} {w w' : World FileName}
    (h : (replayWhile X base).body v env x w = (.ok (.inl v'), x', w')) :
    v'.1.length + 25 ≤ v.1.length := by
  obtain ⟨⟨r, rest⟩, x₁, w₁, hLift, hTrack⟩ := Fx.bind_eq_ok h
  obtain ⟨_, x₂, w₂, -, hPure⟩ := Fx.bind_eq_ok hTrack
  have hDecode : Record.decode X v.1 = .ok (r, rest) := congrArg Prod.fst hLift
  cases hPure
  exact decode_shortens hDecode

/-! ## They end -/

/-- A loop that goes through a slice ends after few turns, and `out` is what it ends with. -/
def EndsWithin {σ γ α : Type} (l : While FileName KafkoError σ (Bytes × γ) α)
    (env : Env FileName) (v : Bytes × γ) (s : σ) (w : World FileName)
    (out : Res KafkoError α × σ × World FileName) : Prop :=
  ∃ n, l.Ends env n v s w out ∧ 25 * n < v.1.length + 25

/-- A loop that is at least `25` bytes further after every turn ends, and as its version does
that is cut off at the length of the slice. -/
theorem endsWithin_of_progress {σ γ α : Type} {l : While FileName KafkoError σ (Bytes × γ) α}
    (hCond : ∀ v, l.cond v = !v.1.isEmpty)
    (hProgress : ∀ v env s w v' s' w', l.body v env s w = (.ok (.inl v'), s', w') →
      v'.1.length + 25 ≤ v.1.length)
    (env : Env FileName) (v : Bytes × γ) (s : σ) (w : World FileName) :
    EndsWithin l env v s w (l.run v.1.length v env s w) := by
  have hPositive : ∀ v, l.cond v = true → 0 < v.1.length := by
    intro v hv
    rw [hCond] at hv
    exact length_pos_of_not_isEmpty hv
  have hTurn : ∀ v env s w v' s' w', l.cond v = true →
      l.body v env s w = (.ok (.inl v'), s', w') → v'.1.length + 25 ≤ v.1.length := by
    intro v env s w v' s' w' _ h
    exact hProgress v env s w v' s' w' h
  obtain ⟨n, out, hEnds, hBound⟩ := While.ends_of_progress (fun v : Bytes × γ => v.1.length)
    (by decide : 0 < 25) hPositive hTurn env v s w
  rw [hEnds.run_eq (by omega)]
  exact ⟨n, hEnds, hBound⟩

/-- The decoder returns on every byte string, never reading behind its end, and takes between
`25` bytes and all of them if it succeeds. So the three decode loops end on every file content,
from whatever values of their variables, and with what the cut-off loops of the model compute. -/
theorem decode_loops_terminate (X : Crates) :
    (∀ buf, (∃ e, Record.decode X buf = .err e) ∨ ∃ r front rest,
      Record.decode X buf = .ok (r, rest) ∧ buf = front ++ rest ∧ 25 ≤ front.length) ∧
    (∀ env slice pos s w, EndsWithin (scanWhile X) env (slice, pos) s w
      (lastValid X slice.length slice pos, s, w)) ∧
    (∀ base env slice filePos count x w, EndsWithin (replayWhile X base) env
      (slice, filePos, count) x w (replayLoop X base slice.length slice filePos count env x w)) ∧
    ∀ offset env slice current p w, EndsWithin (findWhile X offset) env (slice, current) p w
      (findRecord X offset slice.length slice current, p, w) := by
  refine ⟨Record.decode_cases X, ?_, ?_, ?_⟩
  · intro env slice pos s w
    have hEnds := endsWithin_of_progress (l := scanWhile X) (fun _ => rfl)
      (fun _ _ _ _ _ _ _ h => scanTurn_progress (congrArg Prod.fst h)) env (slice, pos) s w
    rw [scanWhile_run] at hEnds
    exact hEnds
  · intro base env slice filePos count x w
    have hEnds := endsWithin_of_progress (l := replayWhile X base) (fun _ => rfl)
      (fun _ _ _ _ _ _ _ h => replayWhile_progress h) env (slice, filePos, count) x w
    rw [replayWhile_run] at hEnds
    exact hEnds
  · intro offset env slice current p w
    have hEnds := endsWithin_of_progress (l := findWhile X offset) (fun _ => rfl)
      (fun _ _ _ _ _ _ _ h => findTurn_progress (congrArg Prod.fst h)) env (slice, current) p w
    rw [findWhile_run] at hEnds
    exact hEnds

end Log

end Kafko
