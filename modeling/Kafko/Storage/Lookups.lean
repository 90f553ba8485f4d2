import Kafko.Storage.SegmentSpec
import Kafko.Storage.LayoutFacts

/-!
# What the sparse index answers

An index that was told of records one behind the other holds an entry for the first record and
for each record at which the bytes since the last entry have reached the interval. The invariant
`Covers` speaks about all records told so far: no record is an interval or more behind the closest
entry at or before it. A lookup finds the closest entry, for targets on either side of the records
too, since a relative offset beyond `u32` is cut down to a value no entry exceeds.
-/

namespace Kafko

open Disk

namespace SparseIndex

variable {σ : Type}

/-- Tracks records that lie one behind the other. -/
def trackContiguous : List Nat → Nat → Nat → LogIO SparseIndex Unit
  | [], _, _ => pure ()
  | size :: sizes, offset, filePosition => do
    trackAppend offset filePosition size
    trackContiguous sizes (offset + 1) (filePosition + size)

/-- A new index that is told of records of the given sizes. -/
def createTracked (base interval : Nat) (sizes : List Nat) : LogIO σ SparseIndex := do
  let x ← create base interval
  let (_, x) ← Fx.withLocal x (trackContiguous sizes base 0)
  pure x

/-- What is to be known about an index over records of the given sizes. -/
structure LooksUp (base interval : Nat) (sizes : List Nat) (x : SparseIndex) : Prop where
  ascending : x.entries.Pairwise fun a b =>
    a.relativeOffset < b.relativeOffset ∧ a.filePosition < b.filePosition
  first : sizes ≠ [] → x.entries.head? = some ⟨0, 0⟩
  outside : ∀ target, target < base ∨ x.entries = [] → x.lookup target = (0, base)
  greatest : ∀ target, base ≤ target → x.entries ≠ [] → ∃ e ∈ x.entries,
    base + e.relativeOffset ≤ target ∧
    (∀ e' ∈ x.entries, base + e'.relativeOffset ≤ target →
      e'.relativeOffset ≤ e.relativeOffset) ∧
    e.relativeOffset < sizes.length ∧
    x.lookup target = ((sizes.take e.relativeOffset).sum, base + e.relativeOffset)
  dense : ∀ i, i < sizes.length → ∃ k, k ≤ i ∧
    x.lookup (base + i) = ((sizes.take k).sum, base + k) ∧
    (k = i ∨ ((sizes.take i).drop k).sum < interval)

/-! ## The records told so far -/

/-- The index has been told of records of the sizes `done`. -/
structure Covers (base interval : Nat) (done : List Nat) (x : SparseIndex) : Prop where
  based : x.baseOffset = base
  spaced : x.interval = interval
  sorted : x.entries.Pairwise fun a b => a.relativeOffset < b.relativeOffset
  exact : ∀ e ∈ x.entries, e.relativeOffset < done.length ∧
    e.filePosition = (done.take e.relativeOffset).sum
  first : done ≠ [] → x.entries.head? = some ⟨0, 0⟩
  since : ∀ e, x.entries.getLast? = some e →
    x.bytesSinceLastEntry = (done.drop e.relativeOffset).sum
  near : ∀ i, i < done.length → ∃ e ∈ x.entries, e.relativeOffset ≤ i ∧
    (e.relativeOffset = i ∨ ((done.take i).drop e.relativeOffset).sum < interval)

variable {base interval : Nat} {done sizes : List Nat} {x : SparseIndex}

theorem covers_nil (base interval : Nat) : Covers base interval [] ⟨base, [], 0, interval⟩ where
  based := rfl
  spaced := rfl
  sorted := List.Pairwise.nil
  exact := by simp
  first := fun h => absurd rfl h
  since := by simp
  near := by simp

/-- The records behind those told so far do not change what was true of them. -/
theorem Covers.near_append (h : Covers base interval done x) (size : Nat) {i : Nat}
    (hi : i < done.length) : ∃ e ∈ x.entries, e.relativeOffset ≤ i ∧
      (e.relativeOffset = i ∨
        (((done ++ [size]).take i).drop e.relativeOffset).sum < interval) := by
  rw [List.take_append_of_le_length hi.le]
  exact h.near i hi

theorem Covers.exact_append (h : Covers base interval done x) (size : Nat) {e : IndexEntry}
    (he : e ∈ x.entries) : e.relativeOffset < (done ++ [size]).length ∧
      e.filePosition = ((done ++ [size]).take e.relativeOffset).sum := by
  obtain ⟨hLt, hPos⟩ := h.exact e he
  rw [List.take_append_of_le_length hLt.le, List.length_append]
  exact ⟨by omega, hPos⟩

/-- A record that gets an entry. -/
theorem Covers.entry (h : Covers base interval done x) (size : Nat) :
    Covers base interval (done ++ [size])
      { x with entries := x.entries ++ [⟨done.length, done.sum⟩], bytesSinceLastEntry := size } where
  based := h.based
  spaced := h.spaced
  sorted := by
    apply List.pairwise_append.mpr
    refine ⟨h.sorted, List.pairwise_singleton _ _, ?_⟩
    intro a ha b hb
    rw [List.mem_singleton.mp hb]
    exact (h.exact a ha).1
  exact := by
    intro e he
    rcases List.mem_append.mp he with hOld | hNew
    · exact h.exact_append size hOld
    · rw [List.mem_singleton.mp hNew]
      simp
  first := by
    intro _
    by_cases hEmpty : done = []
    · subst hEmpty
      have hNone : x.entries = [] := by
        rw [List.eq_nil_iff_forall_not_mem]
        intro e he
        exact Nat.not_lt_zero _ (h.exact e he).1
      dsimp only
      rw [hNone]
      rfl
    · dsimp only
      rw [List.head?_append, h.first hEmpty]
      rfl
  since := by
    intro e he
    dsimp only at he
    rw [List.getLast?_concat] at he
    cases he
    simp
  near := by
    intro i hi
    by_cases hOld : i < done.length
    · obtain ⟨e, he, hNear⟩ := h.near_append size hOld
      exact ⟨e, List.mem_append_left _ he, hNear⟩
    · rw [List.length_append, List.length_singleton] at hi
      have hEq : done.length = i := by omega
      exact ⟨_, List.mem_append_right _ (List.mem_singleton.mpr rfl), hEq.le, Or.inl hEq⟩

/-- A record that gets none, because fewer bytes than the interval have passed. -/
theorem Covers.skip (h : Covers base interval done x) (size : Nat) {last : IndexEntry}
    (hLast : x.entries.getLast? = some last) (hFew : x.bytesSinceLastEntry < interval) :
    Covers base interval (done ++ [size])
      { x with bytesSinceLastEntry := x.bytesSinceLastEntry + size } where
  based := h.based
  spaced := h.spaced
  sorted := h.sorted
  exact := fun e he => h.exact_append size he
  first := by
    intro _
    apply h.first
    rintro rfl
    exact Nat.not_lt_zero _ (h.exact last (List.mem_of_getLast? hLast)).1
  since := by
    intro e he
    have hLt := (h.exact e (List.mem_of_getLast? he)).1
    rw [List.drop_append_of_le_length hLt.le, List.sum_append, h.since e he]
    simp
  near := by
    intro i hi
    by_cases hOld : i < done.length
    · exact h.near_append size hOld
    · rw [List.length_append, List.length_singleton] at hi
      obtain rfl : i = done.length := by omega
      have hMem := List.mem_of_getLast? hLast
      refine ⟨last, hMem, (h.exact last hMem).1.le, Or.inr ?_⟩
      rw [List.take_left, ← h.since last hLast]
      exact hFew

theorem Covers.track (h : Covers base interval done x) (size : Nat) :
    Covers base interval (done ++ [size]) (x.track (base + done.length) done.sum size) := by
  unfold SparseIndex.track
  split
  · have hRel : base + done.length - x.baseOffset = done.length := by
      rw [h.based, Nat.add_sub_cancel_left]
    rw [hRel]
    exact h.entry size
  · next hNeed =>
    simp only [needEntry, Bool.or_eq_true, List.isEmpty_iff, decide_eq_true_eq, not_or,
      Nat.not_le] at hNeed
    obtain ⟨hSome, hFew⟩ := hNeed
    exact h.skip size (List.getLast?_eq_some_getLast hSome) (h.spaced ▸ hFew)

theorem covers_trackAll (base interval : Nat) (sizes : List Nat) :
    Covers base interval sizes (trackAll ⟨base, [], 0, interval⟩ base 0 sizes) := by
  induction sizes using List.reverseRecOn with
  | nil => exact covers_nil base interval
  | append_singleton sizes size ih =>
    rw [trackAll_append, Nat.zero_add]
    exact ih.track size

/-! ## Looking up -/

/-- The entry a lookup answers with is the last one at or before the target. -/
theorem Covers.lookup (h : Covers base interval done x) (hCount : done.length < 2 ^ 32)
    {target : Nat} (hTarget : base ≤ target) (hSome : x.entries ≠ []) :
    ∃ i e, x.entries[i]? = some e ∧
      LastAtMost x.entries (target - base) IndexEntry.relativeOffset i ∧
      x.lookup target = (e.filePosition, base + e.relativeOffset) := by
  have hSmall : ∀ e ∈ x.entries, e.relativeOffset ≤ 2 ^ 32 - 1 := by
    intro e he
    have := (h.exact e he).1
    omega
  -- cutting the target down to `u32` does not change which entries are at or before it
  have hCut : ∀ i, LastAtMost x.entries (min (target - base) (2 ^ 32 - 1))
      IndexEntry.relativeOffset i →
      LastAtMost x.entries (target - base) IndexEntry.relativeOffset i := by
    intro i hLast
    obtain ⟨⟨e, he, hKey⟩, hAfter⟩ := hLast
    refine ⟨⟨e, he, by omega⟩, ?_⟩
    intro j e' hj he'
    have hBeyond := hAfter j e' hj he'
    have := hSmall e' (List.mem_of_getElem? he')
    omega
  have hBase : x.baseOffset ≤ target := by
    rw [h.based]
    exact hTarget
  have hCases := SparseIndex.lookup_cases h.sorted hBase
  rw [h.based] at hCases
  rcases hCases with ⟨hSearch, -⟩ | ⟨i, e, he, hLast, hLookup⟩
  · -- the first entry is for the first record, so it is at or before every target
    have hDone : done ≠ [] := by
      rintro rfl
      obtain ⟨e, he⟩ := List.exists_mem_of_ne_nil _ hSome
      exact Nat.not_lt_zero _ (h.exact e he).1
    have hFirst := List.mem_of_head? (h.first hDone)
    have := all_greater_of_absent_zero h.sorted hSearch hFirst
    dsimp only at this
    omega
  · exact ⟨i, e, he, hCut i hLast, hLookup⟩

theorem Covers.lookup_greatest (h : Covers base interval done x) (hCount : done.length < 2 ^ 32)
    {target : Nat} (hTarget : base ≤ target) (hSome : x.entries ≠ []) : ∃ e ∈ x.entries,
      base + e.relativeOffset ≤ target ∧
      (∀ e' ∈ x.entries, base + e'.relativeOffset ≤ target →
        e'.relativeOffset ≤ e.relativeOffset) ∧
      e.relativeOffset < done.length ∧
      x.lookup target = ((done.take e.relativeOffset).sum, base + e.relativeOffset) := by
  obtain ⟨i, e, he, ⟨⟨e₀, he₀, hKey⟩, hAfter⟩, hLookup⟩ := h.lookup hCount hTarget hSome
  obtain rfl := Option.some.inj (he.symm.trans he₀)
  have hMem := List.mem_of_getElem? he
  obtain ⟨hLt, hPos⟩ := h.exact e hMem
  refine ⟨e, hMem, by omega, ?_, hLt, ?_⟩
  · intro e' he' hBefore
    obtain ⟨j, hj⟩ := List.mem_iff_getElem?.mp he'
    rcases Nat.lt_trichotomy i j with hAfterI | rfl | hBeforeI
    · have := hAfter j e' hAfterI hj
      omega
    · obtain rfl := Option.some.inj (he.symm.trans hj)
      exact Nat.le_refl _
    · exact (keys_lt_of_sorted h.sorted hBeforeI hj he).le
  · rw [hLookup, hPos]

theorem sum_drop_le (ns : List Nat) {a b : Nat} (h : a ≤ b) : (ns.drop b).sum ≤ (ns.drop a).sum := by
  have hSplit : ((ns.drop a).take (b - a)).sum + ((ns.drop a).drop (b - a)).sum =
      (ns.drop a).sum := by
    rw [← List.sum_append, List.take_append_drop]
  rw [List.drop_drop, Nat.add_sub_cancel' h] at hSplit
  omega

/-- The sizes up to a later record sum to more. -/
theorem sum_take_lt {ns : List Nat} (hPositive : ∀ n ∈ ns, 0 < n) {a b : Nat} (hab : a < b)
    (ha : a < ns.length) : (ns.take a).sum < (ns.take b).sum := by
  have hSplit : ((ns.take b).take a).sum + ((ns.take b).drop a).sum = (ns.take b).sum := by
    rw [← List.sum_append, List.take_append_drop]
  rw [List.take_take, Nat.min_eq_left hab.le] at hSplit
  have hLen : 0 < ((ns.take b).drop a).length := by
    rw [List.length_drop, List.length_take]
    omega
  obtain ⟨n, rest, hEq⟩ := List.exists_cons_of_length_pos hLen
  have hMem : n ∈ (ns.take b).drop a := hEq ▸ List.mem_cons_self
  have := hPositive n (List.mem_of_mem_take (List.mem_of_mem_drop hMem))
  rw [hEq, List.sum_cons] at hSplit
  omega

theorem Covers.looksUp (h : Covers base interval sizes x) (hPositive : ∀ size ∈ sizes, 0 < size)
    (hCount : sizes.length < 2 ^ 32) : LooksUp base interval sizes x where
  ascending := by
    refine List.Pairwise.imp_of_mem ?_ h.sorted
    intro a b ha hb hLt
    obtain ⟨hA, hPosA⟩ := h.exact a ha
    obtain ⟨-, hPosB⟩ := h.exact b hb
    rw [hPosA, hPosB]
    exact ⟨hLt, sum_take_lt hPositive hLt hA⟩
  first := h.first
  outside := by
    intro target hOutside
    unfold SparseIndex.lookup
    rw [h.based]
    rcases hOutside with hBefore | hNone
    · rw [if_pos hBefore]
    · rw [hNone]
      split <;> rfl
  greatest := fun target hTarget hSome => h.lookup_greatest hCount hTarget hSome
  dense := by
    intro i hi
    obtain ⟨e, he, hBefore, hNear⟩ := h.near i hi
    obtain ⟨e', -, hBefore', hGreatest, -, hLookup⟩ := h.lookup_greatest hCount
      (Nat.le_add_right base i) (List.ne_nil_of_mem he)
    have hLe := hGreatest e he (by omega)
    refine ⟨e'.relativeOffset, by omega, hLookup, ?_⟩
    rcases hNear with hAt | hFew
    · exact Or.inl (by omega)
    · -- the closest entry skips no more than the one the invariant names
      exact Or.inr (Nat.lt_of_le_of_lt (sum_drop_le _ hLe) hFew)

/-! ## The calls -/

/-- Whatever the environment does, a call that returns has tracked its record. -/
theorem trackAppend_tracks {env : Env FileName} {w : World FileName}
    (offset filePosition size : Nat) :
    wp env (trackAppend offset filePosition size)
      { ok := fun _ x' _ => x' = x.track offset filePosition size
        err := fun _ _ _ => True
        panic := fun _ _ _ => True
        crash := fun _ _ => True } x w := by
  rw [trackAppend, wp_get_bind]
  by_cases hNeed : x.needEntry
  · rw [if_pos hNeed, wp_bind, addEntry, wp_get_bind]
    dsimp only
    split
    · trivial
    split
    · trivial
    rw [wp_bind, writeEntry, wp_get_bind, Fx.append, Fx.writing]
    refine wp_perform ?_ ?_ ?_ ?_
    · intro _ d _
      simp only [wp_modify]
      simp [track, hNeed]
    · intros
      trivial
    · intros
      trivial
    · intros
      trivial
  · rw [if_neg hNeed]
    dsimp only
    rw [wp_modify]
    simp [track, hNeed]

theorem trackContiguous_tracks {env : Env FileName} {w : World FileName} (sizes : List Nat)
    (offset filePosition : Nat) :
    wp env (trackContiguous sizes offset filePosition)
      { ok := fun _ x' _ => x' = x.trackAll offset filePosition sizes
        err := fun _ _ _ => True
        panic := fun _ _ _ => True
        crash := fun _ _ => True } x w := by
  induction sizes generalizing x w offset filePosition with
  | nil => rfl
  | cons size sizes ih =>
    rw [trackContiguous]
    refine wp_bind_of (trackAppend_tracks offset filePosition size) ?_ (fun _ _ _ h => h)
      (fun _ _ _ h => h) (fun _ _ h => h)
    intro _ x' w' hTracked
    subst hTracked
    exact ih (offset + 1) (filePosition + size)

/-- Where nothing fails and all positions fit into an entry, all records are tracked. -/
theorem trackContiguous_spec {env : Env FileName} {w : World FileName} (hQuiet : env.Quiet)
    (hx : IndexOk w.store x) (sizes : List Nat) {offset filePosition : Nat}
    (hCount : offset - x.baseOffset + sizes.length < 2 ^ 32)
    (hFits : ∀ i, i < sizes.length → filePosition + (sizes.take i).sum < 2 ^ 32) :
    wp env (trackContiguous sizes offset filePosition)
      { ok := fun _ x' w' => x' = x.trackAll offset filePosition sizes ∧ IndexOk w'.store x'
        err := fun _ _ _ => False
        panic := fun _ _ _ => False
        crash := fun _ _ => False } x w := by
  induction sizes generalizing x w offset filePosition with
  | nil => exact ⟨rfl, hx⟩
  | cons size sizes ih =>
    rw [List.length_cons] at hCount
    rw [trackContiguous]
    refine wp_bind_of (trackAppend_spec (clean_of_quiet hQuiet) hx offset filePosition size) ?_
      (fun _ _ _ h => h) ?_ (fun _ _ h => h.1 hQuiet.alive)
    · intro _ x' w' hTracked
      obtain ⟨rfl, hx', -, -⟩ := hTracked
      apply ih hx'
      · rw [track_baseOffset]
        omega
      · intro i hi
        have := hFits (i + 1) (by simpa using hi)
        rw [List.take_succ_cons, List.sum_cons] at this
        omega
    · intro _ _ _ hPanic
      obtain ⟨-, -, hTooBig⟩ := hPanic
      have := hFits 0 (by simp)
      rw [List.take_zero, List.sum_nil] at this
      omega

end SparseIndex

/-- The index built from records one behind the other: it ascends from the first record on, a
lookup answers with the last entry at or before the target and its exact position, and a read
that starts there skips less than the interval. Where no call fails it is built. -/
theorem SparseIndex.lookups_are_exact_and_dense {base interval : Nat} {sizes : List Nat}
    (hPositive : ∀ size ∈ sizes, 0 < size) (hCount : sizes.length < 2 ^ 32)
    (hFits : ∀ i, i < sizes.length → (sizes.take i).sum < 2 ^ 32) :
    (∀ (env : Env FileName) (w w' : World FileName) (x : SparseIndex),
      createTracked base interval sizes env () w = (.ok x, (), w') →
      LooksUp base interval sizes x) ∧
    (∀ (env : Env FileName) (w : World FileName), env.Quiet →
      w.store.get (.index base) = none →
      ∃ x w', createTracked base interval sizes env () w = (.ok x, (), w')) := by
  constructor
  · intro env w w' x hRun
    have hTracks : wp env (createTracked base interval sizes : LogIO Unit SparseIndex)
        { ok := fun x _ _ => x = trackAll ⟨base, [], 0, interval⟩ base 0 sizes
          err := fun _ _ _ => True
          panic := fun _ _ _ => True
          crash := fun _ _ => True } () w := by
      rw [createTracked, create, wp_bind, wp_bind]
      refine wp_perform ?_ ?_ ?_ ?_
      · intro _ d _
        dsimp only
        rw [wp_pure]
        dsimp only
        rw [wp_bind, wp_withLocal]
        exact wp_mono (trackContiguous_tracks sizes base 0) (fun _ _ _ h => h)
          (fun _ _ _ h => h) (fun _ _ _ h => h) (fun _ _ h => h)
      · intros
        trivial
      · intros
        trivial
      · intros
        trivial
    have hEq := ok_of_wp hTracks hRun
    dsimp only at hEq
    rw [hEq]
    exact (covers_trackAll base interval sizes).looksUp hPositive hCount
  · intro env w hQuiet hAbsent
    have hTotal : wp env (createTracked base interval sizes : LogIO Unit SparseIndex)
        { ok := fun _ _ _ => True
          err := fun _ _ _ => False
          panic := fun _ _ _ => False
          crash := fun _ _ => False } () w := by
      rw [createTracked, create, wp_bind, wp_bind]
      refine wp_createNew hAbsent ?_ ?_ ?_
      · dsimp only
        rw [wp_pure]
        dsimp only
        rw [wp_bind, wp_withLocal]
        refine wp_mono (trackContiguous_spec hQuiet ?_ sizes ?_ ?_) (fun _ _ _ _ => trivial)
          (fun _ _ _ h => h) (fun _ _ _ h => h) (fun _ _ h => h)
        · exact ⟨File.empty, Store.get_put_self _ _ _, rfl⟩
        · dsimp only
          omega
        · simpa using hFits
      · intro kind k hFail
        exact hQuiet.steady _ _ _ _ hFail
      · intro k hCrash
        exact hQuiet.alive _ _ _ hCrash
    unfold wp at hTotal
    rcases hRun : createTracked base interval sizes env () w with ⟨r, s, w'⟩
    rw [hRun] at hTotal
    cases r with
    | ok x => exact ⟨x, w', rfl⟩
    | err e => exact hTotal.elim
    | panic m => exact hTotal.elim
    | crash => exact hTotal.elim

/-- Four records and an interval of ten bytes: the third one gets the second entry. -/
theorem SparseIndex.lookups_are_exact_and_dense_four :
    ∃ x w', createTracked 100 10 [6, 6, 6, 6] Env.quiet () ⟨Store.empty, 0⟩ = (.ok x, (), w') ∧
      LooksUp 100 10 [6, 6, 6, 6] x := by
  obtain ⟨hLooksUp, hBuilt⟩ := @SparseIndex.lookups_are_exact_and_dense 100 10 [6, 6, 6, 6]
    (by decide) (by decide) (by decide)
  obtain ⟨x, w', hRun⟩ := hBuilt Env.quiet ⟨Store.empty, 0⟩ Env.quiet_quiet rfl
  exact ⟨x, w', hRun, hLooksUp _ _ _ _ hRun⟩

end Kafko
