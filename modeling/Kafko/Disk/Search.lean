import Mathlib.Data.List.Basic

/-!
# Binary search by key

`binarySearchByKey` is the search of a slice sorted by a key: `ok i` when the key sits at
index `i`, `error i` when it is absent and would be inserted at `i`. On a strictly sorted
list both answers determine the last element whose key is at most the one searched for,
which is how the callers use it. `leastBelow` is the other search, for the first index that
satisfies a predicate.
-/

namespace Disk

variable {α : Type}

/-- The loop of `slice::binary_search_by`, which narrows a range of `size` elements from `base`
on. It does not stop at an equal key: the base moves to the middle unless the key there is
greater. -/
def searchLoop (xs : List α) (key : Nat) (f : α → Nat) : (fuel base size : Nat) → Nat
  | 0, base, _ => base
  | fuel + 1, base, size =>
    if 1 < size then
      let half := size / 2
      let mid := base + half
      let base := if (xs[mid]?).any fun x => decide (key < f x) then base else mid
      searchLoop xs key f fuel base (size - half)
    else base

/-- `slice::binary_search_by_key`. On repeated keys any match may be returned; this is the one
the loop of the standard library ends at. -/
def binarySearchByKey (xs : List α) (key : Nat) (f : α → Nat) : Except Nat Nat :=
  let base := searchLoop xs key f xs.length 0 xs.length
  match xs[base]? with
  | none => .error 0
  | some x => if f x = key then .ok base else .error (base + if f x < key then 1 else 0)

/-- `i` is the place of `key` in `xs`: smaller keys before it, larger keys from it on. -/
def InsertionPoint (xs : List α) (key : Nat) (f : α → Nat) (i : Nat) : Prop :=
  i ≤ xs.length ∧ (∀ j x, j < i → xs[j]? = some x → f x < key) ∧
    ∀ j x, i ≤ j → xs[j]? = some x → key < f x

/-- The meaning of a search result. -/
def SearchResult (xs : List α) (key : Nat) (f : α → Nat) : Except Nat Nat → Prop
  | .ok i => ∃ x, xs[i]? = some x ∧ f x = key
  | .error i => InsertionPoint xs key f i

theorem searchLoop_map (xs : List α) (key : Nat) (f : α → Nat) (fuel base size : Nat) :
    searchLoop (xs.map f) key id fuel base size = searchLoop xs key f fuel base size := by
  induction fuel generalizing base size with
  | zero => rfl
  | succ fuel ih =>
    rw [searchLoop, searchLoop]
    simp only [ih, List.getElem?_map, Option.any_map]
    rfl

/-- A search looks at the keys only. -/
theorem binarySearchByKey_map (xs : List α) (key : Nat) (f : α → Nat) :
    binarySearchByKey (xs.map f) key id = binarySearchByKey xs key f := by
  unfold binarySearchByKey
  dsimp only
  rw [searchLoop_map, List.length_map, List.getElem?_map]
  cases xs[searchLoop xs key f xs.length 0 xs.length]? <;> rfl

theorem keys_lt_of_sorted {xs : List α} {f : α → Nat}
    (hSorted : xs.Pairwise fun a b => f a < f b) {i j : Nat} {x y : α} (hij : i < j)
    (hx : xs[i]? = some x) (hy : xs[j]? = some y) : f x < f y := by
  obtain ⟨hi, rfl⟩ := List.getElem?_eq_some_iff.mp hx
  obtain ⟨hj, rfl⟩ := List.getElem?_eq_some_iff.mp hy
  exact List.pairwise_iff_getElem.mp hSorted i j hi hj hij

/-- The loop ends at one element, with smaller keys before it and larger ones behind it. -/
theorem searchLoop_spec {xs : List α} {f : α → Nat}
    (hSorted : xs.Pairwise fun a b => f a < f b) (key fuel base size : Nat) (hSize : 0 < size)
    (hLen : base + size ≤ xs.length) (hFuel : size ≤ fuel + 1)
    (hBelow : ∀ j x, j < base → xs[j]? = some x → f x < key)
    (hAbove : ∀ j x, base + size ≤ j → xs[j]? = some x → key < f x) :
    searchLoop xs key f fuel base size < xs.length ∧
      (∀ j x, j < searchLoop xs key f fuel base size → xs[j]? = some x → f x < key) ∧
      ∀ j x, searchLoop xs key f fuel base size < j → xs[j]? = some x → key < f x := by
  induction fuel generalizing base size with
  | zero =>
    obtain rfl : size = 1 := by omega
    exact ⟨by rw [searchLoop]; omega, hBelow, hAbove⟩
  | succ fuel ih =>
    rw [searchLoop]
    by_cases hMore : 1 < size
    · rw [if_pos hMore]
      dsimp only
      obtain ⟨y, hy⟩ : ∃ y, xs[base + size / 2]? = some y :=
        ⟨_, List.getElem?_eq_getElem (by omega)⟩
      rw [hy, Option.any_some]
      by_cases hGreater : key < f y
      · rw [if_pos (decide_eq_true hGreater)]
        apply ih _ _ (by omega) (by omega) (by omega) hBelow
        intro j x hj hx
        by_cases hEq : j = base + size / 2
        · rw [hEq, hy] at hx
          rw [← Option.some.inj hx]
          exact hGreater
        · have := keys_lt_of_sorted hSorted (by omega) hy hx
          omega
      · rw [if_neg (by simpa using hGreater)]
        refine ih _ _ (by omega) (by omega) (by omega) ?_ ?_
        · intro j x hj hx
          have := keys_lt_of_sorted hSorted hj hx hy
          omega
        · intro j x hj
          exact hAbove j x (by omega)
    · rw [if_neg hMore]
      obtain rfl : size = 1 := by omega
      exact ⟨by omega, hBelow, hAbove⟩

theorem binarySearchByKey_spec {xs : List α} {f : α → Nat}
    (hSorted : xs.Pairwise fun a b => f a < f b) (key : Nat) :
    SearchResult xs key f (binarySearchByKey xs key f) := by
  have hBehind : ∀ j x, xs.length ≤ j → xs[j]? = some x → key < f x := by
    intro j x hj hx
    rw [List.getElem?_eq_none hj] at hx
    cases hx
  unfold binarySearchByKey
  dsimp only
  rcases Nat.eq_zero_or_pos xs.length with hNil | hSize
  · obtain rfl := List.eq_nil_of_length_eq_zero hNil
    exact ⟨Nat.zero_le _, fun j x hj => by omega, hBehind⟩
  · obtain ⟨hLt, hBelow, hAbove⟩ := searchLoop_spec hSorted key xs.length 0 xs.length
      hSize (by omega) (by omega) (fun j x hj => by omega) (fun j x hj => hBehind j x (by omega))
    generalize searchLoop xs key f xs.length 0 xs.length = base at hLt hBelow hAbove
    have hx : xs[base]? = some xs[base] := List.getElem?_eq_getElem hLt
    rw [hx]
    dsimp only
    by_cases hEq : f xs[base] = key
    · rw [if_pos hEq]
      exact ⟨_, hx, hEq⟩
    rw [if_neg hEq]
    by_cases hLess : f xs[base] < key
    · rw [if_pos hLess]
      refine ⟨by omega, ?_, fun j x hj => hAbove j x (by omega)⟩
      intro j x hj hj'
      by_cases hSame : j = base
      · rw [hSame, hx] at hj'
        rw [← Option.some.inj hj']
        exact hLess
      · exact hBelow j x (by omega) hj'
    · rw [if_neg hLess]
      refine ⟨by omega, fun j x hj => hBelow j x (by omega), ?_⟩
      intro j x hj hj'
      by_cases hSame : j = base
      · rw [hSame, hx] at hj'
        rw [← Option.some.inj hj']
        omega
      · exact hAbove j x (by omega) hj'

/-- `i` is the last index whose key is at most `key`. -/
def LastAtMost (xs : List α) (key : Nat) (f : α → Nat) (i : Nat) : Prop :=
  (∃ x, xs[i]? = some x ∧ f x ≤ key) ∧ ∀ j y, i < j → xs[j]? = some y → key < f y

theorem lastAtMost_of_found {xs : List α} {key : Nat} {f : α → Nat}
    (hSorted : xs.Pairwise fun a b => f a < f b) {i : Nat}
    (h : binarySearchByKey xs key f = .ok i) : LastAtMost xs key f i := by
  have hSpec := binarySearchByKey_spec hSorted key
  rw [h] at hSpec
  obtain ⟨x, hx, hKey⟩ := hSpec
  refine ⟨⟨x, hx, Nat.le_of_eq hKey⟩, ?_⟩
  intro j y hij hy
  rw [← hKey]
  exact keys_lt_of_sorted hSorted hij hx hy

theorem lastAtMost_of_absent {xs : List α} {key : Nat} {f : α → Nat}
    (hSorted : xs.Pairwise fun a b => f a < f b) {i : Nat}
    (h : binarySearchByKey xs key f = .error (i + 1)) : LastAtMost xs key f i := by
  have hSpec := binarySearchByKey_spec hSorted key
  rw [h] at hSpec
  obtain ⟨hLen, hBelow, hAbove⟩ := hSpec
  have hx : xs[i]? = some xs[i] := List.getElem?_eq_getElem (by omega)
  refine ⟨⟨_, hx, Nat.le_of_lt (hBelow i _ (by omega) hx)⟩, ?_⟩
  intro j y hij hy
  exact hAbove j y (by omega) hy

theorem all_greater_of_absent_zero {xs : List α} {key : Nat} {f : α → Nat}
    (hSorted : xs.Pairwise fun a b => f a < f b)
    (h : binarySearchByKey xs key f = .error 0) {x : α} (hx : x ∈ xs) : key < f x := by
  have hSpec := binarySearchByKey_spec hSorted key
  rw [h] at hSpec
  obtain ⟨j, hj⟩ := List.mem_iff_getElem?.mp hx
  exact hSpec.2.2 j x (Nat.zero_le _) hj

theorem LastAtMost.unique {xs : List α} {key : Nat} {f : α → Nat} {i j : Nat}
    (hi : LastAtMost xs key f i) (hj : LastAtMost xs key f j) : i = j := by
  obtain ⟨⟨x, hx, hxKey⟩, hAfter⟩ := hi
  obtain ⟨⟨y, hy, hyKey⟩, hAfter'⟩ := hj
  rcases Nat.lt_trichotomy i j with hLt | hEq | hGt
  · have := hAfter j y hLt hy
    omega
  · exact hEq
  · have := hAfter' i x hGt hx
    omega

/-- Elements before the last one at most `key` do not matter. -/
theorem LastAtMost.of_drop {xs : List α} {key : Nat} {f : α → Nat} {n i : Nat}
    (h : LastAtMost (xs.drop n) key f i) : LastAtMost xs key f (n + i) := by
  obtain ⟨⟨x, hx, hKey⟩, hAfter⟩ := h
  rw [List.getElem?_drop] at hx
  refine ⟨⟨x, hx, hKey⟩, ?_⟩
  intro j y hj hy
  apply hAfter (j - n) y (by omega)
  rw [List.getElem?_drop, show n + (j - n) = j by omega]
  exact hy

/-! ## The least index -/

/-- The least index below `m` at which `P` holds, or `m`. -/
def leastBelow (m : Nat) (P : Nat → Bool) : Nat := (List.range m).findIdx P

variable {m n : Nat} {P : Nat → Bool}

theorem leastBelow_le (m : Nat) (P : Nat → Bool) : leastBelow m P ≤ m := by
  have h : leastBelow m P ≤ (List.range m).length := List.findIdx_le_length
  rwa [List.length_range] at h

theorem leastBelow_holds (h : leastBelow m P < m) : P (leastBelow m P) = true := by
  have hFound := List.findIdx_getElem (p := P) (w := by rwa [List.length_range])
  rwa [List.getElem_range] at hFound

theorem not_of_lt_leastBelow (h : n < leastBelow m P) : P n = false := by
  have hBefore := List.not_of_lt_findIdx h
  rwa [List.getElem_range] at hBefore

theorem leastBelow_eq (hLe : n ≤ m) (hBefore : ∀ k < n, P k = false)
    (hAt : n < m → P n = true) : leastBelow m P = n := by
  have hBound := leastBelow_le m P
  rcases Nat.lt_trichotomy (leastBelow m P) n with hLt | hEq | hGt
  · have hHolds := leastBelow_holds (m := m) (P := P) (by omega)
    rw [hBefore _ hLt] at hHolds
    cases hHolds
  · exact hEq
  · have hNot := not_of_lt_leastBelow hGt
    rw [hAt (by omega)] at hNot
    cases hNot

theorem leastBelow_succ (m : Nat) (P : Nat → Bool) :
    leastBelow (m + 1) P = if P 0 then 0 else leastBelow m (fun k => P (k + 1)) + 1 := by
  split
  · next hFirst => exact leastBelow_eq (Nat.zero_le _) (fun k hk => by omega) fun _ => hFirst
  · next hFirst =>
    have hLe := leastBelow_le m fun k => P (k + 1)
    refine leastBelow_eq (by omega) ?_ ?_
    · intro k hk
      cases k with
      | zero => simpa using hFirst
      | succ k => exact not_of_lt_leastBelow (m := m) (P := fun k => P (k + 1)) (by omega)
    · intro hLt
      exact leastBelow_holds (P := fun k => P (k + 1)) (by omega)

/-- Behind the least index a predicate that stays true holds. -/
theorem holds_of_leastBelow_le (hStays : ∀ k, P k = true → P (k + 1) = true)
    (hLe : leastBelow m P ≤ n) (hLt : n < m) : P n = true := by
  induction hLe with
  | refl => exact leastBelow_holds hLt
  | step _ ih => exact hStays _ (ih (by omega))

/-- A search that starts behind the first `a` indices. -/
theorem add_leastBelow {a : Nat} (hLe : a ≤ m) (hStays : ∀ k, P k = true → P (k + 1) = true) :
    a + leastBelow (m - a) (fun k => P (a + k)) = max a (leastBelow m P) := by
  have hBound := leastBelow_le m P
  rcases Nat.lt_or_ge a (leastBelow m P) with hLt | hGe
  · have hRest : leastBelow (m - a) (fun k => P (a + k)) = leastBelow m P - a := by
      refine leastBelow_eq (by omega) ?_ ?_
      · intro k hk
        exact not_of_lt_leastBelow (m := m) (by omega)
      · intro hk
        rw [show a + (leastBelow m P - a) = leastBelow m P by omega]
        exact leastBelow_holds (by omega)
    rw [hRest]
    omega
  · have hRest : leastBelow (m - a) (fun k => P (a + k)) = 0 := by
      apply leastBelow_eq (Nat.zero_le _) (fun k hk => by omega)
      intro hk
      exact holds_of_leastBelow_le (n := a + 0) hStays hGe (by omega)
    rw [hRest]
    omega

end Disk
