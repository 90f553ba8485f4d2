import Kafko.Storage.Salvage
import Kafko.Wire.Cuts

/-!
# The decode loops on shortened buffers

The scan and the replay walk a buffer in which the bytes the read call did not return are zeros,
and a search walks the bytes its call returned. `SameRecords` compares the two buffers of a
recovery loop record by record; below four gigabytes it is the only way in which the loop can end
as it does on the whole buffer (`sameRecords_of_lastValid`, `sameRecords_of_recordSizes`).
`searchNeed` is how many bytes a search has to be given: as many suffice (`findRecord_take`), and
no record is found with fewer (`searchNeed_le`).
-/

namespace Kafko

open Disk

namespace Log

variable {X : Crates} {whole given slice rest rest' : Bytes} {r r' : Record} {n fuel : Nat}

/-! ## Two buffers read as records -/

/-- Neither a record nor an end of the log: recovery fails here. -/
def Refuses (X : Crates) (slice : Bytes) : Prop :=
  ¬ Stops X slice ∧ ∀ p, Record.decode X slice ≠ .ok p

/-- The buffers decode into records of the same sizes, and what follows these is in both of them
taken for the end or in both of them refused. -/
inductive SameRecords (X : Crates) : Bytes → Bytes → Prop where
  | record {whole given rest rest' : Bytes} {r r' : Record}
      (hWhole : Record.decode X whole = .ok (r, rest))
      (hGiven : Record.decode X given = .ok (r', rest'))
      (hSize : rest'.length = rest.length) (hRest : SameRecords X rest rest') :
      SameRecords X whole given
  | stops {whole given : Bytes} (hWhole : Stops X whole) (hGiven : Stops X given) :
      SameRecords X whole given
  | refuses {whole given : Bytes} (hWhole : Refuses X whole) (hGiven : Refuses X given) :
      SameRecords X whole given

theorem Stops.not_ok (h : Stops X slice) (p : Record × Bytes) : Record.decode X slice ≠ .ok p := by
  rcases h with rfl | ⟨m, h⟩ | ⟨a, b, h⟩ | ⟨m, h⟩
  · simp
  · simp [h]
  · simp [h]
  · simp [h]

theorem stops_zeros (X : Crates) (k : Nat) : Stops X (List.replicate k 0) := by
  rcases Record.decode_zeros X k with ⟨m, hTorn⟩ | hLength
  · exact Or.inr (Or.inl ⟨m, hTorn⟩)
  · exact Or.inr (Or.inr (Or.inr ⟨0, hLength⟩))

theorem decode_cases (X : Crates) (slice : Bytes) :
    (∃ r rest, Record.decode X slice = .ok (r, rest)) ∨ Stops X slice ∨ Refuses X slice := by
  by_cases hOk : ∃ r rest, Record.decode X slice = .ok (r, rest)
  · exact Or.inl hOk
  by_cases hStops : Stops X slice
  · exact Or.inr (Or.inl hStops)
  · refine Or.inr (Or.inr ⟨hStops, ?_⟩)
    rintro ⟨r, rest⟩ hDecode
    exact hOk ⟨r, rest, hDecode⟩

/-- A buffer is read like itself. -/
theorem SameRecords.refl (X : Crates) (bytes : Bytes) : SameRecords X bytes bytes := by
  induction hLen : bytes.length using Nat.strong_induction_on generalizing bytes with
  | _ len ih =>
    rcases decode_cases X bytes with ⟨r, rest, hDecode⟩ | hStops | hRefuses
    · have hLt := (Record.decode_rest hDecode).2
      exact .record hDecode hDecode rfl (ih rest.length (hLen ▸ hLt) rest rfl)
    · exact .stops hStops hStops
    · exact .refuses hRefuses hRefuses

/-! ## One round of the loops -/

theorem ne_nil_of_decode (h : Record.decode X slice = .ok (r, rest)) : slice.isEmpty = false := by
  cases slice with
  | nil => simp at h
  | cons b slice => rfl

theorem lastValid_record (h : Record.decode X slice = .ok (r, rest)) (fuel pos : Nat) :
    lastValid X (fuel + 1) slice pos =
      lastValid X fuel rest (pos + (slice.length - rest.length)) := by
  rw [lastValid, ne_nil_of_decode h, h]
  rfl

theorem lastValid_stops (h : Stops X slice) (fuel pos : Nat) :
    lastValid X fuel slice pos = .ok pos := by
  cases fuel with
  | zero => rfl
  | succ fuel =>
    rw [lastValid]
    rcases h with rfl | ⟨m, h⟩ | ⟨a, b, h⟩ | ⟨m, h⟩
    · rfl
    all_goals
      rw [h]
      split <;> rfl

theorem lastValid_refuses (h : Refuses X slice) (hFuel : slice.length ≤ fuel) (pos k : Nat) :
    lastValid X fuel slice pos ≠ .ok k := by
  intro hOk
  obtain ⟨fs, tail, rfl, hFrames, hStops, -⟩ := lastValid_ok hFuel hOk
  cases fs with
  | nil => exact h.1 hStops
  | cons f fs =>
    rw [flat_cons, List.append_assoc] at h
    exact h.2 _ hFrames.1

theorem le_of_lastValid {pos k : Nat} (hFuel : slice.length ≤ fuel)
    (h : lastValid X fuel slice pos = .ok k) : pos ≤ k := by
  obtain ⟨fs, -, -, -, -, hLast, -⟩ := lastValid_ok hFuel h
  omega

theorem recordSizes_record (h : Record.decode X slice = .ok (r, rest)) (fuel : Nat) :
    recordSizes X (fuel + 1) slice =
      (recordSizes X fuel rest >>= fun ns => pure ((slice.length - rest.length) :: ns)) := by
  rw [recordSizes, ne_nil_of_decode h, h]
  rfl

theorem recordSizes_not_ok (h : ∀ p, Record.decode X slice ≠ .ok p) (hNe : slice ≠ [])
    (hFuel : slice.length ≤ fuel) (ns : List Nat) : recordSizes X fuel slice ≠ .ok ns := by
  intro hOk
  obtain ⟨fs, hFrames, rfl, -⟩ := recordSizes_ok hFuel hOk
  cases fs with
  | nil => exact hNe rfl
  | cons f fs =>
    have hFirst := hFrames.1
    rw [List.append_nil] at hFirst
    exact h _ (flat_cons f fs ▸ hFirst)

/-! ## The same records are enough -/

theorem SameRecords.lastValid (h : SameRecords X whole given)
    (hLen : given.length = whole.length) (hFuel : whole.length ≤ fuel) (pos k : Nat) :
    Log.lastValid X fuel whole pos = .ok k ↔ Log.lastValid X fuel given pos = .ok k := by
  induction h generalizing fuel pos with
  | record hWhole hGiven hSize hRest ih =>
    have hLt := (Record.decode_rest hWhole).2
    obtain ⟨fuel, rfl⟩ : ∃ m, fuel = m + 1 := ⟨fuel - 1, by omega⟩
    rw [lastValid_record hWhole, lastValid_record hGiven, hLen, hSize]
    exact ih hSize (by omega) _
  | stops hWhole hGiven => rw [lastValid_stops hWhole, lastValid_stops hGiven]
  | refuses hWhole hGiven =>
    exact iff_of_false (lastValid_refuses hWhole hFuel pos k)
      (lastValid_refuses hGiven (hLen ▸ hFuel) pos k)

theorem SameRecords.recordSizes (h : SameRecords X whole given)
    (hLen : given.length = whole.length) (hFuel : whole.length ≤ fuel) (ns : List Nat) :
    Log.recordSizes X fuel whole = .ok ns ↔ Log.recordSizes X fuel given = .ok ns := by
  -- without a first record, a replay succeeds on the empty buffer only
  have hNone : ∀ {whole given : Bytes} {fuel : Nat} (ns : List Nat),
      (∀ p, Record.decode X whole ≠ .ok p) → (∀ p, Record.decode X given ≠ .ok p) →
      given.length = whole.length → whole.length ≤ fuel →
      (Log.recordSizes X fuel whole = .ok ns ↔ Log.recordSizes X fuel given = .ok ns) := by
    intro whole given fuel ns hWhole hGiven hLen hFuel
    by_cases hNil : whole = []
    · obtain rfl := hNil
      obtain rfl := List.eq_nil_of_length_eq_zero hLen
      exact Iff.rfl
    · have hNil' : given ≠ [] := by
        rintro rfl
        exact hNil (List.eq_nil_of_length_eq_zero hLen.symm)
      exact iff_of_false (recordSizes_not_ok hWhole hNil hFuel ns)
        (recordSizes_not_ok hGiven hNil' (hLen ▸ hFuel) ns)
  induction h generalizing fuel ns with
  | record hWhole hGiven hSize hRest ih =>
    have hLt := (Record.decode_rest hWhole).2
    obtain ⟨fuel, rfl⟩ : ∃ m, fuel = m + 1 := ⟨fuel - 1, by omega⟩
    rw [recordSizes_record hWhole, recordSizes_record hGiven, hLen, hSize]
    rw [Res.bind_eq_ok, Res.bind_eq_ok]
    apply exists_congr
    intro ms
    exact and_congr_left fun _ => ih hSize (by omega) ms
  | stops hWhole hGiven => exact hNone ns hWhole.not_ok hGiven.not_ok hLen hFuel
  | refuses hWhole hGiven => exact hNone ns hWhole.2 hGiven.2 hLen hFuel

/-- Frames that decode on their own are the same records in front of any two ends. -/
theorem sameRecords_flat {fs : List LogFrame} (h : Decodes X [] fs) {tail tail' : Bytes}
    (hLen : tail'.length = tail.length) (hStops : Stops X tail) (hStops' : Stops X tail') :
    SameRecords X (flat fs ++ tail) (flat fs ++ tail') := by
  induction fs with
  | nil => exact .stops hStops hStops'
  | cons f fs ih =>
    have hDecode := h.1
    rw [List.append_nil] at hDecode
    have hAppend : ∀ t, Record.decode X (flat (f :: fs) ++ t) = .ok (f.record, flat fs ++ t) := by
      intro t
      rw [flat_cons]
      exact Record.decode_append hDecode t
    refine .record (hAppend tail) (hAppend tail') ?_ (ih h.2)
    rw [List.length_append, List.length_append, hLen]

/-- A read that returns all whole records, none of which announces an end behind them, shows the
scan the same records, unless the zeros make something of the torn end. -/
theorem sameRecords_of_covered {bytes : Bytes} {last : Nat}
    (h : lastValid X bytes.length bytes 0 = .ok last) (hContained : Contained X bytes last)
    (hCovered : last ≤ n) (hTail : Stops X (zeroFilled (n - last) (bytes.drop last))) :
    SameRecords X bytes (zeroFilled n bytes) := by
  obtain ⟨fs, tail, hBytes, -, hStops, hLast, -, -, hEnds⟩ := lastValid_ok (Nat.le_refl _) h
  rw [Nat.zero_add] at hLast
  have hLe : last ≤ bytes.length := by
    rw [hBytes, List.length_append, hLast, span]
    omega
  have hTake : bytes.take last = flat fs := by
    rw [hBytes, hLast]
    exact List.take_left' rfl
  have hDrop : bytes.drop last = tail := by
    rw [hBytes, hLast]
    exact List.drop_left' rfl
  have hGiven : zeroFilled n bytes = flat fs ++ zeroFilled (n - last) tail := by
    rw [← List.take_append_drop last (zeroFilled n bytes), zeroFilled_take hLe, zeroFilled_drop hLe,
      hTake, hDrop, zeroFilled_of_le]
    rw [← hTake]
    exact Nat.le_trans (List.length_take_le _ _) hCovered
  rw [hDrop] at hTail
  rw [hGiven]
  conv => lhs; rw [hBytes]
  exact sameRecords_flat (hEnds.mp hContained) (zeroFilled_length _ _) hStops hTail

/-! ## And they are necessary -/

/-- Behind a record whose size changed there are only zeros. -/
theorem decode_zeroFilled_rest (hWhole : Record.decode X whole = .ok (r, rest))
    (hGiven : Record.decode X (zeroFilled n whole) = .ok (r', rest'))
    (hSmall : whole.length ≤ 2 ^ 32 - 2 ^ 24) :
    (rest'.length = rest.length ∧ rest' = zeroFilled (n - (whole.length - rest.length)) rest) ∨
      (rest.length < rest'.length ∧ rest' = List.replicate rest'.length 0) := by
  obtain ⟨hRest, hLt⟩ := Record.decode_rest hWhole
  obtain ⟨hRest', hLt'⟩ := Record.decode_rest hGiven
  rw [zeroFilled_length] at hRest' hLt'
  rw [zeroFilled_drop (by omega)] at hRest'
  by_cases hSame : rest'.length = rest.length
  · left
    refine ⟨hSame, ?_⟩
    conv => lhs; rw [hRest', hSame, ← hRest]
  · right
    obtain ⟨hGone, hLonger⟩ := Record.decode_zeroFilled_size hWhole hGiven hSmall hSame
    refine ⟨hLonger, ?_⟩
    rw [Nat.sub_eq_zero_of_le hGone, zeroFilled_zero, List.length_drop,
      Nat.sub_sub_self (by omega)] at hRest'
    exact hRest'

/-- A scan ends at the same position only if it reads the same records. -/
theorem sameRecords_of_lastValid {pos k : Nat} (hSmall : whole.length ≤ 2 ^ 32 - 2 ^ 24)
    (hFuel : whole.length ≤ fuel) (hWhole : lastValid X fuel whole pos = .ok k)
    (hGiven : lastValid X fuel (zeroFilled n whole) pos = .ok k) :
    SameRecords X whole (zeroFilled n whole) := by
  have hLen := zeroFilled_length n whole
  induction fuel generalizing whole n pos with
  | zero =>
    obtain rfl := List.eq_nil_of_length_eq_zero (Nat.le_zero.mp hFuel)
    obtain hNil := List.eq_nil_of_length_eq_zero hLen
    rw [hNil]
    exact SameRecords.refl X []
  | succ fuel ih =>
    rcases decode_cases X whole with ⟨r, rest, hDecode⟩ | hStops | hRefuses
    · have hLt := (Record.decode_rest hDecode).2
      rw [lastValid_record hDecode] at hWhole
      have hEnd := le_of_lastValid (show rest.length ≤ fuel by omega) hWhole
      rcases decode_cases X (zeroFilled n whole) with ⟨r', rest', hDecode'⟩ | hStops' | hRefuses'
      · rw [lastValid_record hDecode', hLen] at hGiven
        rcases decode_zeroFilled_rest hDecode hDecode' hSmall with ⟨hSize, hRest⟩ | ⟨hLonger, hZeros⟩
        · rw [hSize] at hGiven
          refine .record hDecode hDecode' hSize ?_
          rw [hRest] at hGiven ⊢
          exact ih (by omega) (by omega) hWhole hGiven (zeroFilled_length _ rest)
        · -- the scan would stop before the end of the first record
          rw [hZeros, lastValid_stops (stops_zeros X _)] at hGiven
          have hEq := Res.ok.inj hGiven
          have hLt' := (Record.decode_rest hDecode').2
          rw [← hZeros] at hEq
          omega
      · rw [lastValid_stops hStops'] at hGiven
        have hEq := Res.ok.inj hGiven
        omega
      · exact absurd hGiven (lastValid_refuses hRefuses' (hLen.symm ▸ hFuel) pos k)
    · rcases decode_cases X (zeroFilled n whole) with ⟨r', rest', hDecode'⟩ | hStops' | hRefuses'
      · have hLt' := (Record.decode_rest hDecode').2
        rw [lastValid_stops hStops] at hWhole
        rw [lastValid_record hDecode'] at hGiven
        have hEnd := le_of_lastValid (show rest'.length ≤ fuel by omega) hGiven
        have hEq := Res.ok.inj hWhole
        omega
      · exact .stops hStops hStops'
      · exact absurd hGiven (lastValid_refuses hRefuses' (hLen.symm ▸ hFuel) pos k)
    · exact absurd hWhole (lastValid_refuses hRefuses hFuel pos k)

/-- A replay that succeeds on both buffers has read the same records. -/
theorem sameRecords_of_recordSizes {ns ns' : List Nat} (hSmall : whole.length ≤ 2 ^ 32 - 2 ^ 24)
    (hFuel : whole.length ≤ fuel) (hWhole : recordSizes X fuel whole = .ok ns)
    (hGiven : recordSizes X fuel (zeroFilled n whole) = .ok ns') :
    SameRecords X whole (zeroFilled n whole) := by
  have hLen := zeroFilled_length n whole
  induction fuel generalizing whole n ns ns' with
  | zero =>
    obtain rfl := List.eq_nil_of_length_eq_zero (Nat.le_zero.mp hFuel)
    obtain hNil := List.eq_nil_of_length_eq_zero hLen
    rw [hNil]
    exact SameRecords.refl X []
  | succ fuel ih =>
    by_cases hNil : whole = []
    · obtain rfl := hNil
      obtain hNil := List.eq_nil_of_length_eq_zero hLen
      rw [hNil]
      exact SameRecords.refl X []
    have hFirst : ∀ {bytes : Bytes} {ms : List Nat}, bytes.length = whole.length →
        recordSizes X (fuel + 1) bytes = .ok ms →
        ∃ r rest, Record.decode X bytes = .ok (r, rest) := by
      intro bytes ms hBytes hOk
      by_contra hNone
      refine recordSizes_not_ok (fun p hp => hNone ⟨p.1, p.2, hp⟩) ?_ (hBytes.symm ▸ hFuel) ms hOk
      rintro rfl
      exact hNil (List.eq_nil_of_length_eq_zero hBytes.symm)
    obtain ⟨r, rest, hDecode⟩ := hFirst rfl hWhole
    obtain ⟨r', rest', hDecode'⟩ := hFirst hLen hGiven
    have hLt := (Record.decode_rest hDecode).2
    rw [recordSizes_record hDecode] at hWhole
    rw [recordSizes_record hDecode'] at hGiven
    obtain ⟨ms, hRestWhole, -⟩ := Res.bind_eq_ok.mp hWhole
    obtain ⟨ms', hRestGiven, -⟩ := Res.bind_eq_ok.mp hGiven
    rcases decode_zeroFilled_rest hDecode hDecode' hSmall with ⟨hSize, hRest⟩ | ⟨hLonger, hZeros⟩
    · refine .record hDecode hDecode' hSize ?_
      rw [hRest] at hRestGiven ⊢
      exact ih (by omega) (by omega) hRestWhole hRestGiven (zeroFilled_length _ rest)
    · -- zeros are left over, and they are no record
      have hLt' := (Record.decode_rest hDecode').2
      refine absurd hRestGiven (recordSizes_not_ok ?_ ?_ (by omega) ms')
      · rw [hZeros]
        exact (stops_zeros X _).not_ok
      · rintro rfl
        simp at hLonger

/-! ## What a search has to be given -/

/-- How many bytes of `slice` the search for `offset` has to be given, `current` being the offset
of the first record: both ends of the record searched for, or none if there is no such record and
the search would end quietly. -/
def searchNeed (X : Crates) (offset : Nat) : Nat → Bytes → Nat → Nat
  | 0, _, _ => 0
  | fuel + 1, slice, current =>
    match Record.decode X slice with
    | .ok (_, rest) =>
      let size := slice.length - rest.length
      let announcedEnd := 4 + Record.announced slice
      if current = offset then max announcedEnd size
      else
        let further := searchNeed X offset fuel rest (current + 1)
        if further = 0 ∧ size ≤ announcedEnd then 0 else max announcedEnd (size + further)
    | .err (.truncated _) => 0
    | _ => slice.length

theorem findRecord_record (h : Record.decode X slice = .ok (r, rest)) (offset fuel current : Nat) :
    findRecord X offset (fuel + 1) slice current =
      if current = offset then .ok (some r) else findRecord X offset fuel rest (current + 1) := by
  rw [findRecord, ne_nil_of_decode h, h]
  rfl

theorem findRecord_torn {m : Nat} (h : Record.decode X slice = .err (.truncated m))
    (offset fuel current : Nat) : findRecord X offset fuel slice current = .ok none := by
  cases fuel with
  | zero => rfl
  | succ fuel =>
    rw [findRecord, h]
    split <;> rfl

theorem searchNeed_record (h : Record.decode X slice = .ok (r, rest)) (offset fuel current : Nat) :
    searchNeed X offset (fuel + 1) slice current =
      if current = offset then max (4 + Record.announced slice) (slice.length - rest.length)
      else if searchNeed X offset fuel rest (current + 1) = 0 ∧
          slice.length - rest.length ≤ 4 + Record.announced slice then 0
        else max (4 + Record.announced slice)
          (slice.length - rest.length + searchNeed X offset fuel rest (current + 1)) := by
  rw [searchNeed, h]

/-- A buffer that starts with neither a record nor a torn one is needed as it is. -/
theorem searchNeed_other (hOk : ∀ p, Record.decode X slice ≠ .ok p)
    (hTorn : ∀ m, Record.decode X slice ≠ .err (.truncated m)) (offset fuel current : Nat) :
    searchNeed X offset (fuel + 1) slice current = slice.length := by
  rw [searchNeed]
  split
  · next hDecode => exact absurd hDecode (hOk _)
  · next hDecode => exact absurd hDecode (hTorn _)
  · rfl

theorem findRecord_other (hOk : ∀ p, Record.decode X slice ≠ .ok p)
    (offset fuel fuel' current : Nat) :
    findRecord X offset (fuel + 1) slice current =
      findRecord X offset (fuel' + 1) slice current := by
  rw [findRecord, findRecord]
  cases hDecode : Record.decode X slice with
  | ok p => exact absurd hDecode (hOk p)
  | err e => cases e <;> rfl
  | panic m => rfl
  | crash => rfl

/-- The three ways in which a search goes on. -/
theorem search_cases (X : Crates) (slice : Bytes) :
    (∃ r rest, Record.decode X slice = .ok (r, rest)) ∨
      (∃ m, Record.decode X slice = .err (.truncated m)) ∨
      ((∀ p, Record.decode X slice ≠ .ok p) ∧
        ∀ m, Record.decode X slice ≠ .err (.truncated m)) := by
  by_cases hOk : ∃ r rest, Record.decode X slice = .ok (r, rest)
  · exact Or.inl hOk
  by_cases hTorn : ∃ m, Record.decode X slice = .err (.truncated m)
  · exact Or.inr (Or.inl hTorn)
  · exact Or.inr (Or.inr ⟨fun p hp => hOk ⟨p.1, p.2, hp⟩, fun m hm => hTorn ⟨m, hm⟩⟩)

theorem searchNeed_le_length (X : Crates) (offset fuel : Nat) (slice : Bytes) (current : Nat) :
    searchNeed X offset fuel slice current ≤ slice.length := by
  induction fuel generalizing slice current with
  | zero => exact Nat.zero_le _
  | succ fuel ih =>
    rcases search_cases X slice with ⟨r, rest, hDecode⟩ | ⟨m, hTorn⟩ | ⟨hOk, hTorn⟩
    · have hLt := (Record.decode_rest hDecode).2
      have hEnd := Record.announced_le hDecode
      have hRest := ih rest (current + 1)
      rw [searchNeed_record hDecode]
      split
      · omega
      split
      · exact Nat.zero_le _
      · omega
    · rw [searchNeed, hTorn]
      exact Nat.zero_le _
    · exact Nat.le_of_eq (searchNeed_other hOk hTorn offset fuel current)

/-- Given as much as it needs, a search ends as if it were given everything. -/
theorem findRecord_take {offset fuel' current : Nat} (hFuel : slice.length ≤ fuel)
    (hFuel' : (slice.take n).length ≤ fuel')
    (hNeed : searchNeed X offset fuel slice current ≤ n) :
    findRecord X offset fuel' (slice.take n) current = findRecord X offset fuel slice current := by
  induction fuel generalizing slice n fuel' current with
  | zero =>
    obtain rfl := List.eq_nil_of_length_eq_zero (Nat.le_zero.mp hFuel)
    rw [List.take_nil, findRecord_torn (Record.decode_nil X), findRecord_torn (Record.decode_nil X)]
  | succ fuel ih =>
    rcases search_cases X slice with ⟨r, rest, hDecode⟩ | ⟨m, hTorn⟩ | ⟨hOk, hTorn⟩
    · have hLt := (Record.decode_rest hDecode).2
      rw [searchNeed_record hDecode] at hNeed
      rw [findRecord_record hDecode]
      -- the rest of the search, if the first record is whole
      have hWhole : 4 + Record.announced slice ≤ n → slice.length - rest.length ≤ n →
          (current ≠ offset → searchNeed X offset fuel rest (current + 1) ≤
            n - (slice.length - rest.length)) →
          findRecord X offset fuel' (slice.take n) current =
            if current = offset then .ok (some r)
            else findRecord X offset fuel rest (current + 1) := by
        intro hAnnounced hSize hFurther
        have hTake := Record.decode_take hDecode hSize hAnnounced
        have hLt' := (Record.decode_rest hTake).2
        obtain ⟨fuel', rfl⟩ : ∃ m, fuel' = m + 1 := ⟨fuel' - 1, by omega⟩
        rw [findRecord_record hTake]
        split
        · rfl
        · next hOther => exact ih (by omega) (by omega) (hFurther hOther)
      by_cases hHere : current = offset
      · rw [if_pos hHere] at hNeed
        exact hWhole (by omega) (by omega) (fun hOther => absurd hHere hOther)
      rw [if_neg hHere] at hNeed
      split at hNeed
      · next hQuiet =>
        by_cases hCut : n < 4 + Record.announced slice
        · -- the rest of the slice would not have found anything either
          obtain ⟨m, hTorn⟩ := Record.decode_take_torn hDecode hCut
          have hNothing : findRecord X offset 0 (rest.take 0) (current + 1) =
              findRecord X offset fuel rest (current + 1) :=
            ih (by omega) (by simp) (Nat.le_of_eq hQuiet.1)
          rw [findRecord_torn hTorn, if_neg hHere, ← hNothing, findRecord]
        · exact hWhole (by omega) (by omega) (fun _ => by omega)
      · exact hWhole (by omega) (by omega) (fun _ => by omega)
    · obtain ⟨needed, hTorn'⟩ := Record.decode_take_of_torn hTorn n
      rw [findRecord_torn hTorn', findRecord_torn hTorn]
    · rw [searchNeed_other hOk hTorn] at hNeed
      rw [List.take_of_length_le hNeed] at hFuel' ⊢
      have hPos : 0 < slice.length := by
        rw [List.length_pos_iff]
        rintro rfl
        exact hTorn 4 (Record.decode_nil X)
      obtain ⟨fuel', rfl⟩ : ∃ m, fuel' = m + 1 := ⟨fuel' - 1, by omega⟩
      exact findRecord_other hOk offset fuel' fuel current

/-- A search that finds its record although bytes are missing was given what it needs. -/
theorem searchNeed_le {offset fuel' current : Nat} (hFuel : slice.length ≤ fuel)
    (hFound : findRecord X offset fuel' (slice.take n) current = .ok (some r)) :
    searchNeed X offset fuel slice current ≤ n := by
  induction fuel generalizing slice n fuel' current with
  | zero => exact Nat.zero_le _
  | succ fuel ih =>
    cases fuel' with
    | zero => cases hFound
    | succ fuel' =>
      rcases search_cases X (slice.take n) with ⟨r', rest, hDecode⟩ | ⟨m, hTorn⟩ | ⟨hOk, hTorn⟩
      · obtain ⟨hWhole, hEnd, hSize, hRest⟩ := Record.decode_of_take hDecode
        have hLt := (Record.decode_rest hWhole).2
        rw [findRecord_record hDecode] at hFound
        rw [searchNeed_record hWhole]
        split at hFound
        · next hHere =>
          rw [if_pos hHere]
          omega
        · next hOther =>
          rw [hRest] at hFound
          have hFurther := ih (by omega) hFound
          rw [if_neg hOther]
          split
          · exact Nat.zero_le _
          · omega
      · rw [findRecord_torn hTorn] at hFound
        cases hFound
      · rw [findRecord] at hFound
        split at hFound
        · cases hFound
        · split at hFound
          · next hDecode => exact absurd hDecode (hOk _)
          all_goals cases hFound

end Log

end Kafko
