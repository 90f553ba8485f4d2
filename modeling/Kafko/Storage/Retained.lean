import Kafko.Storage.Collisions
import Kafko.Storage.Oversized
import Kafko.Storage.ShortReads

/-!
# What a retention pass keeps

The two loops of `applyRetention` stop for different reasons over the same shrinking list. The
first removes segments older than a cutoff, the second segments that keep the total above the
limit; together they remove the longer of two prefixes, each of which has a description that does
not mention the other (`retiredCount`).

Reads in what is left find the same segment as before. A read in what was removed is sent to the
oldest segment left and decodes all of it, so it is answered by the bytes of other records.
-/

namespace Kafko

open Disk

namespace Log

/-! ## The prefix -/

/-- The clock and the modification times stand still. -/
structure Frozen (env : Env FileName) (now : Int) (mtime : FileName → Int) : Prop where
  clock : ∀ tick, env.clock tick = now
  mtime : ∀ tick name, env.mtime tick name = mtime name

/-- Whether the segment at `k` was modified at the cutoff or later. -/
def notOlder (cutoff : Int) (mtime : FileName → Int) (segments : List IndexedSegment)
    (k : Nat) : Bool :=
  (segments[k]?).all fun p => decide (cutoff ≤ epochMillis (mtime p.segment.path))

/-- Whether the segments from `k` on are within the limit. -/
def withinLimit (maxBytes : Nat) (segments : List IndexedSegment) (k : Nat) : Bool :=
  decide (((segments.drop k).map fun p => p.segment.size).sum ≤ maxBytes)

/-- The least index of a segment that is not older than the cutoff; the last segment counts as
one. -/
def agedCount (log : Log) (now : Int) (mtime : FileName → Int) : Nat :=
  match log.config.maxSegmentAge with
  | none => 0
  | some maxAge => leastBelow (log.segments.length - 1)
      (notOlder (epochMillis now - maxAge.asMillis) mtime log.segments)

/-- The least index from which on the segments are within the limit; the last segment counts as
one. -/
def excessCount (log : Log) : Nat :=
  match log.config.maxPartitionBytes with
  | none => 0
  | some maxBytes => leastBelow (log.segments.length - 1) (withinLimit maxBytes log.segments)

def retiredCount (log : Log) (now : Int) (mtime : FileName → Int) : Nat :=
  max (log.agedCount now mtime) log.excessCount

theorem agedCount_lt {log : Log} (hNe : log.segments ≠ []) (now : Int)
    (mtime : FileName → Int) : log.agedCount now mtime < log.segments.length := by
  have hPos := List.length_pos_iff.mpr hNe
  unfold agedCount
  split
  · exact hPos
  · exact Nat.lt_of_le_of_lt (leastBelow_le _ _) (by omega)

theorem excessCount_le (log : Log) : log.excessCount ≤ log.segments.length - 1 := by
  unfold excessCount
  split
  · exact Nat.zero_le _
  · exact leastBelow_le _ _

theorem excessCount_lt {log : Log} (hNe : log.segments ≠ []) :
    log.excessCount < log.segments.length :=
  Nat.lt_of_le_of_lt log.excessCount_le (Nat.sub_one_lt_of_lt (List.length_pos_iff.mpr hNe))

theorem retiredCount_lt {log : Log} (hNe : log.segments ≠ []) (now : Int)
    (mtime : FileName → Int) : log.retiredCount now mtime < log.segments.length :=
  Nat.max_lt.mpr ⟨agedCount_lt hNe now mtime, excessCount_lt hNe⟩

theorem withinLimit_succ {maxBytes : Nat} {segments : List IndexedSegment} (k : Nat)
    (h : withinLimit maxBytes segments k = true) : withinLimit maxBytes segments (k + 1) = true := by
  unfold withinLimit at *
  rw [decide_eq_true_eq] at *
  refine Nat.le_trans ?_ h
  rw [← List.drop_drop]
  cases segments.drop k with
  | nil => exact Nat.le_refl _
  | cons p ps => simp

/-- Behind the first `a` segments the excess is counted on. -/
theorem max_excessCount {log : Log} {maxBytes a : Nat}
    (hMax : log.config.maxPartitionBytes = some maxBytes) (hLe : a ≤ log.segments.length - 1) :
    max a log.excessCount = a + leastBelow ((log.segments.drop a).length - 1)
      (withinLimit maxBytes (log.segments.drop a)) := by
  have hTail : (fun k => withinLimit maxBytes log.segments (a + k)) =
      withinLimit maxBytes (log.segments.drop a) := by
    funext k
    simp [withinLimit, List.drop_drop]
  have hLen : (log.segments.drop a).length - 1 = log.segments.length - 1 - a := by
    rw [List.length_drop]
    omega
  rw [excessCount, hMax, hLen, ← hTail]
  exact (add_leastBelow hLe withinLimit_succ).symm

theorem excessCount_none {log : Log} (hMax : log.config.maxPartitionBytes = none) :
    log.excessCount = 0 := by
  rw [excessCount, hMax]

/-- `i64` saturation does not change which times lie before a cutoff. -/
theorem lt_saturatingSub_iff {now age t : Int} (hNow : now < 2 ^ 63) (hAge : 0 ≤ age)
    (hTime : -2 ^ 63 ≤ t) : t < saturatingSub now age ↔ ¬ now - age ≤ t := by
  unfold saturatingSub
  omega

theorem epochMillis_bounds (t : Int) : -2 ^ 63 ≤ epochMillis t ∧ epochMillis t < 2 ^ 63 := by
  unfold epochMillis
  split
  · omega
  · have hLow := Int.le_bmod (x := t) (m := 2 ^ 64) (by decide)
    have hHigh := Int.bmod_lt (x := t) (m := 2 ^ 64) (by decide)
    omega

/-! ## The loops -/

/-- The files of these base offsets, and only these, are gone. -/
structure Pruned (d d' : Store FileName) (bases : List Nat) : Prop where
  gone : ∀ b ∈ bases, d'.get (.log b) = none ∧ d'.get (.index b) = none
  others : ∀ name, (∀ b ∈ bases, name ≠ .log b ∧ name ≠ .index b) → d'.get name = d.get name

theorem Pruned.of_same {d d' : Store FileName} (h : ∀ name, d'.get name = d.get name) :
    Pruned d d' [] :=
  ⟨fun _ hb => (List.not_mem_nil hb).elim, fun name _ => h name⟩

theorem Pruned.append {d d' d'' : Store FileName} {bases bases' : List Nat}
    (h : Pruned d d' bases) (h' : Pruned d' d'' bases') : Pruned d d'' (bases ++ bases') := by
  -- a file that is gone stays gone, whether or not it is removed again
  have hStays : ∀ name, d'.get name = none → (∀ b ∈ bases', name = .log b ∨ name = .index b →
      d''.get name = none) → d''.get name = none := by
    intro name hNone hAgain
    by_cases hIn : ∃ b ∈ bases', name = .log b ∨ name = .index b
    · obtain ⟨b, hb, hName⟩ := hIn
      exact hAgain b hb hName
    · rw [h'.others name ?_, hNone]
      intro b hb
      exact ⟨fun hEq => hIn ⟨b, hb, Or.inl hEq⟩, fun hEq => hIn ⟨b, hb, Or.inr hEq⟩⟩
  have hAgain : ∀ name b, b ∈ bases' → name = .log b ∨ name = .index b → d''.get name = none := by
    intro name b hb hName
    rcases hName with rfl | rfl
    · exact (h'.gone b hb).1
    · exact (h'.gone b hb).2
  refine ⟨?_, ?_⟩
  · intro b hb
    rcases List.mem_append.mp hb with hb | hb
    · exact ⟨hStays _ (h.gone b hb).1 fun b' hb' => hAgain _ b' hb',
        hStays _ (h.gone b hb).2 fun b' hb' => hAgain _ b' hb'⟩
    · exact h'.gone b hb
  · intro name hName
    rw [h'.others name fun b hb => hName b (List.mem_append_right _ hb),
      h.others name fun b hb => hName b (List.mem_append_left _ hb)]

theorem Removed.pruned {d d' : Store FileName} {base : Nat} (h : Removed d d' base) :
    Pruned d d' [base] := by
  refine ⟨?_, ?_⟩
  · intro b hb
    rw [List.mem_singleton.mp hb]
    exact ⟨h.log, h.index⟩
  · intro name hName
    obtain ⟨hLog, hIndex⟩ := hName base (List.mem_singleton_self _)
    exact h.others name hLog hIndex

/-- The base offsets of the first `n` segments. -/
def firstBases (log : Log) (n : Nat) : List Nat :=
  (log.segments.take n).map fun p => p.segment.baseOffset

theorem firstBases_cons {log : Log} {p : IndexedSegment} {rest : List IndexedSegment}
    (hSegments : log.segments = p :: rest) (n : Nat) :
    log.firstBases (n + 1) =
      p.segment.baseOffset :: firstBases { log with segments := rest } n := by
  rw [firstBases, hSegments]
  rfl

theorem firstBases_add (log : Log) (m n : Nat) :
    log.firstBases (m + n) =
      log.firstBases m ++ firstBases { log with segments := log.segments.drop m } n := by
  rw [firstBases, List.take_add, List.map_append]
  rfl

/-- A pass that removes the first `n` segments and returns their number. -/
def prunePost (exact : Prop) (log : Log) (d : Store FileName) (n : Nat) :
    Post FileName KafkoError Log Nat where
  ok := fun count log' w' => count = n ∧ log' = { log with segments := log.segments.drop n } ∧
    StandsStill exact log' w'.store ∧ Pruned d w'.store (log.firstBases n)
  err := fun _ _ _ => False
  panic := fun _ _ _ => False
  crash := fun _ _ => False

variable {exact : Prop} {env : Env FileName} {log : Log} {w : World FileName} {X : Crates}
  {now : Int} {mtime : FileName → Int}

theorem prunePost_zero {d : Store FileName} (h : StandsStill exact log w.store)
    (hSame : ∀ name, w.store.get name = d.get name) :
    wp env (pure 0) (prunePost exact log d 0) log w :=
  ⟨rfl, rfl, h, Pruned.of_same hSame⟩

/-- One removal, then the rest of a loop. -/
theorem wp_deleteThen_prunes (hSmooth : env.Smooth) (h : StandsStill exact log w.store)
    {d : Store FileName} (hSame : ∀ name, w.store.get name = d.get name) {p : IndexedSegment}
    {rest : List IndexedSegment} (hSegments : log.segments = p :: rest) (hRest : rest ≠ [])
    {n : Nat} {loop : LogIO Log Nat}
    (hLoop : ∀ w' : World FileName, StandsStill exact { log with segments := rest } w'.store →
      wp env loop (prunePost exact { log with segments := rest } w'.store n)
        { log with segments := rest } w') :
    wp env (do
        deleteOldestSegment
        let deleted ← loop
        pure (deleted + 1))
      (prunePost exact log d (n + 1)) log w := by
  refine wp_bind_of (deleteOldestSegment_stands h hSegments hRest) ?_
    (fun _ _ _ hE => absurd hSmooth hE.1) (fun _ _ _ hF => hF) (fun _ _ hC => absurd hSmooth hC.1)
  rintro - log' w' ⟨rfl, hStands, hRemoved⟩
  refine wp_bind_of (hLoop w' hStands) ?_ (fun _ _ _ hF => hF) (fun _ _ _ hF => hF)
    (fun _ _ hF => hF)
  rintro count log'' w'' ⟨rfl, rfl, hStands', hPruned⟩
  have hFirst : Pruned d w'.store [p.segment.baseOffset] := by
    refine Removed.pruned ⟨(hRemoved hSmooth).log, (hRemoved hSmooth).index, ?_⟩
    intro name hLog hIndex
    rw [(hRemoved hSmooth).others name hLog hIndex, hSame]
  refine ⟨rfl, ?_, hStands', ?_⟩
  · rw [hSegments, List.drop_succ_cons]
  · have hAll := hFirst.append hPruned
    rw [firstBases_cons hSegments]
    exact hAll

theorem deleteByAge_prunes (cutoff : Int) {fuel : Nat} (hSmooth : env.Smooth)
    (hFrozen : Frozen env now mtime) (h : StandsStill exact log w.store)
    (hFuel : log.segments.length ≤ fuel) :
    wp env (deleteByAge cutoff fuel) (prunePost exact log w.store
      (leastBelow (log.segments.length - 1) (notOlder cutoff mtime log.segments))) log w := by
  induction fuel generalizing log w with
  | zero =>
    have hNe := List.length_pos_iff.mpr h.standing.nonempty
    omega
  | succ fuel ih =>
    rw [deleteByAge, wp_get_bind]
    split
    · next oldest second rest hSegments =>
      have hLen : log.segments.length - 1 = rest.length + 1 := by simp [hSegments]
      rw [hLen, leastBelow_succ]
      refine wp_bind_of (lastModifiedMs_stands h (by simp [hSegments])) ?_
        (fun _ _ _ hE => absurd hSmooth hE.1) (fun _ _ _ hF => hF)
        (fun _ _ hC => absurd hSmooth hC.1)
      rintro t log' w' ⟨rfl, hSame, rfl, hStands⟩
      rw [hFrozen.mtime]
      have hFirst : notOlder cutoff mtime log'.segments 0 =
          decide (cutoff ≤ epochMillis (mtime oldest.segment.path)) := by
        simp [notOlder, hSegments]
      rw [hFirst]
      by_cases hOld : epochMillis (mtime oldest.segment.path) < cutoff
      · rw [if_pos hOld, decide_eq_false (by omega), if_neg (by simp)]
        apply wp_deleteThen_prunes hSmooth hStands hSame hSegments (List.cons_ne_nil _ _)
        intro w'' hStands'
        have hRest := ih hStands' (by
          rw [hSegments] at hFuel
          simpa using hFuel)
        have hTail : (fun k => notOlder cutoff mtime log'.segments (k + 1)) =
            notOlder cutoff mtime (second :: rest) := by
          funext k
          simp [notOlder, hSegments]
        rw [hTail]
        exact hRest
      · rw [if_neg hOld, decide_eq_true (by omega), if_pos rfl]
        exact prunePost_zero hStands hSame
    · next hFew =>
      have hLen : log.segments.length - 1 = 0 := by
        rcases hSegments : log.segments with _ | ⟨p, _ | ⟨q, rest⟩⟩
        · rfl
        · rfl
        · exact absurd hSegments (hFew p q rest)
      rw [hLen]
      exact prunePost_zero h fun _ => rfl

theorem deleteBySize_prunes (maxBytes : Nat) {fuel : Nat} (hSmooth : env.Smooth)
    (h : StandsStill exact log w.store) (hFuel : log.segments.length ≤ fuel) :
    wp env (deleteBySize maxBytes fuel) (prunePost exact log w.store
      (leastBelow (log.segments.length - 1) (withinLimit maxBytes log.segments))) log w := by
  induction fuel generalizing log w with
  | zero =>
    have hNe := List.length_pos_iff.mpr h.standing.nonempty
    omega
  | succ fuel ih =>
    rw [deleteBySize, wp_get_bind]
    obtain ⟨p, rest, hSegments⟩ := List.exists_cons_of_ne_nil h.standing.nonempty
    have hLen : log.segments.length = rest.length + 1 := by simp [hSegments]
    have hFirst : withinLimit maxBytes log.segments 0 = decide (log.totalSize ≤ maxBytes) := rfl
    split
    · next hCond =>
      obtain ⟨m, hm⟩ : ∃ m, rest.length = m + 1 := ⟨rest.length - 1, by omega⟩
      rw [hLen, Nat.add_sub_cancel, hm, leastBelow_succ, hFirst, decide_eq_false (by omega),
        if_neg (by simp)]
      have hRestNe : rest ≠ [] := by
        apply List.ne_nil_of_length_pos
        omega
      apply wp_deleteThen_prunes hSmooth h (fun _ => rfl) hSegments hRestNe
      intro w' hStands
      have hRest := ih hStands (by dsimp only; omega)
      have hTail : (fun k => withinLimit maxBytes log.segments (k + 1)) =
          withinLimit maxBytes rest := by
        funext k
        simp [withinLimit, hSegments]
      rw [hTail, show m = rest.length - 1 by omega]
      exact hRest
    · next hCond =>
      have hNone : leastBelow (log.segments.length - 1) (withinLimit maxBytes log.segments) = 0 := by
        apply leastBelow_eq (Nat.zero_le _) (fun k hk => by omega)
        intro hTwo
        rw [hFirst, decide_eq_true_eq]
        omega
      rw [hNone]
      exact prunePost_zero h fun _ => rfl

/-- A pass over the rest of a log that has already lost its first `m` segments. -/
theorem prunePost_add {d : Store FileName} {m n : Nat} {prog : LogIO Log Nat}
    (hPruned : Pruned d w.store (log.firstBases m))
    (h : wp env prog (prunePost exact { log with segments := log.segments.drop m } w.store n)
      { log with segments := log.segments.drop m } w) :
    wp env (do
        let count ← prog
        pure (m + count))
      (prunePost exact log d (m + n)) { log with segments := log.segments.drop m } w := by
  refine wp_bind_of h ?_ (fun _ _ _ hF => hF) (fun _ _ _ hF => hF) (fun _ _ hF => hF)
  rintro count log' w' ⟨rfl, rfl, hStands, hRest⟩
  refine ⟨rfl, ?_, hStands, ?_⟩
  · rw [List.drop_drop]
  · have hAll := hPruned.append hRest
    rw [firstBases_add]
    exact hAll

/-- The largest age the program can represent. -/
def AgeFits (config : LogConfig) : Prop :=
  ∀ maxAge, config.maxSegmentAge = some maxAge → maxAge.asMillis ≤ 2 ^ 63 - 1

theorem cutoff_eq {age : Nat} (hAge : age ≤ 2 ^ 63 - 1) : (age : Int).bmod (2 ^ 64) = age := by
  refine Int.bmod_eq_of_le ?_ ?_ <;> omega

/-- The predicate of the age loop, with the cutoff as the program computes it. -/
theorem notOlder_saturatingSub {age : Nat} (segments : List IndexedSegment) :
    notOlder (saturatingSub (epochMillis now) age) mtime segments =
      notOlder (epochMillis now - age) mtime segments := by
  have hIff : ∀ t, saturatingSub (epochMillis now) age ≤ epochMillis t ↔
      epochMillis now - age ≤ epochMillis t := by
    intro t
    have hSat := lt_saturatingSub_iff (epochMillis_bounds now).2 (Int.natCast_nonneg age)
      (epochMillis_bounds t).1
    rw [← not_lt, hSat, not_not]
  funext k
  simp only [notOlder, hIff]

/-- A retention pass during which no call fails. -/
theorem applyRetention_prunes (hSmooth : env.Smooth) (hFrozen : Frozen env now mtime)
    (hAge : AgeFits log.config) (h : StandsStill exact log w.store) :
    wp env applyRetention (prunePost exact log w.store (log.retiredCount now mtime)) log w := by
  have hLt := agedCount_lt h.standing.nonempty now mtime
  refine wp_applyRetention (P := (prunePost exact log w.store (log.agedCount now mtime)).ok)
    ?_ ?_ ?_ ?_
  · intro hMaxAge
    have hNone : log.agedCount now mtime = 0 := by rw [agedCount, hMaxAge]
    rw [hNone]
    exact ⟨rfl, rfl, h, Pruned.of_same fun _ => rfl⟩
  · intro maxAge hMaxAge
    have hCount : log.agedCount now mtime = leastBelow (log.segments.length - 1)
        (notOlder (saturatingSub (epochMillis now) maxAge.asMillis) mtime log.segments) := by
      rw [notOlder_saturatingSub, agedCount, hMaxAge]
    rw [hCount, cutoff_eq (hAge maxAge hMaxAge), hFrozen.clock]
    exact deleteByAge_prunes _ hSmooth hFrozen h (Nat.le_refl _)
  · rintro byAge log' w' ⟨rfl, rfl, hStands, hPruned⟩ hMax
    have hNone : log.excessCount = 0 := excessCount_none hMax
    rw [retiredCount, hNone, Nat.max_eq_left (Nat.zero_le _)]
    exact ⟨rfl, rfl, hStands, hPruned⟩
  · -- the second loop, behind the segments that the first one has removed
    rintro byAge log' w' maxBytes ⟨rfl, rfl, hStands, hPruned⟩ hMax
    have hSum := @max_excessCount log maxBytes _ hMax (Nat.le_sub_one_of_lt hLt)
    rw [retiredCount, hSum]
    exact prunePost_add hPruned (deleteBySize_prunes maxBytes hSmooth hStands (Nat.le_refl _))

/-- A second pass finds nothing to remove if the segments are in the order of their ages. -/
theorem retiredCount_drop (hNe : log.segments ≠ [])
    (hOrder : (log.segments.map fun p => epochMillis (mtime p.segment.path)).Pairwise (· ≤ ·)) :
    retiredCount { log with segments := log.segments.drop (log.retiredCount now mtime) } now mtime =
      0 := by
  have hLt := retiredCount_lt hNe now mtime
  have hAged : log.agedCount now mtime ≤ log.retiredCount now mtime := Nat.le_max_left _ _
  have hExcess : log.excessCount ≤ log.retiredCount now mtime := Nat.le_max_right _ _
  generalize log.retiredCount now mtime = n at *
  have hLen : (log.segments.drop n).length - 1 = log.segments.length - 1 - n := by
    rw [List.length_drop]
    omega
  refine Nat.max_eq_zero_iff.mpr ⟨?_, ?_⟩
  · unfold agedCount at hAged ⊢
    cases hMaxAge : log.config.maxSegmentAge with
    | none => rfl
    | some maxAge =>
      rw [hMaxAge] at hAged
      dsimp only at hAged ⊢
      rw [hLen]
      apply leastBelow_eq (Nat.zero_le _) (fun k hk => by omega)
      intro hTwo
      have hHolds := leastBelow_holds (m := log.segments.length - 1)
        (P := notOlder (epochMillis now - maxAge.asMillis) mtime log.segments) (by omega)
      generalize leastBelow (log.segments.length - 1) _ = a at *
      have ha : log.segments[a]? = some log.segments[a] := List.getElem?_eq_getElem (by omega)
      have hn : log.segments[n]? = some log.segments[n] := List.getElem?_eq_getElem (by omega)
      simp only [notOlder, ha, Option.all_some, decide_eq_true_eq] at hHolds
      simp only [notOlder, List.getElem?_drop, Nat.add_zero, hn, Option.all_some,
        decide_eq_true_eq]
      rcases Nat.eq_or_lt_of_le hAged with rfl | hBefore
      · exact hHolds
      · have hLater := List.pairwise_iff_getElem.mp (List.pairwise_map.mp hOrder) a n (by omega)
          hLt hBefore
        omega
  · unfold excessCount at hExcess ⊢
    cases hMax : log.config.maxPartitionBytes with
    | none => rfl
    | some maxBytes =>
      rw [hMax] at hExcess
      dsimp only at hExcess ⊢
      rw [hLen]
      apply leastBelow_eq (Nat.zero_le _) (fun k hk => by omega)
      intro hTwo
      have hHolds := holds_of_leastBelow_le withinLimit_succ hExcess (by omega)
      simpa [withinLimit, List.drop_drop] using hHolds

/-! ## Reads -/

/-- A search finds the last segment that begins at or before the offset. -/
theorem findSegmentIndex_lastAtMost
    (hSorted : (log.segments.map fun p => p.segment.baseOffset).Pairwise (· < ·)) {offset : Nat}
    {p : IndexedSegment} (hp : p ∈ log.segments) (hLe : p.segment.baseOffset ≤ offset) :
    LastAtMost log.segments offset (fun p => p.segment.baseOffset)
      (log.findSegmentIndex offset) := by
  have hPairs := List.pairwise_map.mp hSorted
  unfold findSegmentIndex
  split
  · next hFound => exact lastAtMost_of_found hPairs hFound
  · next hAbsent =>
    have hGreater := all_greater_of_absent_zero hPairs hAbsent hp
    omega
  · next hAbsent => exact lastAtMost_of_absent hPairs hAbsent

/-- A search below all segments ends at the oldest one. -/
theorem findSegmentIndex_below
    (hSorted : (log.segments.map fun p => p.segment.baseOffset).Pairwise (· < ·)) {offset : Nat}
    (hBelow : ∀ p ∈ log.segments, offset < p.segment.baseOffset) :
    log.findSegmentIndex offset = 0 := by
  have hPairs := List.pairwise_map.mp hSorted
  have hNot : ∀ i, ¬ LastAtMost log.segments offset (fun p => p.segment.baseOffset) i := by
    rintro i ⟨⟨p, hp, hLe⟩, -⟩
    have hLt := hBelow p (List.mem_of_getElem? hp)
    dsimp only at hLe
    omega
  unfold findSegmentIndex
  split
  · next hFound => exact absurd (lastAtMost_of_found hPairs hFound) (hNot _)
  · rfl
  · next hAbsent => exact absurd (lastAtMost_of_absent hPairs hAbsent) (hNot _)

/-- The decode loop of a search runs through the bytes and meets no error but their end. -/
def legible (X : Crates) : Nat → Bytes → Bool
  | 0, _ => true
  | fuel + 1, slice =>
    if slice.isEmpty then true
    else match Record.decode X slice with
      | .ok (_, rest) => legible X fuel rest
      | .err (.truncated _) => true
      | _ => false

theorem findRecord_below {offset fuel current : Nat} {slice : Bytes} (hBelow : offset < current) :
    findRecord X offset fuel slice current = .ok none ↔ legible X fuel slice = true := by
  induction fuel generalizing slice current with
  | zero => simp [findRecord, legible]
  | succ fuel ih =>
    rw [findRecord, legible]
    split
    · simp
    · cases hDecode : Record.decode X slice with
      | ok decoded =>
        obtain ⟨record, rest⟩ := decoded
        dsimp only
        rw [if_neg (by omega)]
        exact ih (by omega)
      | err e => cases e <;> simp
      | panic m => simp
      | crash => simp

/-- The bytes of a segment's file. -/
def fileBytes (d : Store FileName) (p : IndexedSegment) : Bytes :=
  ((d.get p.segment.path).map File.data).getD []

/-- Whatever part of the segment a read call delivers, the decode loop runs through it. -/
def Legible (X : Crates) (d : Store FileName) (p : IndexedSegment) : Prop :=
  ∀ k, legible X ((fileBytes d p).take k).length ((fileBytes d p).take k) = true

/-- A search for an offset before the segment decodes all that is delivered of it. -/
theorem searchOf_below {p : IndexedSegment} {bytes : Bytes} {n : Nat → Nat} {offset : Nat}
    (hBelow : offset < p.index.baseOffset) (hSize : p.segment.size = bytes.length) :
    searchOf X p n bytes offset = .ok none ↔
      legible X (bytes.take (n bytes.length)).length (bytes.take (n bytes.length)) = true := by
  have hLookup : p.index.lookup offset = (0, p.index.baseOffset) := by
    rw [SparseIndex.lookup, if_pos hBelow]
  unfold searchOf
  rw [hLookup]
  dsimp only
  rw [Nat.sub_zero, hSize, List.drop_zero]
  split
  · next hEmpty =>
    obtain rfl := List.eq_nil_of_length_eq_zero hEmpty
    simp [legible]
  · exact findRecord_below hBelow

/-- A removed segment begins before every segment that is left. -/
theorem firstBases_lt (hSorted : (log.segments.map fun p => p.segment.baseOffset).Pairwise (· < ·))
    {n b : Nat} (hb : b ∈ log.firstBases n) {p : IndexedSegment} (hp : p ∈ log.segments.drop n) :
    b < p.segment.baseOffset := by
  obtain ⟨q, hq, rfl⟩ := List.mem_map.mp hb
  have hPairs := List.pairwise_map.mp hSorted
  rw [← List.take_append_drop n log.segments] at hPairs
  exact (List.pairwise_append.mp hPairs).2.2 q hq p hp

theorem oldestBase_le (hSorted : (log.segments.map fun p => p.segment.baseOffset).Pairwise (· < ·))
    {p : IndexedSegment} (hp : p ∈ log.segments) : log.oldestBase ≤ p.segment.baseOffset := by
  unfold oldestBase
  cases hSegments : log.segments with
  | nil => exact Nat.zero_le _
  | cons q rest =>
    rw [hSegments] at hp hSorted
    rcases List.mem_cons.mp hp with rfl | hp
    · exact Nat.le_refl _
    · exact Nat.le_of_lt ((List.pairwise_cons.mp (List.pairwise_map.mp hSorted)).1 p hp)

theorem oldestBase_drop {n : Nat} {p : IndexedSegment} (hp : log.segments[n]? = some p) :
    oldestBase { log with segments := log.segments.drop n } = p.segment.baseOffset := by
  have hDrop : log.segments.drop n = p :: log.segments.drop (n + 1) := by
    obtain ⟨hLt, rfl⟩ := List.getElem?_eq_some_iff.mp hp
    exact List.drop_eq_getElem_cons hLt
  simp [oldestBase, hDrop]

/-- The files of the remaining segments are untouched. -/
theorem pruned_path {d d' : Store FileName} {n : Nat} {p : IndexedSegment}
    (hSorted : (log.segments.map fun p => p.segment.baseOffset).Pairwise (· < ·))
    (hPruned : Pruned d d' (log.firstBases n)) (hp : p ∈ log.segments.drop n) :
    d'.get p.segment.path = d.get p.segment.path := by
  apply hPruned.others
  intro b hb
  have hLt := firstBases_lt hSorted hb hp
  refine ⟨?_, by simp [Segment.path]⟩
  intro hEq
  rw [Segment.path, FileName.log.injEq] at hEq
  omega

/-- A read in a remaining segment is answered by the same bytes as before. -/
theorem readOf_drop {d d' : Store FileName} {n offset : Nat}
    (hSorted : (log.segments.map fun p => p.segment.baseOffset).Pairwise (· < ·))
    (hPruned : Pruned d d' (log.firstBases n)) {first : IndexedSegment}
    (hFirst : log.segments[n]? = some first) (hFrom : first.segment.baseOffset ≤ offset)
    {f g : IndexedSegment → Nat → Nat} (hSame : ∀ p ∈ log.segments.drop n, f p = g p) :
    readOf X { log with segments := log.segments.drop n } d' g offset =
      readOf X log d f offset := by
  have hMem : first ∈ log.segments.drop n := by
    apply List.mem_of_getElem? (i := 0)
    rw [List.getElem?_drop]
    exact hFirst
  have hSorted' : ((log.segments.drop n).map fun p => p.segment.baseOffset).Pairwise (· < ·) := by
    rw [List.map_drop]
    exact hSorted.sublist (List.drop_sublist n _)
  have hRest := @findSegmentIndex_lastAtMost { log with segments := log.segments.drop n } hSorted'
    _ _ hMem hFrom
  have hWhole := findSegmentIndex_lastAtMost hSorted (List.mem_of_getElem? hFirst) hFrom
  have hIndex := hWhole.unique hRest.of_drop
  unfold readOf
  dsimp only
  rw [hIndex, List.getElem?_drop]
  split
  · rfl
  · cases hFound : log.segments[n + findSegmentIndex { log with segments := log.segments.drop n }
        offset]? with
    | none => rfl
    | some p =>
      have hp : p ∈ log.segments.drop n := by
        apply List.mem_of_getElem? (i := findSegmentIndex
          { log with segments := log.segments.drop n } offset)
        rw [List.getElem?_drop]
        exact hFound
      dsimp only
      rw [pruned_path hSorted hPruned hp, hSame p hp]

theorem fileBytes_pruned {d d' : Store FileName} {n : Nat} {p : IndexedSegment}
    (hSorted : (log.segments.map fun p => p.segment.baseOffset).Pairwise (· < ·))
    (hPruned : Pruned d d' (log.firstBases n)) (hp : p ∈ log.segments.drop n) :
    fileBytes d' p = fileBytes d p := by
  rw [fileBytes, fileBytes, pruned_path hSorted hPruned hp]

/-- A read before the oldest segment decodes what is delivered of that segment. -/
theorem readOf_below {d : Store FileName} (h : Standing True log d) {first : IndexedSegment}
    (hFirst : log.segments[0]? = some first) {offset : Nat}
    (hBelow : offset < first.segment.baseOffset) (n : IndexedSegment → Nat → Nat) :
    readOf X log d n offset = .ok none ↔
      legible X ((fileBytes d first).take (n first (fileBytes d first).length)).length
        ((fileBytes d first).take (n first (fileBytes d first).length)) = true := by
  have hMem : first ∈ log.segments := List.mem_of_getElem? hFirst
  have hAll : ∀ p ∈ log.segments, offset < p.segment.baseOffset := by
    intro p hp
    have hOldest := oldestBase_le h.sorted hp
    have hBase := oldestBase_drop hFirst
    rw [List.drop_zero] at hBase
    rw [hBase] at hOldest
    omega
  have hNext := h.upTo first hMem
  obtain ⟨g, hg, hExact⟩ := h.backed first hMem
  have hBytes : fileBytes d first = g.data := by
    rw [fileBytes, hg]
    rfl
  have hSize : first.segment.size = (fileBytes d first).length := by
    rw [hBytes]
    exact (hExact trivial).size
  rw [readOf, if_neg (by omega), findSegmentIndex_below h.sorted hAll, hFirst]
  dsimp only
  rw [← fileBytes]
  apply searchOf_below _ hSize
  rw [h.indexBase first hMem]
  exact hBelow

/-! ## The pass as a whole -/

/-- What is left of a log when its first `n` segments are removed. -/
structure KeptFrom (X : Crates) (log log' : Log) (w w' : World FileName) (n : Nat) : Prop where
  segments : log'.segments = log.segments.drop n
  files : Pruned w.store w'.store (log.firstBases n)
  nextOffset : log'.nextOffset = log.nextOffset
  reads : ∀ env₁ env₂ : Env FileName, env₁.Smooth → env₂.Smooth → ∀ offset,
    log'.oldestBase ≤ offset →
    (∀ p ∈ log'.segments, deliveredTo env₁ w offset p = deliveredTo env₂ w' offset p) →
    (readRecordAt X offset env₂ log' w').1 = (readRecordAt X offset env₁ log w).1
  gone : ∀ env₁ : Env FileName, env₁.Smooth → ∀ offset, log.oldestBase ≤ offset →
    offset < log'.oldestBase → (readRecordAt X offset env₁ log' w').1 = .ok none

/-- The pass removes the expected prefix and returns its length, and a second pass removes
nothing if the segments are in the order of their ages. -/
def RetainsExactly (X : Crates) (env : Env FileName) (now : Int) (mtime : FileName → Int)
    (log : Log) (w : World FileName) : Prop :=
  ∃ log' w', applyRetention env log w = (.ok (log.retiredCount now mtime), log', w') ∧
    KeptFrom X log log' w w' (log.retiredCount now mtime) ∧
    ((log.segments.map fun p => epochMillis (mtime p.segment.path)).Pairwise (· ≤ ·) →
      ∀ env₂ : Env FileName, env₂.Smooth → Frozen env₂ now mtime →
        ∃ w'', applyRetention env₂ log' w' = (.ok 0, log', w'') ∧
          ∀ name, w''.store.get name = w'.store.get name)

/-- The pass, run. -/
theorem applyRetention_run (h : StandsStill True log w.store) (hSmooth : env.Smooth)
    (hFrozen : Frozen env now mtime) (hAge : AgeFits log.config) :
    ∃ w', applyRetention env log w = (.ok (log.retiredCount now mtime),
        { log with segments := log.segments.drop (log.retiredCount now mtime) }, w') ∧
      StandsStill True { log with segments := log.segments.drop (log.retiredCount now mtime) }
        w'.store ∧
      Pruned w.store w'.store (log.firstBases (log.retiredCount now mtime)) := by
  have hSpec := applyRetention_prunes hSmooth hFrozen hAge h
  rcases hRun : applyRetention env log w with ⟨r, log', w'⟩
  rw [wp, hRun] at hSpec
  cases r with
  | ok count =>
    obtain ⟨rfl, rfl, hStands, hPruned⟩ := hSpec
    exact ⟨w', rfl, hStands, hPruned⟩
  | err e => exact hSpec.elim
  | panic m => exact hSpec.elim
  | crash => exact hSpec.elim

theorem handles_of_standing {d : Store FileName} (h : Standing True log d) :
    ∀ p ∈ log.segments, ∃ g, SegmentOk d p.segment g := by
  intro p hp
  obtain ⟨g, -, hExact⟩ := h.backed p hp
  exact ⟨g, hExact trivial⟩

/-- All read calls return at most `k` bytes. -/
def shortReads (k : Nat) : Env FileName := ⟨fun _ _ => .short k, fun _ => 0, fun _ _ => 0⟩

theorem smooth_shortReads (k : Nat) : (shortReads k).Smooth := fun _ _ => Or.inr ⟨k, rfl⟩

/-- All reads in the removed segments return nothing exactly if the oldest remaining segment can
be decoded. -/
theorem gone_iff {log' : Log} {w' : World FileName} (h : Standing True log' w'.store)
    {first : IndexedSegment} (hFirst : log'.segments[0]? = some first) {oldest : Nat}
    (hRemoved : oldest < first.segment.baseOffset) :
    (∀ env₁ : Env FileName, env₁.Smooth → ∀ offset, oldest ≤ offset →
        offset < log'.oldestBase → (readRecordAt X offset env₁ log' w').1 = .ok none) ↔
      Legible X w'.store first := by
  have hBase : log'.oldestBase = first.segment.baseOffset := by
    have hDrop := oldestBase_drop hFirst
    rwa [List.drop_zero] at hDrop
  have hHandles := handles_of_standing h
  constructor
  · intro hGone k
    have hNone := hGone (shortReads (max k 1)) (smooth_shortReads _) oldest (Nat.le_refl _)
      (by omega)
    rw [readRecordAt_result (smooth_shortReads _) hHandles, readOf_below h hFirst hRemoved] at hNone
    have hDelivered : deliveredTo (shortReads (max k 1)) w' oldest first
        (fileBytes w'.store first).length = min (fileBytes w'.store first).length (max k 1) := by
      change min _ (max (max k 1) 1) = _
      omega
    cases k with
    | zero => rfl
    | succ k =>
      have hTake : (fileBytes w'.store first).take
          (min (fileBytes w'.store first).length (max (k + 1) 1)) =
          (fileBytes w'.store first).take (k + 1) := by
        rw [List.take_eq_take_iff]
        omega
      rwa [hDelivered, hTake] at hNone
  · intro hLegible env₁ hSmooth₁ offset _ hBelow
    rw [hBase] at hBelow
    rw [readRecordAt_result hSmooth₁ hHandles, readOf_below h hFirst hBelow]
    exact hLegible _

/-- What the pass always does, and the one thing it may fail to do. -/
theorem retainsExactly_iff_gone (hSmooth : env.Smooth) (hFrozen : Frozen env now mtime)
    (hAge : AgeFits log.config) (h : StandsStill True log w.store) :
    RetainsExactly X env now mtime log w ↔ ∀ log' w',
      applyRetention env log w = (.ok (log.retiredCount now mtime), log', w') →
      ∀ env₁ : Env FileName, env₁.Smooth → ∀ offset, log.oldestBase ≤ offset →
        offset < log'.oldestBase → (readRecordAt X offset env₁ log' w').1 = .ok none := by
  obtain ⟨w', hRun, hStands, hPruned⟩ := applyRetention_run h hSmooth hFrozen hAge
  have hLt := retiredCount_lt h.standing.nonempty now mtime
  have hFirst : log.segments[log.retiredCount now mtime]? = some _ := List.getElem?_eq_getElem hLt
  constructor
  · rintro ⟨log₁, w₁, hRun₁, hKept, -⟩ log₂ w₂ hRun₂
    rw [hRun₁] at hRun₂
    cases hRun₂
    exact hKept.gone
  · intro hGone
    refine ⟨_, w', hRun, ⟨rfl, hPruned, rfl, ?_, hGone _ w' hRun⟩, ?_⟩
    · intro env₁ env₂ hSmooth₁ hSmooth₂ offset hFrom hSame
      rw [oldestBase_drop hFirst] at hFrom
      rw [readRecordAt_result hSmooth₁ (handles_of_standing h.standing),
        readRecordAt_result hSmooth₂ (handles_of_standing hStands.standing)]
      exact readOf_drop h.standing.sorted hPruned hFirst hFrom hSame
    · intro hOrder env₂ hSmooth₂ hFrozen₂
      obtain ⟨w'', hRun₂, -, hPruned₂⟩ := applyRetention_run hStands hSmooth₂ hFrozen₂ hAge
      rw [retiredCount_drop h.standing.nonempty hOrder] at hRun₂ hPruned₂
      refine ⟨w'', hRun₂, ?_⟩
      intro name
      apply hPruned₂.others
      intro b hb
      exact (List.not_mem_nil hb).elim

theorem retainsExactly_iff_legible (h : StandsStill True log w.store) (hSmooth : env.Smooth)
    (hFrozen : Frozen env now mtime) (hAge : AgeFits log.config) :
    RetainsExactly X env now mtime log w ↔ log.retiredCount now mtime = 0 ∨
      ∀ p, log.segments[log.retiredCount now mtime]? = some p → Legible X w.store p := by
  obtain ⟨w', hPass, hStands, hPruned⟩ := applyRetention_run h hSmooth hFrozen hAge
  have hLt := retiredCount_lt h.standing.nonempty now mtime
  have hFirst : log.segments[log.retiredCount now mtime]? = some _ := List.getElem?_eq_getElem hLt
  rw [retainsExactly_iff_gone hSmooth hFrozen hAge h]
  generalize log.retiredCount now mtime = n at *
  generalize log.segments[n] = first at *
  have hFirst' : (log.segments.drop n)[0]? = some first := by
    rw [List.getElem?_drop]
    exact hFirst
  have hBytes := fileBytes_pruned h.standing.sorted hPruned (List.mem_of_getElem? hFirst')
  by_cases hZero : n = 0
  · refine iff_of_true ?_ (Or.inl hZero)
    intro log₁ w₁ hRun₁ env₁ _ offset hFrom hBelow
    rw [hPass] at hRun₁
    cases hRun₁
    rw [hZero, List.drop_zero] at hBelow
    exact absurd hFrom (Nat.not_le.mpr hBelow)
  · have hOldest : log.oldestBase < first.segment.baseOffset := by
      have hIn : log.oldestBase ∈ log.firstBases n := by
        obtain ⟨p, rest, hSegments⟩ := List.exists_cons_of_ne_nil h.standing.nonempty
        obtain ⟨m, rfl⟩ := Nat.exists_eq_succ_of_ne_zero hZero
        simp [firstBases, oldestBase, hSegments]
      exact firstBases_lt h.standing.sorted hIn (List.mem_of_getElem? hFirst')
    have hGone := gone_iff (X := X) hStands.standing hFirst' hOldest
    have hLegible : Legible X w'.store first ↔ Legible X w.store first := by
      unfold Legible
      rw [hBytes]
    constructor
    · intro hAll
      refine Or.inr fun p hp => ?_
      rw [hFirst] at hp
      cases hp
      exact hLegible.mp (hGone.mp (hAll _ w' hPass))
    · rintro (hEq | hRead) log₁ w₁ hRun₁
      · exact absurd hEq hZero
      · rw [hPass] at hRun₁
        cases hRun₁
        exact hGone.mpr (hLegible.mpr (hRead first hFirst))

theorem stands_of_smooth (hRun : Weathered X (fun env _ => env.Smooth) (some log) w) :
    StandsStill True log w.store :=
  hRun.stands (fun _ _ hSmooth => spares_of_smooth hSmooth _) fun _ _ hSmooth _ => hSmooth

/-- A retention pass during which no call fails, on a log that only saw calls that do not fail,
removes the expected prefix and nothing else. All that is promised then holds exactly if the pass
removes nothing or the oldest segment it leaves can be decoded. -/
theorem retainsExactly_iff (hRun : Weathered X (fun env _ => env.Smooth) (some log) w)
    (hSmooth : env.Smooth) (hFrozen : Frozen env now mtime) (hAge : AgeFits log.config) :
    RetainsExactly X env now mtime log w ↔ log.retiredCount now mtime = 0 ∨
      ∀ p, log.segments[log.retiredCount now mtime]? = some p → Legible X w.store p :=
  retainsExactly_iff_legible (stands_of_smooth hRun) hSmooth hFrozen hAge

/-- A segment of whole records can be decoded however much of it is delivered. -/
theorem legible_flat {fs : List LogFrame} (hWhole : ∀ f ∈ fs, Whole X f) (k fuel : Nat) :
    legible X fuel ((flat fs).take k) = true := by
  induction fs generalizing k fuel with
  | nil => cases fuel <;> simp [legible]
  | cons f fs ih =>
    cases fuel with
    | zero => rfl
    | succ fuel =>
      rw [legible, flat_cons]
      split
      · rfl
      · rcases Nat.lt_or_ge k f.bytes.length with hTorn | hAll
        · obtain ⟨needed, hErr⟩ := (hWhole f List.mem_cons_self).torn k hTorn
          rw [List.take_append_of_le_length (Nat.le_of_lt hTorn), hErr]
        · rw [List.take_append, List.take_of_length_le hAll,
            (hWhole f List.mem_cons_self).readable]
          exact ih (fun g hg => hWhole g (List.mem_cons_of_mem _ hg)) _ _

/-! ## A pass that keeps its promise and one that does not -/

/-- Segments of 60 bytes, and no sealed segment survives a pass. -/
def keepsNothing (compression : Compression) : LogConfig :=
  { LogConfig.default with
    compression := compression, segmentSizeThreshold := 60, maxPartitionBytes := some 0 }

theorem ageFits_keepsNothing (compression : Compression) : AgeFits (keepsNothing compression) := by
  intro maxAge hAge
  cases hAge

theorem frozen_quiet : Frozen Env.quiet 0 fun _ => 0 := ⟨fun _ => rfl, fun _ _ => rfl⟩

/-- Two records in the first segment and one in the second. -/
theorem retainsExactly_iff_threeRecords :
    ∃ log w, Weathered Crates.uncompressed (fun env _ => env.Smooth) (some log) w ∧
      log.retiredCount 0 (fun _ => 0) = 1 ∧
      RetainsExactly Crates.uncompressed Env.quiet 0 (fun _ => 0) log w := by
  have hQuiet : (Env.quiet : Env FileName).Smooth := Env.quiet_quiet.smooth
  have hNew := @Weathered.opened Crates.uncompressed (fun env _ => env.Smooth) Env.quiet
    (keepsNothing .none) _ ⟨Store.empty, 0⟩ _ (Weathered.fresh fun name => Store.get_empty name) rfl
  have hTwo := @Weathered.answered _ _ Env.quiet (.appendBatch [sampleRecord 1, sampleRecord 2])
    _ _ _ _ _ hNew hQuiet rfl
  have hThree := @Weathered.answered _ _ Env.quiet (.append (sampleRecord 3))
    _ _ _ _ _ hTwo hQuiet rfl
  obtain ⟨log, w, hRun, hConfig, hCount, q, hq, hBytes⟩ : ∃ log w,
      Weathered Crates.uncompressed (fun env _ => env.Smooth) (some log) w ∧
      log.config = keepsNothing .none ∧ log.retiredCount 0 (fun _ => 0) = 1 ∧
      ∃ q, log.segments[1]? = some q ∧
        fileBytes w.store q = flat (framesOf Crates.uncompressed .none [sampleRecord 3]) :=
    ⟨_, _, hThree, rfl, by decide +kernel, _, rfl, by decide +kernel⟩
  have hWhole : ∀ f ∈ framesOf Crates.uncompressed .none [sampleRecord 3],
      Whole Crates.uncompressed f :=
    whole_framesOf Crates.lawful_uncompressed (by decide +kernel)
  have hAge := ageFits_keepsNothing .none
  rw [← hConfig] at hAge
  refine ⟨log, w, hRun, hCount, (retainsExactly_iff hRun hQuiet frozen_quiet hAge).mpr ?_⟩
  refine Or.inr fun p hp k => ?_
  rw [hCount, hq] at hp
  cases hp
  rw [hBytes]
  exact legible_flat hWhole k _

/-- A segment that begins with a record its codec does not give back. -/
theorem not_legible_of_refused {f : LogFrame} {fs : List LogFrame} (h : Refused X f) {fuel : Nat}
    (hFuel : 0 < fuel) : legible X fuel (flat (f :: fs)) = false := by
  obtain ⟨fuel, rfl⟩ := Nat.exists_eq_succ_of_ne_zero (Nat.ne_of_gt hFuel)
  have hNe : (flat (f :: fs)).isEmpty = false := by
    have hLen := f.length_pos
    cases hBytes : f.bytes with
    | nil => simp [hBytes] at hLen
    | cons b bytes => simp [hBytes]
  rw [legible, hNe, if_neg (by simp), flat_cons, h]

/-- A first segment with a small record and a second one with a record whose value LZ4 does not
give back. -/
theorem reaches_oversized_segment :
    ∃ log w p q f, Weathered Crates.literalLz4 (fun env _ => env.Smooth) (some log) w ∧
      log.config = keepsNothing .lz4 ∧ log.segments = [p, q] ∧
      fileBytes w.store q = flat [f] ∧ Refused Crates.literalLz4 f := by
  have hQuiet : (Env.quiet : Env FileName).Smooth := Env.quiet_quiet.smooth
  have hClean := cleanFailures_of_quiet (Env.quiet_quiet (ν := FileName))
  have hX := Crates.lawful_literalLz4
  have hExec : ∀ {r : Record} {log log' : Log} {w w' : World FileName} {offset : Nat},
      append Crates.literalLz4 r Env.quiet log w = (.ok offset, log', w') →
      LogOp.exec Crates.literalLz4 (.append r) Env.quiet log w =
        (.ok (.offset offset), log', w') := by
    intro r log log' w w' offset hRun
    change Fx.bind (append Crates.literalLz4 r) _ Env.quiet log w = _
    rw [Fx.bind, hRun]
    rfl
  -- the empty log
  have hFresh : Fresh (Store.empty : Store FileName) := fun name => Store.get_empty name
  obtain ⟨log₀, w₀, hOpen, hConfig₀, hLen₀⟩ : ∃ log w,
      open_ Crates.literalLz4 (keepsNothing .lz4) Env.quiet () ⟨Store.empty, 0⟩ =
        (.ok log, (), w) ∧ log.config = keepsNothing .lz4 ∧ log.segments.length = 1 :=
    ⟨_, _, rfl, rfl, rfl⟩
  have hReach₀ : Weathered Crates.literalLz4 (fun env _ => env.Smooth) (some log₀) w₀ :=
    Weathered.opened (Weathered.fresh hFresh) hOpen
  have hFilled₀ : Filled Crates.literalLz4 log₀ w₀.store [] := by
    have hLive := (ok_of_wp (open_fresh_spec hFresh (keepsNothing .lz4)) hOpen).2.2
    exact ⟨fun e he => (List.not_mem_nil he).elim, Layout.initial, hLive,
      fun f hf => (List.not_mem_nil hf).elim, rfl⟩
  -- the small record stays in the first segment
  have hCodec : ∀ {log : Log}, log.config = keepsNothing .lz4 → log.config.compression = .lz4 := by
    intro log hConfig
    rw [hConfig]
    rfl
  have hStays : log₀.rotatesFor (sampleRecord 1).wireSize = false := by
    obtain ⟨L, hLive, -, hFrames⟩ := hFilled₀.2
    rw [hLive.rotatesFor, Layout.overflows, hFrames]
    rfl
  obtain ⟨log₁, w₁, hRun₁, hConfig₁, hLen₁⟩ := hFilled₀.accepts Env.quiet_quiet (sampleRecord 1)
    (by rw [hCodec hConfig₀]; rfl) (Or.inr (Nat.two_pow_pos 32))
  rw [hConfig₀] at hConfig₁
  rw [hStays, hLen₀] at hLen₁
  have hFilled₁ := (hFilled₀.append hX hClean (by
    rw [hCodec hConfig₀]
    exact ⟨by decide +kernel, fun _ => by decide⟩) hRun₁).2
  rw [hStays, if_neg (by simp), List.nil_append] at hFilled₁
  -- the large one does not fit behind it
  have hRotates : log₁.rotatesFor oversizedRecord.wireSize = true := by
    obtain ⟨L, hLive, -, hFrames⟩ := hFilled₁.2
    have hValue : oversizedRecord.value.length = decompressMaxSize + 1 := List.length_replicate
    have hSize : 60 < oversizedRecord.wireSize := by
      rw [Record.wireSize, hValue]
      change 60 < 4 + 4 + 1 + 8 + 4 + 4 + (decompressMaxSize + 1)
      unfold decompressMaxSize
      omega
    have hSpan : span L.active.frames ≠ 0 := by
      rw [hFrames, hCodec hConfig₀]
      decide +kernel
    rw [hLive.rotatesFor, Layout.overflows, if_neg hSpan, decide_eq_true_eq, hConfig₁]
    change 60 < span L.active.frames + oversizedRecord.wireSize
    omega
  obtain ⟨log₂, w₂, hRun₂, hConfig₂, hLen₂⟩ := hFilled₁.accepts Env.quiet_quiet oversizedRecord
    (by rw [hCodec hConfig₁]; rfl) (Or.inl hRotates)
  rw [hConfig₁] at hConfig₂
  rw [hRotates, hLen₁] at hLen₂
  have hFilled₂ := (hFilled₁.append hX hClean (by
    rw [hCodec hConfig₁]
    exact oversizedRecord_lengthsFit) hRun₂).2
  rw [hRotates, if_pos rfl, hCodec hConfig₁] at hFilled₂
  obtain ⟨hHeld, L, hLive, -, hFrames⟩ := hFilled₂
  obtain ⟨f, hRecord, hWire, hSplit, -⟩ := hLive.last_frame hFrames rfl
  obtain ⟨init, q, g, hParts⟩ := hLive.parts
  obtain ⟨p, rfl⟩ : ∃ p, init = [p] := by
    rw [hParts.split, List.length_append] at hLen₂
    exact List.length_eq_one_iff.mp (by simpa using hLen₂)
  refine ⟨log₂, w₂, p, q, f, ?_, hConfig₂, hParts.split, ?_, ?_⟩
  · exact (hReach₀.answered hQuiet (hExec hRun₁)).answered hQuiet (hExec hRun₂)
  · rw [fileBytes, hParts.segment.file, Option.map_some, Option.getD_some, hParts.data, hSplit]
    rfl
  · have hRefused := whole_or_refused hX hWire (by
      rw [hRecord]
      exact oversizedRecord_lengthsFit)
    rwa [if_neg (by rw [hRecord]; exact oversizedRecord_not_fits)] at hRefused

/-- When the first of these segments is removed, a read of its offset decodes the second one and
fails. -/
theorem removed_offset_reads_an_error :
    ∃ log w log' w' offset,
      Weathered Crates.literalLz4 (fun env _ => env.Smooth) (some log) w ∧
      applyRetention Env.quiet log w = (.ok 1, log', w') ∧
      log.oldestBase ≤ offset ∧ offset < log'.oldestBase ∧
      (readRecordAt Crates.literalLz4 offset Env.quiet log' w').1 ≠ .ok none ∧
      ¬ RetainsExactly Crates.literalLz4 Env.quiet 0 (fun _ => 0) log w := by
  obtain ⟨log, w, p, q, f, hReach, hConfig, hSegments, hBytes, hRefused⟩ :=
    reaches_oversized_segment
  have hQuiet : (Env.quiet : Env FileName).Smooth := Env.quiet_quiet.smooth
  have hStands := stands_of_smooth hReach
  have hAge : AgeFits log.config := by
    rw [hConfig]
    exact ageFits_keepsNothing .lz4
  have hq : q ∈ log.segments := by simp [hSegments]
  -- the second segment alone is above the limit
  have hSize : 0 < q.segment.size := by
    obtain ⟨g, hg, hExact⟩ := hStands.standing.backed q hq
    have hData : fileBytes w.store q = g.data := by
      rw [fileBytes, hg]
      rfl
    rw [(hExact trivial).size, ← hData, hBytes]
    simpa using f.length_pos
  have hCount : log.retiredCount 0 (fun _ => 0) = 1 := by
    have hAged : log.agedCount 0 (fun _ => 0) = 0 := by
      rw [agedCount, hConfig]
      rfl
    have hExcess : log.excessCount = leastBelow (0 + 1) (withinLimit 0 [p, q]) := by
      rw [excessCount, hConfig, hSegments]
      rfl
    have hOver : withinLimit 0 [p, q] 0 = false := by
      simp [withinLimit]
      omega
    rw [retiredCount, hAged, hExcess, leastBelow_succ, hOver]
    rfl
  obtain ⟨w', hPass, hLeft, hPruned⟩ := applyRetention_run hStands hQuiet frozen_quiet hAge
  rw [hCount] at hPass hLeft hPruned
  have hFirst : (log.segments.drop 1)[0]? = some q := by simp [hSegments]
  have hOldest : log.oldestBase < q.segment.baseOffset := by
    have hIn : log.oldestBase ∈ log.firstBases 1 := by simp [firstBases, oldestBase, hSegments]
    exact firstBases_lt hStands.standing.sorted hIn (List.mem_of_getElem? hFirst)
  have hRead : (readRecordAt Crates.literalLz4 log.oldestBase Env.quiet
      { log with segments := log.segments.drop 1 } w').1 ≠ .ok none := by
    rw [readRecordAt_result hQuiet (handles_of_standing hLeft.standing), deliveredTo_quiet, Ne,
      readOf_below hLeft.standing hFirst hOldest,
      fileBytes_pruned hStands.standing.sorted hPruned (List.mem_of_getElem? hFirst), hBytes,
      List.take_length, not_legible_of_refused hRefused (by simpa using f.length_pos)]
    simp
  have hBelow : log.oldestBase < oldestBase { log with segments := log.segments.drop 1 } := by
    rw [oldestBase_drop (p := q) (by simp [hSegments])]
    exact hOldest
  refine ⟨log, w, _, w', log.oldestBase, hReach, hPass, Nat.le_refl _, hBelow, hRead, ?_⟩
  rintro ⟨log'', w'', hRun, hKept, -⟩
  rw [hCount, hPass] at hRun
  cases hRun
  exact hRead (hKept.gone _ hQuiet _ (Nat.le_refl _) hBelow)

end Log

end Kafko
