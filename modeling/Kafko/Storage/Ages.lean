import Kafko.Storage.Retained

/-!
# Ages at the ends of their range

`applyRetention` casts the maximum age to a signed 64-bit number of milliseconds. An age of
2^63 milliseconds or more wraps, and the cutoff it leads to may lie anywhere, also behind the
clock. A sweep by age drops the segments that read as older than this cutoff, up to the first
call that fails; that no segment goes before its age therefore depends on where the cutoff lies.
-/

namespace Kafko

open Disk

namespace Log

variable {env : Env FileName} {log : Log} {w : World FileName} {segments rest : List IndexedSegment}
  {p : IndexedSegment} {now : Int} {mtime : FileName → Int} {maxAge : Duration}

/-! ## One segment -/

/-- The segments have their files, no two of them the same. -/
structure Held (segments : List IndexedSegment) (d : Store FileName) : Prop where
  distinct : (segments.map fun p => p.segment.baseOffset).Nodup
  files : ∀ p ∈ segments, (d.get p.segment.path).isSome

/-- The call reads a time or fails, and leaves memory and the directory as they are. -/
theorem lastModifiedMs_run (hFrozen : Frozen env now mtime) (s : Segment) (w : World FileName) :
    ∃ r w', (∀ log : Log, s.lastModifiedMs env log w = (r, log, w')) ∧
      (∀ name, w'.store.get name = w.store.get name) ∧
      (∀ t, r = .ok t → t = epochMillis (mtime s.path)) ∧
      (env.Smooth → (w.store.get s.path).isSome → ∃ t, r = .ok t) := by
  have hRead : Fx.Blind (Fx.metadataMtime s.path : LogIO Log Int) := by
    intro env w
    unfold Fx.metadataMtime Fx.onFile
    exact Fx.Blind.perform _ _ _ _ env w
  have hBlind : Fx.Blind (s.lastModifiedMs : LogIO Log Int) := hRead.bind fun _ => Fx.Blind.pure _
  obtain ⟨r, w', hRun⟩ := hBlind env w
  have hSpec : wp env (s.lastModifiedMs : LogIO Log Int)
      { ok := fun t _ w' => t = epochMillis (mtime s.path) ∧
          ∀ name, w'.store.get name = w.store.get name
        err := fun _ _ w' => (env.Smooth → w.store.get s.path = none) ∧ w'.store = w.store
        panic := fun _ _ _ => False
        crash := fun _ w' => ¬ env.Smooth ∧ w'.store = w.store } ⟨.default, [], 0⟩ w := by
    rw [Segment.lastModifiedMs, wp_bind]
    change wp env (Fx.onFile (.metadata s.path) s.path (fun _ => env.mtime w.tick s.path) id) _ _ w
    refine wp_perform ?_ ?_ ?_ ?_
    · intro t d hGood
      cases hFile : w.store.get s.path with
      | none => simp [hFile] at hGood
      | some f =>
        simp only [hFile, Except.ok.injEq, Prod.mk.injEq] at hGood
        obtain ⟨rfl, rfl⟩ := hGood
        refine ⟨by rw [hFrozen.mtime], ?_⟩
        intro name
        dsimp only
        rw [Store.get_put]
        split
        · next hEq => rw [hEq, hFile, id]
        · rfl
    · intro kind hRefuse
      refine ⟨fun _ => ?_, rfl⟩
      cases hFile : w.store.get s.path with
      | none => rfl
      | some f => simp [hFile] at hRefuse
    · exact fun kind k hFail => ⟨fun hSmooth => (hSmooth.not_fail hFail).elim, rfl⟩
    · exact fun k hCrash => ⟨fun hSmooth => hSmooth.not_crash hCrash, rfl⟩
  rw [wp, hRun] at hSpec
  refine ⟨r, w', hRun, ?_, ?_, ?_⟩
  · intro name
    cases r with
    | ok t => exact hSpec.2 name
    | err e => rw [hSpec.2]
    | panic m => exact hSpec.elim
    | crash => rw [hSpec.2]
  · rintro t rfl
    exact hSpec.1
  · intro hSmooth hFile
    cases r with
    | ok t => exact ⟨t, rfl⟩
    | err e =>
      rw [hSpec.1 hSmooth] at hFile
      cases hFile
    | panic m => exact hSpec.elim
    | crash => exact absurd hSmooth hSpec.1

/-- The two removals of `deleteOldestSegment`. -/
def removeFiles (base : Nat) : LogIO Log Unit := do
  Fx.remove (.log base)
  removeIfExists (.index base)

theorem deleteOldestSegment_run (hSegments : log.segments = p :: rest) :
    deleteOldestSegment env log w =
      removeFiles p.segment.baseOffset env { log with segments := rest } w := by
  rw [deleteOldestSegment, Fx.run_get_bind, hSegments]
  rfl

/-- The removals leave memory and all other files as they are, and fail only if a call does. -/
theorem removeFiles_run (base : Nat) (w : World FileName) :
    ∃ r w', (∀ log : Log, removeFiles base env log w = (r, log, w')) ∧
      (∀ name, name ≠ .log base → name ≠ .index base → w'.store.get name = w.store.get name) ∧
      (env.Smooth → (w.store.get (.log base)).isSome → r = .ok ()) := by
  have hBlind : Fx.Blind (removeFiles base) :=
    (Fx.Blind.perform _ _ _ _).bind fun _ => (Fx.Blind.perform _ _ _ _).recover
  obtain ⟨r, w', hRun⟩ := hBlind env w
  let Q : Post FileName KafkoError Log Unit := {
    ok := fun _ _ w' => ∀ name, name ≠ .log base → name ≠ .index base →
      w'.store.get name = w.store.get name
    err := fun _ _ w' => (∀ name, name ≠ .log base → name ≠ .index base →
      w'.store.get name = w.store.get name) ∧ (env.Smooth → w.store.get (.log base) = none)
    panic := fun _ _ _ => False
    crash := fun _ w' => (∀ name, name ≠ .log base → name ≠ .index base →
      w'.store.get name = w.store.get name) ∧ ¬ env.Smooth }
  have hSpec : wp env (removeFiles base) Q ⟨.default, [], 0⟩ w := by
    rw [removeFiles, wp_bind]
    refine wp_remove ?_ ?_ ?_ ?_
    · intro f hf
      have hOne : ∀ name, name ≠ .log base → (w.store.erase (.log base)).get name =
          w.store.get name := fun name hne => Store.get_erase_of_ne _ hne
      refine wp_recover (wp_remove ?_ ?_ ?_ ?_)
      · intro g hg name hLog hIndex
        dsimp only
        rw [Store.get_erase_of_ne _ hIndex, hOne name hLog]
      · exact fun hMissing name hLog _ => hOne name hLog
      · intro kind k hFail
        dsimp only
        split
        · exact fun name hLog _ => hOne name hLog
        · exact ⟨fun name hLog _ => hOne name hLog, fun hSmooth => (hSmooth.not_fail hFail).elim⟩
      · exact fun k hCrash => ⟨fun name hLog _ => hOne name hLog,
          fun hSmooth => hSmooth.not_crash hCrash⟩
    · exact fun hMissing => ⟨fun name _ _ => rfl, fun _ => hMissing⟩
    · exact fun kind k hFail => ⟨fun name _ _ => rfl, fun hSmooth => (hSmooth.not_fail hFail).elim⟩
    · exact fun k hCrash => ⟨fun name _ _ => rfl, fun hSmooth => hSmooth.not_crash hCrash⟩
  rw [wp, hRun] at hSpec
  refine ⟨r, w', hRun, ?_, ?_⟩
  · cases r with
    | ok a => exact hSpec
    | err e => exact hSpec.1
    | panic m => exact hSpec.elim
    | crash => exact hSpec.1
  · intro hSmooth hFile
    cases r with
    | ok a => rfl
    | err e =>
      rw [hSpec.2 hSmooth] at hFile
      cases hFile
    | panic m => exact hSpec.elim
    | crash => exact absurd hSmooth hSpec.2

/-! ## The loop -/

theorem Held.removed {d d' : Store FileName} (h : Held (p :: rest) d)
    (hSame : ∀ name, name ≠ .log p.segment.baseOffset → name ≠ .index p.segment.baseOffset →
      d'.get name = d.get name) : Held rest d' := by
  have hDistinct := h.distinct
  rw [List.map_cons, List.nodup_cons] at hDistinct
  refine ⟨hDistinct.2, ?_⟩
  intro q hq
  have hNe : q.segment.baseOffset ≠ p.segment.baseOffset := by
    intro hEq
    exact hDistinct.1 (hEq ▸ List.mem_map_of_mem hq)
  rw [hSame _ (by simp [Segment.path, hNe]) (by simp [Segment.path])]
  exact h.files q (List.mem_cons_of_mem _ hq)

/-- What a loop leaves of a log and a directory: all but the first `n` segments, and their
files. -/
structure Dropped (log : Log) (d : Store FileName) (n : Nat) (log' : Log) (d' : Store FileName) :
    Prop where
  memory : log' = { log with segments := log.segments.drop n }
  others : ∀ name, (∀ b ∈ log.firstBases n, name ≠ .log b ∧ name ≠ .index b) →
    d'.get name = d.get name

/-- How many segments read as older than the cutoff, from the oldest on; the last segment does not
count. -/
def olderCount (cutoff : Int) (mtime : FileName → Int) (segments : List IndexedSegment) : Nat :=
  leastBelow (segments.length - 1) (notOlder cutoff mtime segments)

theorem olderCount_le (cutoff : Int) (mtime : FileName → Int) (segments : List IndexedSegment) :
    olderCount cutoff mtime segments ≤ segments.length - 1 := leastBelow_le _ _

theorem olderCount_cons {q : IndexedSegment} (cutoff : Int) :
    olderCount cutoff mtime (p :: q :: rest) =
      if epochMillis (mtime p.segment.path) < cutoff then
        olderCount cutoff mtime (q :: rest) + 1 else 0 := by
  have hTail : (fun k => notOlder cutoff mtime (p :: q :: rest) (k + 1)) =
      notOlder cutoff mtime (q :: rest) := by
    funext k
    simp [notOlder]
  rw [olderCount, show (p :: q :: rest).length - 1 = rest.length + 1 by simp, leastBelow_succ,
    hTail]
  by_cases hOld : epochMillis (mtime p.segment.path) < cutoff
  · rw [if_pos hOld, if_neg (by simpa [notOlder] using hOld)]
    rfl
  · rw [if_neg hOld, if_pos (by simpa [notOlder] using hOld)]

theorem deleteByAge_few (hFew : log.segments.length ≤ 1) (cutoff : Int) (fuel : Nat) :
    deleteByAge cutoff fuel env log w = (.ok 0, log, w) := by
  cases fuel with
  | zero => rfl
  | succ fuel =>
    rw [deleteByAge, Fx.run_get_bind]
    rcases hSegments : log.segments with _ | ⟨p, _ | ⟨q, rest⟩⟩
    · rfl
    · rfl
    · simp [hSegments] at hFew

theorem deleteByAge_many {q : IndexedSegment} (hSegments : log.segments = p :: q :: rest)
    (cutoff : Int) (fuel : Nat) :
    deleteByAge cutoff (fuel + 1) env log w = (do
      let mtime ← p.segment.lastModifiedMs
      if mtime < cutoff then do
        deleteOldestSegment
        let deleted ← deleteByAge cutoff fuel
        pure (deleted + 1)
      else pure 0 : LogIO Log Nat) env log w := by
  rw [deleteByAge, Fx.run_get_bind, hSegments]

theorem Dropped.none {d' : Store FileName} (hSame : ∀ name, d'.get name = w.store.get name) :
    Dropped log w.store 0 log d' := by
  refine ⟨by simp, fun name _ => hSame name⟩

/-- The oldest segment is dropped, then `n` more. -/
theorem Dropped.succ {d d' d'' : Store FileName} {n : Nat} {log' : Log}
    (hSegments : log.segments = p :: rest)
    (hSame : ∀ name, name ≠ .log p.segment.baseOffset → name ≠ .index p.segment.baseOffset →
      d'.get name = d.get name)
    (h : Dropped { log with segments := rest } d' n log' d'') : Dropped log d (n + 1) log' d'' := by
  refine ⟨?_, ?_⟩
  · rw [h.memory, hSegments]
    rfl
  · intro name hName
    rw [firstBases_cons hSegments] at hName
    obtain ⟨hLog, hIndex⟩ := hName _ List.mem_cons_self
    rw [h.others name fun b hb => hName b (List.mem_cons_of_mem _ hb), hSame name hLog hIndex]

/-- A sweep with any cutoff drops the segments that read as older, up to the first call that
fails. Where that is does not depend on the cutoff. -/
theorem deleteByAge_drops (hFrozen : Frozen env now mtime) {fuel : Nat}
    (hFuel : segments.length ≤ fuel) (w : World FileName) :
    ∃ stop, (env.Smooth → Held segments w.store → segments.length - 1 ≤ stop) ∧
      ∀ cutoff log, log.segments = segments →
        Dropped log w.store (min (olderCount cutoff mtime segments) stop)
          (deleteByAge cutoff fuel env log w).2.1
          (deleteByAge cutoff fuel env log w).2.2.store := by
  induction fuel generalizing segments w with
  | zero =>
    refine ⟨0, fun _ _ => by omega, ?_⟩
    intro cutoff log hSegments
    rw [deleteByAge_few (by rw [hSegments]; omega), Nat.min_zero]
    exact Dropped.none fun _ => rfl
  | succ fuel ih =>
    rcases segments with _ | ⟨p, _ | ⟨q, rest⟩⟩
    · refine ⟨0, fun _ _ => Nat.le_refl _, ?_⟩
      intro cutoff log hSegments
      rw [deleteByAge_few (by simp [hSegments]), Nat.min_zero]
      exact Dropped.none fun _ => rfl
    · refine ⟨0, fun _ _ => Nat.le_refl _, ?_⟩
      intro cutoff log hSegments
      rw [deleteByAge_few (by simp [hSegments]), Nat.min_zero]
      exact Dropped.none fun _ => rfl
    · obtain ⟨r, w₁, hRead, hSame, hTime, hReads⟩ := lastModifiedMs_run hFrozen p.segment w
      by_cases hAnswer : ∃ t, r = .ok t
      · obtain ⟨t, rfl⟩ := hAnswer
        obtain rfl := hTime t rfl
        obtain ⟨r₂, w₂, hRemove, hOthers, hRemoves⟩ := @removeFiles_run env p.segment.baseOffset w₁
        have hBoth : ∀ name, name ≠ .log p.segment.baseOffset → name ≠ .index p.segment.baseOffset →
            w₂.store.get name = w.store.get name := by
          intro name hLog hIndex
          rw [hOthers name hLog hIndex, hSame]
        have hFirst : ∀ log, log.segments = p :: q :: rest → deleteOldestSegment env log w₁ =
            (r₂, { log with segments := q :: rest }, w₂) :=
          fun log hSegments => (deleteOldestSegment_run hSegments).trans (hRemove _)
        by_cases hGone : r₂ = .ok ()
        · have hFuel' : (q :: rest).length ≤ fuel := by simpa using hFuel
          obtain ⟨stop, hReaches, hRest⟩ := ih hFuel' w₂
          refine ⟨stop + 1, fun hSmooth hHeld => ?_, ?_⟩
          · have hLe := hReaches hSmooth (hHeld.removed hBoth)
            simp only [List.length_cons] at hLe ⊢
            omega
          · intro cutoff log hSegments
            rw [deleteByAge_many hSegments, Fx.run_bind (hRead log), olderCount_cons]
            split
            · rw [Fx.run_bind (hGone ▸ hFirst log hSegments), Fx.run_map, Nat.add_min_add_right]
              exact Dropped.succ hSegments hBoth
                (hRest cutoff { log with segments := q :: rest } rfl)
            · rw [Nat.zero_min]
              exact Dropped.none hSame
        · refine ⟨1, fun hSmooth hHeld => ?_, ?_⟩
          · refine absurd (hRemoves hSmooth ?_) hGone
            rw [hSame]
            exact hHeld.files p List.mem_cons_self
          · intro cutoff log hSegments
            rw [deleteByAge_many hSegments, Fx.run_bind (hRead log), olderCount_cons]
            split
            · rw [Fx.run_bind_stops _ (hFirst log hSegments) fun _ hOk => hGone hOk,
                Nat.min_eq_right (Nat.le_add_left _ _)]
              exact Dropped.succ hSegments hBoth (Dropped.none fun _ => rfl)
            · rw [Nat.zero_min]
              exact Dropped.none hSame
      · have hStops : ∀ t, r ≠ .ok t := fun t ht => hAnswer ⟨t, ht⟩
        refine ⟨0, fun hSmooth hHeld => ?_, ?_⟩
        · exact absurd (hReads hSmooth (hHeld.files p List.mem_cons_self)) hAnswer
        · intro cutoff log hSegments
          rw [deleteByAge_many hSegments, Fx.run_bind_stops _ (hRead log) hStops, Nat.min_zero]
          exact Dropped.none hSame

/-! ## The cutoff -/

/-- The cutoff as the program computes it. -/
def ageCutoff (maxAge : Duration) (now : Int) : Int :=
  saturatingSub (epochMillis now) ((maxAge.asMillis : Int).bmod (2 ^ 64))

/-- The log with this maximum age and no limit on its size. -/
def withAge (log : Log) (maxAge : Duration) : Log :=
  { log with config :=
      { log.config with maxSegmentAge := some maxAge, maxPartitionBytes := none } }

/-- With no limit on the size, retention is the loop over the ages. -/
theorem applyRetention_withAge (hFrozen : Frozen env now mtime) (log : Log) (maxAge : Duration)
    (w : World FileName) :
    (applyRetention env (log.withAge maxAge) w).2 =
      (deleteByAge (ageCutoff maxAge now) log.segments.length env (log.withAge maxAge) w).2 := by
  obtain ⟨stop, -, hDrops⟩ := deleteByAge_drops hFrozen (Nat.le_refl log.segments.length) w
  have hMemory := (hDrops (ageCutoff maxAge now) (log.withAge maxAge) rfl).memory
  rw [applyRetention]
  change (Fx.bind (deleteByAge (saturatingSub (epochMillis (env.clock w.tick))
    ((maxAge.asMillis : Int).bmod (2 ^ 64))) log.segments.length) _ env (log.withAge maxAge) w).2 =
      _
  rw [hFrozen.clock]
  change (Fx.bind (deleteByAge (ageCutoff maxAge now) log.segments.length) _ env
    (log.withAge maxAge) w).2 = _
  rcases hRun : deleteByAge (ageCutoff maxAge now) log.segments.length env (log.withAge maxAge) w
    with ⟨r, log', w'⟩
  rw [hRun] at hMemory
  obtain rfl : log' = _ := hMemory
  rw [Fx.bind, hRun]
  cases r <;> rfl

/-- How many segments a sweep drops. -/
theorem applyRetention_drops (hFrozen : Frozen env now mtime) (log : Log) (w : World FileName) :
    ∃ stop, (env.Smooth → Held log.segments w.store → log.segments.length - 1 ≤ stop) ∧
      ∀ maxAge, Dropped (log.withAge maxAge) w.store
        (min (olderCount (ageCutoff maxAge now) mtime log.segments) stop)
        (applyRetention env (log.withAge maxAge) w).2.1
        (applyRetention env (log.withAge maxAge) w).2.2.store := by
  obtain ⟨stop, hReaches, hDrops⟩ := deleteByAge_drops hFrozen (Nat.le_refl log.segments.length) w
  refine ⟨stop, hReaches, ?_⟩
  intro maxAge
  rw [applyRetention_withAge hFrozen]
  exact hDrops (ageCutoff maxAge now) (log.withAge maxAge) rfl

/-- A sealed segment that reads as older than the cutoff, like all segments before it. -/
structure Exposed (cutoff : Int) (mtime : FileName → Int) (segments : List IndexedSegment)
    (i : Nat) : Prop where
  isSealed : i + 1 < segments.length
  older : ∀ j ≤ i, notOlder cutoff mtime segments j = false

theorem exposed_iff {cutoff : Int} {i : Nat} :
    Exposed cutoff mtime segments i ↔ i < olderCount cutoff mtime segments := by
  have hLe := olderCount_le cutoff mtime segments
  constructor
  · intro h
    by_contra hNot
    have hAt := h.older _ (Nat.le_of_not_lt hNot)
    have hSealed := h.isSealed
    rw [olderCount] at hNot hAt
    have hHolds := leastBelow_holds (m := segments.length - 1) (P := notOlder cutoff mtime segments)
      (by omega)
    rw [hAt] at hHolds
    cases hHolds
  · intro h
    refine ⟨by omega, ?_⟩
    rw [olderCount] at h
    intro j hj
    exact not_of_lt_leastBelow (Nat.lt_of_le_of_lt hj h)

theorem Exposed.reads {cutoff : Int} {i : Nat} (h : Exposed cutoff mtime segments i)
    (hp : segments[i]? = some p) : epochMillis (mtime p.segment.path) < cutoff := by
  have hOlder := h.older i (Nat.le_refl _)
  rw [notOlder, hp, Option.all_some, decide_eq_false_iff_not] at hOlder
  omega

/-! ## Segments that are not old enough -/

/-- No segment goes before its age, and none that a smaller age keeps. Times are in milliseconds;
a whole number of them exceeds an age exactly if it exceeds the whole milliseconds of the age. -/
structure AgeRespected (maxAge : Duration) (now : Int) (mtime : FileName → Int) (log : Log)
    (w : World FileName) : Prop where
  segments : ∀ env, Frozen env now mtime → ∀ p ∈ log.segments,
    p ∉ (applyRetention env (log.withAge maxAge) w).2.1.segments →
      (maxAge.asMillis : Int) < now - mtime p.segment.path
  files : ∀ env, Frozen env now mtime → ∀ name,
    (applyRetention env (log.withAge maxAge) w).2.2.store.get name ≠ w.store.get name →
      ∃ p ∈ log.segments, (name = .log p.segment.baseOffset ∨ name = .index p.segment.baseOffset) ∧
        (maxAge.asMillis : Int) < now - mtime p.segment.path
  noMore : ∀ env, Frozen env now mtime → ∀ smaller : Duration, smaller.asMillis ≤ maxAge.asMillis →
    (applyRetention env (log.withAge smaller) w).2.1.segments.length ≤
      (applyRetention env (log.withAge maxAge) w).2.1.segments.length

/-- The longest age, in whole milliseconds, that the cast does not wrap. -/
def longestAge : Int := 2 ^ 63 - 1

/-- Every sealed segment that the program takes for old is old. If the age wraps, such a segment
is also older than the longest age that does not. -/
def NoneMisdated (maxAge : Duration) (now : Int) (mtime : FileName → Int)
    (segments : List IndexedSegment) : Prop :=
  ∀ i p, Exposed (ageCutoff maxAge now) mtime segments i → segments[i]? = some p →
    (maxAge.asMillis : Int) < now - mtime p.segment.path ∧
      ((maxAge.asMillis : Int) ≤ longestAge ∨
        epochMillis (mtime p.segment.path) < saturatingSub (epochMillis now) longestAge)

theorem ageCutoff_of_fits (hFits : (maxAge.asMillis : Int) ≤ longestAge) (now : Int) :
    ageCutoff maxAge now = saturatingSub (epochMillis now) maxAge.asMillis := by
  have hAge : maxAge.asMillis ≤ 2 ^ 63 - 1 := by
    unfold longestAge at hFits
    omega
  rw [ageCutoff, cutoff_eq hAge]

/-- No cutoff lies before that of the longest age. -/
theorem longest_le_ageCutoff (maxAge : Duration) (now : Int) :
    saturatingSub (epochMillis now) longestAge ≤ ageCutoff maxAge now := by
  have hWrapped := Int.bmod_lt (x := (maxAge.asMillis : Int)) (m := 2 ^ 64) (by decide)
  unfold ageCutoff saturatingSub longestAge
  omega

theorem ageCutoff_antitone {smaller : Duration} (hLe : smaller.asMillis ≤ maxAge.asMillis)
    (hFits : (maxAge.asMillis : Int) ≤ longestAge) (now : Int) :
    ageCutoff maxAge now ≤ ageCutoff smaller now := by
  rw [ageCutoff_of_fits hFits, ageCutoff_of_fits (by omega)]
  unfold saturatingSub
  omega

/-- An age of 2^63 - 1 milliseconds. -/
def longestDuration : Duration := ⟨9223372036854775, 807000000⟩

theorem asMillis_longestDuration : (longestDuration.asMillis : Int) = longestAge := by
  decide

/-- The environment in which nothing fails and time stands still. -/
def stillAt (now : Int) (mtime : FileName → Int) : Env FileName where
  outcome _ _ := .ok
  clock _ := now
  mtime _ name := mtime name

theorem frozen_stillAt (now : Int) (mtime : FileName → Int) :
    Frozen (stillAt now mtime) now mtime := ⟨fun _ => rfl, fun _ _ => rfl⟩

/-- If nothing fails, a sweep drops every segment it takes for old. -/
theorem applyRetention_still (hHeld : Held log.segments w.store) (now : Int)
    (mtime : FileName → Int) (maxAge : Duration) :
    (applyRetention (stillAt now mtime) (log.withAge maxAge) w).2.1.segments =
      log.segments.drop (olderCount (ageCutoff maxAge now) mtime log.segments) := by
  obtain ⟨stop, hReaches, hDrops⟩ :=
    applyRetention_drops (frozen_stillAt now mtime) log w
  have hFar := hReaches (fun _ _ => Or.inl rfl) hHeld
  have hCount := olderCount_le (ageCutoff maxAge now) mtime log.segments
  rw [(hDrops maxAge).memory, Nat.min_eq_left (hCount.trans hFar)]
  rfl

theorem mem_take_of_getElem? {i n : Nat} (hp : segments[i]? = some p) (hLt : i < n) :
    p ∈ segments.take n := by
  apply List.mem_of_getElem? (i := i)
  rw [List.getElem?_take, if_pos hLt]
  exact hp

/-- What is dropped has another name than what is kept. -/
theorem base_ne_of_dropped (hDistinct : (segments.map fun p => p.segment.baseOffset).Nodup)
    {n : Nat} {q : IndexedSegment} (hp : p ∈ segments.take n) (hq : q ∈ segments.drop n) :
    p.segment.baseOffset ≠ q.segment.baseOffset := by
  rw [← List.take_append_drop n segments, List.map_append, List.nodup_append] at hDistinct
  exact hDistinct.2.2 _ (List.mem_map_of_mem hp) _ (List.mem_map_of_mem hq)

theorem noneMisdated_of_respected (hHeld : Held log.segments w.store)
    (h : AgeRespected maxAge now mtime log w) : NoneMisdated maxAge now mtime log.segments := by
  intro i p hExposed hp
  have hFrozen := frozen_stillAt now mtime
  have hDropped := exposed_iff.mp hExposed
  refine ⟨?_, ?_⟩
  · apply h.segments _ hFrozen p (List.mem_of_getElem? hp)
    rw [applyRetention_still hHeld]
    intro hKept
    exact base_ne_of_dropped hHeld.distinct (mem_take_of_getElem? hp hDropped) hKept rfl
  · rcases le_or_gt (maxAge.asMillis : Int) longestAge with hFits | hWraps
    · exact Or.inl hFits
    -- the longest age that fits drops the segment as well
    · right
      have hLongest := asMillis_longestDuration
      have hMore := h.noMore _ hFrozen longestDuration (by omega)
      rw [applyRetention_still hHeld, applyRetention_still hHeld, List.length_drop,
        List.length_drop] at hMore
      have hCount := olderCount_le (ageCutoff maxAge now) mtime log.segments
      have hReads := (exposed_iff.mpr (show i < olderCount (ageCutoff longestDuration now) mtime
        log.segments by omega)).reads hp
      rwa [ageCutoff_of_fits (by omega), hLongest] at hReads

/-- What is dropped was exposed. -/
theorem exposed_of_dropped {cutoff : Int} {n stop : Nat}
    (hn : n = min (olderCount cutoff mtime segments) stop) (hp : p ∈ segments.take n) :
    ∃ i, segments[i]? = some p ∧ Exposed cutoff mtime segments i := by
  obtain ⟨i, hi⟩ := List.getElem?_of_mem hp
  rw [List.getElem?_take] at hi
  split at hi
  · exact ⟨i, hi, exposed_iff.mpr (by omega)⟩
  · cases hi

theorem respected_of_noneMisdated (h : NoneMisdated maxAge now mtime log.segments) :
    AgeRespected maxAge now mtime log w := by
  refine ⟨?_, ?_, ?_⟩
  · intro env hFrozen p hp hGone
    obtain ⟨stop, -, hDrops⟩ := applyRetention_drops hFrozen log w
    rw [(hDrops maxAge).memory] at hGone
    have hTaken : p ∈ log.segments.take
        (min (olderCount (ageCutoff maxAge now) mtime log.segments) stop) := by
      rw [← List.take_append_drop (min (olderCount (ageCutoff maxAge now) mtime log.segments) stop)
        log.segments] at hp
      exact (List.mem_append.mp hp).resolve_right hGone
    obtain ⟨i, hi, hExposed⟩ := exposed_of_dropped rfl hTaken
    exact (h i p hExposed hi).1
  · intro env hFrozen name hChanged
    obtain ⟨stop, -, hDrops⟩ := applyRetention_drops hFrozen log w
    by_contra hNone
    refine hChanged ((hDrops maxAge).others name ?_)
    intro b hb
    obtain ⟨p, hp, rfl⟩ := List.mem_map.mp hb
    obtain ⟨i, hi, hExposed⟩ := exposed_of_dropped rfl hp
    have hOld := (h i p hExposed hi).1
    refine ⟨fun hLog => hNone ⟨p, List.mem_of_getElem? hi, Or.inl hLog, hOld⟩, fun hIndex => ?_⟩
    exact hNone ⟨p, List.mem_of_getElem? hi, Or.inr hIndex, hOld⟩
  · intro env hFrozen smaller hLe
    obtain ⟨stop, -, hDrops⟩ := applyRetention_drops hFrozen log w
    rw [(hDrops smaller).memory, (hDrops maxAge).memory]
    have hCount : olderCount (ageCutoff maxAge now) mtime log.segments ≤
        olderCount (ageCutoff smaller now) mtime log.segments := by
      by_contra hNot
      have hExposed : ∀ i < olderCount (ageCutoff maxAge now) mtime log.segments,
          Exposed (ageCutoff maxAge now) mtime log.segments i := fun i hi => exposed_iff.mpr hi
      have hNext : Exposed (ageCutoff smaller now) mtime log.segments
          (olderCount (ageCutoff smaller now) mtime log.segments) := by
        refine ⟨(hExposed _ (Nat.lt_of_not_le hNot)).isSealed, ?_⟩
        intro j hj
        have hOlder := hExposed j (by omega)
        have hSealed := hOlder.isSealed
        have hp : log.segments[j]? = some log.segments[j] := List.getElem?_eq_getElem (by omega)
        have hReads := hOlder.reads hp
        rw [notOlder, hp, Option.all_some, decide_eq_false_iff_not]
        rcases (h j _ hOlder hp).2 with hFits | hLongest
        · have := ageCutoff_antitone hLe hFits now
          omega
        · have := longest_le_ageCutoff smaller now
          omega
      exact absurd (exposed_iff.mp hNext) (Nat.lt_irrefl _)
    dsimp only [withAge]
    rw [List.length_drop, List.length_drop]
    omega

/-- Before the year 292 million, a segment is misdated exactly if the age wraps and the oldest
sealed segment reads as older than the cutoff. -/
theorem noneMisdated_iff (hNow : now < 2 ^ 63)
    (hTimes : ∀ p ∈ segments, mtime p.segment.path < 2 ^ 63) :
    NoneMisdated maxAge now mtime segments ↔ (maxAge.asMillis : Int) ≤ longestAge ∨
      segments.length ≤ 1 ∨ notOlder (ageCutoff maxAge now) mtime segments 0 = true := by
  have hReading : ∀ t : Int, t < 2 ^ 63 → 0 ≤ epochMillis t ∧ t ≤ epochMillis t ∧
      (0 ≤ t → epochMillis t = t) ∧ (t < 0 → epochMillis t = 0) := by
    intro t ht
    unfold epochMillis
    split
    · omega
    · rw [Int.bmod_eq_of_le (by omega) (by omega)]
      omega
  have hClock := hReading now hNow
  constructor
  · intro h
    rcases le_or_gt (maxAge.asMillis : Int) longestAge with hFits | hWraps
    · exact Or.inl hFits
    right
    rcases Nat.lt_or_ge 1 segments.length with hTwo | hOne
    · right
      by_contra hOlder
      have hExposed : Exposed (ageCutoff maxAge now) mtime segments 0 := by
        refine ⟨by omega, ?_⟩
        intro j hj
        rw [Nat.le_zero.mp hj]
        exact Bool.eq_false_of_not_eq_true hOlder
      have hp : segments[0]? = some segments[0] := List.getElem?_eq_getElem (by omega)
      have hTime := hReading _ (hTimes _ (List.mem_of_getElem? hp))
      rcases (h 0 _ hExposed hp).2 with hFits | hLongest
      · omega
      · unfold saturatingSub longestAge at hLongest
        omega
    · exact Or.inl hOne
  · intro h i p hExposed hp
    have hReads := hExposed.reads hp
    have hTime := hReading _ (hTimes p (List.mem_of_getElem? hp))
    rcases h with hFits | hOne | hFirst
    · refine ⟨?_, Or.inl hFits⟩
      rw [ageCutoff_of_fits hFits, lt_saturatingSub_iff (by omega) (by omega) (by omega)] at hReads
      omega
    · have := hExposed.isSealed
      omega
    · rw [hExposed.older 0 (Nat.zero_le _)] at hFirst
      cases hFirst

/-- No segment goes before its age if and only if the program takes no sealed segment for old that
is not. With times before the year 292 million it never does for an age below 2^63 milliseconds,
and for a longer one only if the oldest segment is sealed and reads as older than the wrapped
cutoff. -/
theorem age_respected_iff (hHeld : Held log.segments w.store) (maxAge : Duration) (now : Int)
    (mtime : FileName → Int) :
    (AgeRespected maxAge now mtime log w ↔ NoneMisdated maxAge now mtime log.segments) ∧
      (now < 2 ^ 63 → (∀ p ∈ log.segments, mtime p.segment.path < 2 ^ 63) →
        (AgeRespected maxAge now mtime log w ↔ (maxAge.asMillis : Int) ≤ longestAge ∨
          log.segments.length ≤ 1 ∨
            notOlder (ageCutoff maxAge now) mtime log.segments 0 = true)) := by
  have hIff : AgeRespected maxAge now mtime log w ↔ NoneMisdated maxAge now mtime log.segments :=
    ⟨noneMisdated_of_respected hHeld, respected_of_noneMisdated⟩
  refine ⟨hIff, ?_⟩
  intro hNow hTimes
  rw [hIff, noneMisdated_iff hNow hTimes]

/-! ## Keeping records forever -/

/-- The longest age there is. -/
def forever : Duration := ⟨2 ^ 64 - 1, 999999999⟩

/-- A log with two segments, a second old, that is meant to keep them forever. A sweep erases the
sealed one. -/
theorem reaches_kept_segments :
    ∃ log w, Weathered Crates.uncompressed (fun env _ => env.Smooth) (some log) w ∧
      log.withAge forever = log ∧ log.segments.length = 2 ∧ Held log.segments w.store ∧
      (applyRetention (stillAt 1700000000000 fun _ => 1699999999000) log w).1 = .ok 1 ∧
      (applyRetention (stillAt 1700000000000 fun _ => 1699999999000) log w).2.2.store.get (.log 0) =
        none := by
  have hQuiet : (Env.quiet : Env FileName).Smooth := Env.quiet_quiet.smooth
  have hNew := @Weathered.opened Crates.uncompressed (fun env _ => env.Smooth) Env.quiet
    { smallSegments with maxSegmentAge := some forever } _ ⟨Store.empty, 0⟩ _
    (Weathered.fresh fun name => Store.get_empty name) rfl
  have hTwo := @Weathered.answered _ _ Env.quiet (.appendBatch [sampleRecord 1, sampleRecord 2])
    _ _ _ _ _ hNew hQuiet rfl
  have hThree := @Weathered.answered _ _ Env.quiet (.append (sampleRecord 3))
    _ _ _ _ _ hTwo hQuiet rfl
  exact ⟨_, _, hThree, rfl, rfl, ⟨by decide +kernel, by decide +kernel⟩,
    by decide +kernel, by decide +kernel⟩

/-- In a log of two or more segments, forever is too long by then. -/
theorem forever_not_respected (hHeld : Held log.segments w.store) (hLen : log.segments.length = 2) :
    ¬ AgeRespected forever 1700000000000 (fun _ => 1699999999000) log w := by
  intro h
  rcases (noneMisdated_iff (by decide) fun _ _ => by decide).mp
    (noneMisdated_of_respected hHeld h) with hFits | hOne | hNewer
  · exact absurd hFits (by decide)
  · omega
  · have hp : log.segments[0]? = some log.segments[0] := List.getElem?_eq_getElem (by omega)
    rw [notOlder, hp, Option.all_some] at hNewer
    exact absurd hNewer (by decide)

/-- In this log an hour is respected. -/
theorem age_respected_iff_hour :
    ∃ log w, Weathered Crates.uncompressed (fun env _ => env.Smooth) (some log) w ∧
      log.segments.length = 2 ∧
      AgeRespected ⟨3600, 0⟩ 1700000000000 (fun _ => 1600000000000) log w := by
  obtain ⟨log, w, hRun, -, hLen, hHeld, -⟩ := reaches_kept_segments
  refine ⟨log, w, hRun, hLen, ?_⟩
  rw [(age_respected_iff hHeld ⟨3600, 0⟩ 1700000000000 fun _ => 1600000000000).2 (by decide)
    fun _ _ => by decide]
  exact Or.inl (by decide)

/-- A sweep with the longest age erases a segment that is a second old. -/
theorem forever_erases_sealed_segments :
    ∃ log w, Weathered Crates.uncompressed (fun env _ => env.Smooth) (some log) w ∧
      log.withAge forever = log ∧
      (applyRetention (stillAt 1700000000000 fun _ => 1699999999000) log w).1 = .ok 1 ∧
      (applyRetention (stillAt 1700000000000 fun _ => 1699999999000) log w).2.2.store.get (.log 0) =
        none ∧
      ¬ AgeRespected forever 1700000000000 (fun _ => 1699999999000) log w := by
  obtain ⟨log, w, hRun, hAge, hLen, hHeld, hSweep, hGone⟩ := reaches_kept_segments
  exact ⟨log, w, hRun, hAge, hSweep, hGone, forever_not_respected hHeld hLen⟩

end Log

end Kafko
