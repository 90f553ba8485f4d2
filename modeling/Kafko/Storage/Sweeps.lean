import Kafko.Storage.Ages
import Kafko.Storage.Failures

/-!
# Sweeps that fail

`deleteOldestSegment` takes a segment out of memory before it removes the two files. Whichever
call of a sweep fails, memory and directory list the same segments afterwards, with one
exception: a `.log` file whose removal fails stays in the directory, and its segment is gone
from memory until the directory is opened again.
-/

namespace Kafko

open Disk

namespace Log

variable {env : Env FileName} {log : Log} {w : World FileName} {rest : List IndexedSegment}
  {p : IndexedSegment} {now : Int} {mtime : FileName → Int} {d d' d₁ : Store FileName}
  {call : Call FileName}

/-! ## What is left -/

/-- The first `n` segments have left memory, and the `.log` files of the first `m` the directory;
of the other files, only indexes of the first `n` may be missing. -/
structure SweptTo (log : Log) (d : Store FileName) (n m : Nat) (log' : Log) (d' : Store FileName) :
    Prop where
  memory : log' = { log with segments := log.segments.drop n }
  gone : ∀ b ∈ log.firstBases m, d'.get (.log b) = none
  others : ∀ name, (∀ b ∈ log.firstBases m, name ≠ .log b) →
    (∀ b ∈ log.firstBases n, name ≠ .index b) → d'.get name = d.get name

theorem SweptTo.none (hSame : ∀ name, d'.get name = d.get name) : SweptTo log d 0 0 log d' := by
  refine ⟨by simp, ?_, fun name _ _ => hSame name⟩
  intro b hb
  exact (List.not_mem_nil hb).elim

theorem SweptTo.add {k n m : Nat} {log' : Log}
    (h : SweptTo log d k k { log with segments := log.segments.drop k } d₁)
    (hRest : SweptTo { log with segments := log.segments.drop k } d₁ n m log' d') :
    SweptTo log d (k + n) (k + m) log' d' := by
  refine ⟨?_, ?_, ?_⟩
  · rw [hRest.memory]
    simp [List.drop_drop]
  · intro b hb
    rw [firstBases_add] at hb
    rcases List.mem_append.mp hb with hb | hb
    · -- what is gone is not brought back
      by_cases hAgain : b ∈ firstBases { log with segments := log.segments.drop k } m
      · exact hRest.gone b hAgain
      · rw [hRest.others _ ?_ (by simp), h.gone b hb]
        intro b' hb' hEq
        cases hEq
        exact hAgain hb'
    · exact hRest.gone b hb
  · intro name hLog hIndex
    rw [firstBases_add] at hLog hIndex
    rw [hRest.others name (fun b hb => hLog b (List.mem_append_right _ hb))
      fun b hb => hIndex b (List.mem_append_right _ hb),
      h.others name (fun b hb => hLog b (List.mem_append_left _ hb))
      fun b hb => hIndex b (List.mem_append_left _ hb)]

theorem firstBases_one (hSegments : log.segments = p :: rest) :
    log.firstBases 1 = [p.segment.baseOffset] := firstBases_cons hSegments 0

/-! ## One removal -/

/-- How a sweep ends that is to remove `n` segments. Either it removes them all, or a call fails
that is not the removal of a `.log` file, or such a removal fails. -/
def sweepPost (env : Env FileName) (log : Log) (d : Store FileName) (n : Nat) :
    Post FileName KafkoError Log Nat where
  ok := fun count log' w' => count = n ∧ SweptTo log d n n log' w'.store ∧
    ∀ b ∈ log.firstBases n, ∃ tick, ¬ env.Fails tick (.remove (.log b))
  err := fun _ log' w' =>
    (∃ k ≤ n, SweptTo log d k k log' w'.store ∧
      ∃ tick call, env.Fails tick call ∧ ∀ b, call ≠ .remove (.log b)) ∨
    ∃ k < n, SweptTo log d (k + 1) k log' w'.store ∧
      ∃ p, log.segments[k]? = some p ∧ ∃ tick, env.Fails tick (.remove (.log p.segment.baseOffset))
  panic := fun _ _ _ => False
  crash := fun _ _ => ¬ env.Alive

theorem deleteOldestSegment_sweeps (hHeld : Held log.segments w.store)
    (hSegments : log.segments = p :: rest) :
    wp env deleteOldestSegment
      { ok := fun _ log' w' => SweptTo log w.store 1 1 log' w'.store ∧
          ∃ tick, ¬ env.Fails tick (.remove (.log p.segment.baseOffset))
        err := fun _ log' w' =>
          (SweptTo log w.store 1 1 log' w'.store ∧
            ∃ tick call, env.Fails tick call ∧ ∀ b, call ≠ .remove (.log b)) ∨
          (SweptTo log w.store 1 0 log' w'.store ∧
            ∃ tick, env.Fails tick (.remove (.log p.segment.baseOffset)))
        panic := fun _ _ _ => False
        crash := fun _ _ => ¬ env.Alive } log w := by
  have hMemory : { log with segments := rest } = { log with segments := log.segments.drop 1 } := by
    rw [hSegments]
    rfl
  have hBases := firstBases_one hSegments
  have hHalf : SweptTo log w.store 1 1 { log with segments := rest }
      (w.store.erase (.log p.segment.baseOffset)) := by
    refine ⟨hMemory, ?_, ?_⟩
    · intro b hb
      rw [hBases, List.mem_singleton] at hb
      rw [hb, Store.get_erase_self]
    · intro name hLog hIndex
      exact Store.get_erase_of_ne _ (hLog _ (by simp [hBases]))
  have hBoth : SweptTo log w.store 1 1 { log with segments := rest }
      ((w.store.erase (.log p.segment.baseOffset)).erase (.index p.segment.baseOffset)) := by
    refine ⟨hMemory, ?_, ?_⟩
    · intro b hb
      rw [Store.get_erase_of_ne _ (by simp)]
      exact hHalf.gone b hb
    · intro name hLog hIndex
      rw [Store.get_erase_of_ne _ (hIndex _ (by simp [hBases])), hHalf.others name hLog hIndex]
  have hStuck : SweptTo log w.store 1 0 { log with segments := rest } w.store := by
    refine ⟨hMemory, ?_, fun name _ _ => rfl⟩
    intro b hb
    exact (List.not_mem_nil hb).elim
  rw [deleteOldestSegment, wp_get_bind]
  simp only [hSegments]
  rw [wp_modify_bind, wp_bind, Segment.path]
  by_cases hFails : env.Fails w.tick (.remove (.log p.segment.baseOffset))
  · apply wp_perform_fails hFails
    intro kind k
    exact Or.inr ⟨hStuck, _, hFails⟩
  · refine wp_remove ?_ ?_ ?_ ?_
    · intro f hf
      refine wp_recover (wp_remove ?_ ?_ ?_ ?_)
      · exact fun g hg => ⟨hBoth, _, hFails⟩
      · exact fun hMissing => ⟨hHalf, _, hFails⟩
      · intro kind k hFail
        dsimp only
        split
        · exact ⟨hHalf, _, hFails⟩
        · exact Or.inl ⟨hHalf, _, _, ⟨kind, k, hFail⟩, by simp⟩
      · exact fun k hCrash => Env.not_alive_of_crash hCrash
    · intro hMissing
      have hFile := hHeld.files p (by simp [hSegments])
      rw [Segment.path, hMissing] at hFile
      cases hFile
    · exact fun kind k hFail => absurd ⟨kind, k, hFail⟩ hFails
    · exact fun k hCrash => Env.not_alive_of_crash hCrash

/-- One removal, then the rest of a loop. -/
theorem wp_deleteThen_sweeps (hHeld : Held log.segments w.store)
    (hSame : ∀ name, w.store.get name = d.get name) (hSegments : log.segments = p :: rest) {n : Nat}
    {loop : LogIO Log Nat}
    (hLoop : ∀ w' : World FileName, Held rest w'.store →
      wp env loop (sweepPost env { log with segments := rest } w'.store n)
        { log with segments := rest } w') :
    wp env (do
        deleteOldestSegment
        let deleted ← loop
        pure (deleted + 1))
      (sweepPost env log d (n + 1)) log w := by
  have hDrop : log.segments.drop 1 = rest := by
    rw [hSegments]
    rfl
  have hFrom : ∀ {m : Nat} {log' : Log} {d' : Store FileName}, SweptTo log w.store 1 m log' d' →
      SweptTo log d 1 m log' d' := by
    intro m log' d' h
    refine ⟨h.memory, h.gone, ?_⟩
    intro name hLog hIndex
    rw [h.others name hLog hIndex, hSame]
  refine wp_bind_of (deleteOldestSegment_sweeps hHeld hSegments) ?_ ?_ (fun _ _ _ hF => hF)
    (fun _ _ hC => hC)
  · rintro - log' w' ⟨hSwept, hRemoved⟩
    have hFirst := hFrom hSwept
    obtain rfl : log' = { log with segments := log.segments.drop 1 } := hSwept.memory
    rw [hDrop] at hFirst ⊢
    have hAdd : ∀ {k m : Nat} {log'' : Log} {d'' : Store FileName},
        SweptTo { log with segments := rest } w'.store k m log'' d'' →
          SweptTo log d (1 + k) (1 + m) log'' d'' := by
      intro k m log'' d'' h
      rw [← hDrop] at h hFirst
      exact hFirst.add h
    have hHeld' : Held rest w'.store := by
      rw [hSegments] at hHeld
      apply hHeld.removed
      intro name hLog hIndex
      have hBases := firstBases_one hSegments
      exact hSwept.others name (by simpa [hBases] using hLog) (by simpa [hBases] using hIndex)
    refine wp_bind_of (hLoop w' hHeld') ?_ ?_ (fun _ _ _ hF => hF) (fun _ _ hC => hC)
    · rintro count log'' w'' ⟨rfl, hRest, hAll⟩
      refine ⟨rfl, ?_, ?_⟩
      · rw [Nat.add_comm]
        exact hAdd hRest
      · intro b hb
        rw [Nat.add_comm, firstBases_add, hDrop, firstBases_one hSegments] at hb
        rcases List.mem_append.mp hb with hb | hb
        · rw [List.mem_singleton.mp hb]
          exact hRemoved
        · exact hAll b hb
    · rintro e log'' w'' (⟨k, hk, hRest, hWhy⟩ | ⟨k, hk, hRest, q, hq, hWhy⟩)
      · exact Or.inl ⟨1 + k, by omega, hAdd hRest, hWhy⟩
      · refine Or.inr ⟨1 + k, by omega, hAdd hRest, q, ?_, hWhy⟩
        rw [Nat.add_comm, hSegments]
        exact hq
  · rintro e log' w' (⟨hSwept, hWhy⟩ | ⟨hSwept, hWhy⟩)
    · exact Or.inl ⟨1, by omega, hFrom hSwept, hWhy⟩
    · exact Or.inr ⟨0, by omega, hFrom hSwept, p, by simp [hSegments], hWhy⟩

/-! ## The loops -/

theorem sweepPost_none (hSame : ∀ name, w.store.get name = d.get name) :
    wp env (pure 0) (sweepPost env log d 0) log w := by
  refine ⟨rfl, SweptTo.none hSame, ?_⟩
  intro b hb
  exact (List.not_mem_nil hb).elim

theorem deleteByAge_sweeps (cutoff : Int) {fuel : Nat} (hFrozen : Frozen env now mtime)
    (hHeld : Held log.segments w.store) (hFuel : log.segments.length ≤ fuel) :
    wp env (deleteByAge cutoff fuel)
      (sweepPost env log w.store (olderCount cutoff mtime log.segments)) log w := by
  induction fuel generalizing log w with
  | zero =>
    have hNone : olderCount cutoff mtime log.segments = 0 := by
      have hLe := olderCount_le cutoff mtime log.segments
      omega
    rw [hNone]
    exact sweepPost_none fun _ => rfl
  | succ fuel ih =>
    rw [deleteByAge, wp_get_bind]
    split
    · next oldest second rest hSegments =>
      have hFile := hHeld.files oldest (by simp [hSegments])
      obtain ⟨f, hf⟩ := Option.isSome_iff_exists.mp hFile
      rw [wp_bind, Segment.lastModifiedMs, wp_bind]
      refine wp_metadataMtime hf ?_ ?_ ?_
      · simp only [wp_pure]
        have hSame : ∀ name, (w.store.put oldest.segment.path f).get name = w.store.get name := by
          intro name
          rw [Store.get_put]
          split
          · next hEq => rw [hEq, hf]
          · rfl
        rw [hFrozen.mtime, hSegments, olderCount_cons]
        split
        · refine wp_deleteThen_sweeps ?_ hSame hSegments ?_
          · exact ⟨hHeld.distinct, fun q hq => by rw [hSame]; exact hHeld.files q hq⟩
          · intro w' hHeld'
            apply ih hHeld'
            rw [hSegments] at hFuel
            simpa using hFuel
        · exact sweepPost_none hSame
      · intro kind k hFail
        exact Or.inl ⟨0, Nat.zero_le _, SweptTo.none fun _ => rfl, _, _, ⟨kind, k, hFail⟩, by simp⟩
      · exact fun k hCrash => Env.not_alive_of_crash hCrash
    · next hFew =>
      have hNone : olderCount cutoff mtime log.segments = 0 := by
        rcases hSegments : log.segments with _ | ⟨p, _ | ⟨q, rest⟩⟩
        · rfl
        · rfl
        · exact absurd hSegments (hFew p q rest)
      rw [hNone]
      exact sweepPost_none fun _ => rfl

/-- How many segments have to go for the rest to be within the limit; the last one stays. -/
def excessOf (maxBytes : Nat) (segments : List IndexedSegment) : Nat :=
  leastBelow (segments.length - 1) (withinLimit maxBytes segments)

theorem excessOf_le (maxBytes : Nat) (segments : List IndexedSegment) :
    excessOf maxBytes segments ≤ segments.length - 1 := leastBelow_le _ _

theorem excessOf_cons {q : IndexedSegment} (maxBytes : Nat) :
    excessOf maxBytes (p :: q :: rest) =
      if maxBytes < ((p :: q :: rest).map fun p => p.segment.size).sum then
        excessOf maxBytes (q :: rest) + 1 else 0 := by
  have hTail : (fun k => withinLimit maxBytes (p :: q :: rest) (k + 1)) =
      withinLimit maxBytes (q :: rest) := by
    funext k
    simp [withinLimit]
  have hFirst : withinLimit maxBytes (p :: q :: rest) 0 =
      decide (((p :: q :: rest).map fun p => p.segment.size).sum ≤ maxBytes) := rfl
  rw [excessOf, show (p :: q :: rest).length - 1 = rest.length + 1 by simp, leastBelow_succ, hTail,
    hFirst]
  by_cases hOver : maxBytes < ((p :: q :: rest).map fun p => p.segment.size).sum
  · rw [if_pos hOver, decide_eq_false (by omega), if_neg (by simp)]
    rfl
  · rw [if_neg hOver, decide_eq_true (by omega), if_pos rfl]

theorem deleteBySize_sweeps (maxBytes : Nat) {fuel : Nat} (hHeld : Held log.segments w.store)
    (hFuel : log.segments.length ≤ fuel) :
    wp env (deleteBySize maxBytes fuel) (sweepPost env log w.store
      (excessOf maxBytes log.segments)) log w := by
  induction fuel generalizing log w with
  | zero =>
    have hNone : excessOf maxBytes log.segments = 0 := by
      have hLe := excessOf_le maxBytes log.segments
      omega
    rw [hNone]
    exact sweepPost_none fun _ => rfl
  | succ fuel ih =>
    rw [deleteBySize, wp_get_bind]
    rcases hSegments : log.segments with _ | ⟨p, _ | ⟨q, rest⟩⟩
    · rw [if_neg (by simp)]
      exact sweepPost_none fun _ => rfl
    · rw [if_neg (by simp)]
      exact sweepPost_none fun _ => rfl
    · rw [excessOf_cons, totalSize, hSegments]
      by_cases hOver : maxBytes < ((p :: q :: rest).map fun p => p.segment.size).sum
      · rw [if_pos ⟨by simp, hOver⟩, if_pos hOver]
        apply wp_deleteThen_sweeps hHeld (fun _ => rfl) hSegments
        intro w' hHeld'
        apply ih hHeld'
        rw [hSegments] at hFuel
        simpa using hFuel
      · rw [if_neg fun hBoth => hOver hBoth.2, if_neg hOver]
        exact sweepPost_none fun _ => rfl

/-! ## The whole sweep -/

/-- How many segments a sweep is to remove: the longer of two prefixes. -/
def dueCount (log : Log) (now : Int) (mtime : FileName → Int) : Nat :=
  max (match log.config.maxSegmentAge with
    | none => 0
    | some maxAge => olderCount (ageCutoff maxAge now) mtime log.segments) log.excessCount

/-- The part of the sweep that goes by age. -/
theorem exists_dueByAge (log : Log) (now : Int) (mtime : FileName → Int) :
    ∃ a ≤ log.segments.length - 1, log.dueCount now mtime = max a log.excessCount ∧
      (log.config.maxSegmentAge = none → a = 0) ∧
      ∀ maxAge, log.config.maxSegmentAge = some maxAge →
        olderCount (ageCutoff maxAge now) mtime log.segments = a := by
  unfold dueCount
  cases log.config.maxSegmentAge with
  | none => exact ⟨0, Nat.zero_le _, rfl, fun _ => rfl, fun maxAge hMaxAge => by cases hMaxAge⟩
  | some maxAge =>
    refine ⟨_, olderCount_le (ageCutoff maxAge now) mtime log.segments, rfl, ?_, ?_⟩
    · intro hNone
      cases hNone
    · intro other hMaxAge
      cases hMaxAge
      rfl

theorem dueCount_le (log : Log) (now : Int) (mtime : FileName → Int) :
    log.dueCount now mtime ≤ log.segments.length - 1 := by
  obtain ⟨a, hLe, hDue, -⟩ := log.exists_dueByAge now mtime
  rw [hDue]
  exact Nat.max_le.mpr ⟨hLe, log.excessCount_le⟩

theorem mem_firstBases {n b : Nat} :
    b ∈ log.firstBases n ↔ ∃ p ∈ log.segments.take n, p.segment.baseOffset = b := List.mem_map

theorem mem_firstBases_of_getElem? {k n : Nat} (hp : log.segments[k]? = some p) (hLt : k < n) :
    p.segment.baseOffset ∈ log.firstBases n :=
  mem_firstBases.mpr ⟨p, mem_take_of_getElem? hp hLt, rfl⟩

theorem not_mem_firstBases {k : Nat}
    (hDistinct : (log.segments.map fun p => p.segment.baseOffset).Nodup)
    (hp : p ∈ log.segments.drop k) : p.segment.baseOffset ∉ log.firstBases k := by
  intro hIn
  obtain ⟨q, hq, hBase⟩ := mem_firstBases.mp hIn
  exact base_ne_of_dropped hDistinct hq hp hBase

theorem SweptTo.log_same {k m b : Nat} {log' : Log} (h : SweptTo log d k m log' d')
    (hb : b ∉ log.firstBases m) : d'.get (.log b) = d.get (.log b) := by
  refine h.others _ ?_ fun _ _ => by simp
  intro b' hb' hEq
  cases hEq
  exact hb hb'

theorem SweptTo.held {k : Nat}
    (h : SweptTo log d k k { log with segments := log.segments.drop k } d')
    (hHeld : Held log.segments d) : Held (log.segments.drop k) d' := by
  refine ⟨?_, ?_⟩
  · rw [List.map_drop]
    exact hHeld.distinct.sublist (List.drop_sublist _ _)
  · intro p hp
    rw [Segment.path, h.log_same (not_mem_firstBases hHeld.distinct hp)]
    exact hHeld.files p (List.mem_of_mem_drop hp)

/-- The rest of a sweep that has removed `m` segments. -/
theorem sweepPost_add {m n : Nat} {prog : LogIO Log Nat}
    (hSwept : SweptTo log d m m { log with segments := log.segments.drop m } w.store)
    (hRemoved : ∀ b ∈ log.firstBases m, ∃ tick, ¬ env.Fails tick (.remove (.log b)))
    (h : wp env prog (sweepPost env { log with segments := log.segments.drop m } w.store n)
      { log with segments := log.segments.drop m } w) :
    wp env (do
        let count ← prog
        pure (m + count))
      (sweepPost env log d (m + n)) { log with segments := log.segments.drop m } w := by
  refine wp_bind_of h ?_ ?_ (fun _ _ _ hF => hF) (fun _ _ hC => hC)
  · rintro count log' w' ⟨rfl, hRest, hAll⟩
    refine ⟨rfl, hSwept.add hRest, ?_⟩
    intro b hb
    rw [firstBases_add] at hb
    rcases List.mem_append.mp hb with hb | hb
    · exact hRemoved b hb
    · exact hAll b hb
  · rintro e log' w' (⟨k, hk, hRest, hWhy⟩ | ⟨k, hk, hRest, q, hq, hWhy⟩)
    · exact Or.inl ⟨m + k, by omega, hSwept.add hRest, hWhy⟩
    · refine Or.inr ⟨m + k, by omega, hSwept.add hRest, q, ?_, hWhy⟩
      rw [← List.getElem?_drop]
      exact hq

theorem sweepPost_mono {m n : Nat} (hLe : m ≤ n) {e : KafkoError} {log' : Log}
    {w' : World FileName} (h : (sweepPost env log d m).err e log' w') :
    (sweepPost env log d n).err e log' w' := by
  rcases h with ⟨k, hk, hRest⟩ | ⟨k, hk, hRest⟩
  · exact Or.inl ⟨k, hk.trans hLe, hRest⟩
  · exact Or.inr ⟨k, hk.trans_le hLe, hRest⟩

theorem applyRetention_sweeps (hFrozen : Frozen env now mtime) (hHeld : Held log.segments w.store) :
    wp env applyRetention (sweepPost env log w.store (log.dueCount now mtime)) log w := by
  obtain ⟨a, hLe, hDue, hNoAge, hAged⟩ := log.exists_dueByAge now mtime
  rw [hDue]
  refine wp_applyRetention (P := (sweepPost env log w.store a).ok) ?_ ?_ ?_ ?_
  · intro hMaxAge
    rw [hNoAge hMaxAge]
    exact ⟨rfl, SweptTo.none fun _ => rfl, fun b hb => (List.not_mem_nil hb).elim⟩
  · intro maxAge hMaxAge
    have hFirst := deleteByAge_sweeps (ageCutoff maxAge now) hFrozen hHeld (Nat.le_refl _)
    rw [hAged maxAge hMaxAge] at hFirst
    rw [hFrozen.clock]
    exact wp_mono hFirst (fun _ _ _ hOk => hOk)
      (fun _ _ _ hE => sweepPost_mono (Nat.le_max_left _ _) hE) (fun _ _ _ hF => hF)
      (fun _ _ hC => hC)
  · rintro byAge log' w' ⟨rfl, hSwept, hRemoved⟩ hMax
    obtain rfl := hSwept.memory
    have hNone : log.excessCount = 0 := excessCount_none hMax
    rw [hNone, Nat.max_eq_left (Nat.zero_le _)]
    exact ⟨rfl, hSwept, hRemoved⟩
  · -- the second loop, behind the segments that the first one has removed
    rintro byAge log' w' maxBytes ⟨rfl, hSwept, hRemoved⟩ hMax
    obtain rfl := hSwept.memory
    have hSum := @max_excessCount log maxBytes byAge hMax hLe
    rw [hSum]
    exact sweepPost_add hSwept hRemoved
      (deleteBySize_sweeps maxBytes (hSwept.held hHeld) (Nat.le_refl _))

/-! ## Memory and directory -/

/-- The segments in memory are those of the `.log` files. -/
def SameBases (log : Log) (d : Store FileName) : Prop :=
  ∀ b, (∃ p ∈ log.segments, p.segment.baseOffset = b) ↔ (d.get (.log b)).isSome

theorem SweptTo.sameBases {k : Nat} {log' : Log} (h : SweptTo log d k k log' d')
    (hHeld : Held log.segments d) (hSame : SameBases log d) : SameBases log' d' := by
  intro b
  rw [h.memory]
  dsimp only
  by_cases hGone : b ∈ log.firstBases k
  · rw [h.gone b hGone]
    refine iff_of_false ?_ (by simp)
    rintro ⟨p, hp, rfl⟩
    exact not_mem_firstBases hHeld.distinct hp hGone
  · rw [h.log_same hGone, ← hSame]
    constructor
    · rintro ⟨p, hp, hBase⟩
      exact ⟨p, List.mem_of_mem_drop hp, hBase⟩
    · rintro ⟨p, hp, hBase⟩
      rw [← List.take_append_drop k log.segments] at hp
      rcases List.mem_append.mp hp with hp | hp
      · exact absurd (mem_firstBases.mpr ⟨p, hp, hBase⟩) hGone
      · exact ⟨p, hp, hBase⟩

/-- A `.log` file whose removal fails is on disk only. -/
theorem SweptTo.not_sameBases {k : Nat} {log' : Log} (h : SweptTo log d (k + 1) k log' d')
    (hHeld : Held log.segments d) (hp : log.segments[k]? = some p) : ¬ SameBases log' d' := by
  intro hSame
  have hFile : (d'.get (.log p.segment.baseOffset)).isSome := by
    rw [h.log_same]
    · exact hHeld.files p (List.mem_of_getElem? hp)
    · apply not_mem_firstBases hHeld.distinct
      exact List.mem_of_getElem? (i := 0) (by rw [List.getElem?_drop]; exact hp)
  obtain ⟨q, hq, hBase⟩ := (hSame _).mpr hFile
  rw [h.memory] at hq
  apply not_mem_firstBases hHeld.distinct hq
  rw [hBase]
  exact mem_firstBases_of_getElem? hp (Nat.lt_succ_self k)

/-- If one call fails, the sweep ends with memory and directory alike, or it was the removal of a
`.log` file that was due. -/
theorem sweep_ends (hFails : env.FailsOnly call) (hFrozen : Frozen env now mtime)
    (hHeld : Held log.segments w.store) {r : Res KafkoError Nat} {log' : Log} {w' : World FileName}
    (hRun : applyRetention env log w = (r, log', w')) :
    ((∀ b ∈ log.firstBases (log.dueCount now mtime), call ≠ .remove (.log b)) ∧
      ∃ k ≤ log.dueCount now mtime, SweptTo log w.store k k log' w'.store) ∨
    ((∃ b ∈ log.firstBases (log.dueCount now mtime), call = .remove (.log b)) ∧
      ∃ k p, log.segments[k]? = some p ∧ SweptTo log w.store (k + 1) k log' w'.store) := by
  have hSpec := applyRetention_sweeps hFrozen hHeld
  rw [wp, hRun] at hSpec
  cases r with
  | ok count =>
    obtain ⟨-, hSwept, hRemoved⟩ := hSpec
    refine Or.inl ⟨?_, _, Nat.le_refl _, hSwept⟩
    rintro b hb rfl
    obtain ⟨tick, hDone⟩ := hRemoved b hb
    exact hDone (hFails.fails tick)
  | err e =>
    rcases hSpec with ⟨k, hk, hSwept, tick, other, hOther, hNot⟩ |
      ⟨k, hk, hSwept, p, hp, tick, hStuck⟩
    · obtain rfl := hFails.eq hOther
      exact Or.inl ⟨fun b _ => hNot b, k, hk, hSwept⟩
    · exact Or.inr ⟨⟨_, mem_firstBases_of_getElem? hp hk, (hFails.eq hStuck).symm⟩, k, p, hp,
        hSwept⟩
  | panic m => exact hSpec.elim
  | crash => exact absurd hFails.alive hSpec

/-- Memory and directory list the same segments after a sweep in which one call fails, if and only
if this is not the removal of a `.log` file that is due. -/
theorem sameBases_iff (hFails : env.FailsOnly call) (hFrozen : Frozen env now mtime)
    (hHeld : Held log.segments w.store) (hSame : SameBases log w.store) {r : Res KafkoError Nat}
    {log' : Log} {w' : World FileName} (hRun : applyRetention env log w = (r, log', w')) :
    SameBases log' w'.store ↔
      ∀ b ∈ log.firstBases (log.dueCount now mtime), call ≠ .remove (.log b) := by
  rcases sweep_ends hFails hFrozen hHeld hRun with
    ⟨hNot, k, -, hSwept⟩ | ⟨⟨b, hb, hCall⟩, k, p, hp, hSwept⟩
  · exact iff_of_true (hSwept.sameBases hHeld hSame) hNot
  · exact iff_of_false (hSwept.not_sameBases hHeld hp) fun hNot => hNot b hb hCall

end Log

/-! ## Logs that know all their bytes -/

section

variable {X : Crates} {env : Env FileName} {log log' : Log} {w : World FileName}
  {d d' : Store FileName} {L : Layout} {h : History Record} {n k : Nat} {now : Int}
  {mtime : FileName → Int} {call : Call FileName}

theorem Live.held (hLive : Live log d L) : Log.Held log.segments d := by
  refine ⟨?_, ?_⟩
  · rw [Log.baseOffsets_eq hLive.loaded]
    exact (List.pairwise_map.mpr (Layout.allChunks_sorted hLive.disk.chain)).imp Nat.ne_of_lt
  · intro p hp
    obtain ⟨i, hi⟩ := List.getElem?_of_mem hp
    obtain ⟨c, -, hLoaded⟩ := loaded_at hLive.loaded hi
    obtain ⟨f, hf, -⟩ := hLoaded.segment
    rw [hf.file]
    rfl

theorem Live.sameBases (hLive : Live log d L) : Log.SameBases log d := by
  intro b
  rw [hLive.disk.isSome_log, ← Log.baseOffsets_eq hLive.loaded, List.mem_map]

/-- A directory like `d` without one `.log` file, and with whatever index `d'` has. -/
theorem exists_without_log (d d' : Store FileName) (base : Nat) :
    ∃ d₁ : Store FileName, d₁.get (.log base) = none ∧
      d₁.get (.index base) = d'.get (.index base) ∧
      ∀ name, name ≠ .log base → name ≠ .index base → d₁.get name = d.get name := by
  cases hIndex : d'.get (.index base) with
  | none =>
    refine ⟨(d.erase (.log base)).erase (.index base), ?_, Store.get_erase_self _ _, ?_⟩
    · rw [Store.get_erase_of_ne _ (by simp), Store.get_erase_self]
    · intro name hLog hNot
      rw [Store.get_erase_of_ne _ hNot, Store.get_erase_of_ne _ hLog]
  | some f =>
    refine ⟨(d.erase (.log base)).put (.index base) f, ?_, Store.get_put_self _ _ _, ?_⟩
    · rw [Store.get_put_of_ne _ _ (by simp), Store.get_erase_self]
    · intro name hLog hNot
      rw [Store.get_put_of_ne _ _ hNot, Store.get_erase_of_ne _ hLog]

/-- A log that agrees with its directory still does after a sweep, without its oldest chunks. -/
theorem Live.swept (hLive : Live log d L) (hLt : k < log.segments.length)
    (hSwept : Log.SweptTo log d k k log' d') : Live log' d' (L.retire k) := by
  induction k generalizing log d L with
  | zero =>
    rw [hSwept.memory]
    refine hLive.ext fun name => hSwept.others name ?_ ?_
    · intro b hb
      exact (List.not_mem_nil hb).elim
    · intro b hb
      exact (List.not_mem_nil hb).elim
  | succ k ih =>
    have hLen := hLive.loaded.length_eq
    rw [Layout.allChunks, List.length_append, List.length_singleton] at hLen
    obtain ⟨p, rest, hSegments⟩ := List.exists_cons_of_ne_nil
      (List.ne_nil_of_length_pos (Nat.lt_of_le_of_lt (Nat.zero_le _) hLt))
    obtain ⟨c, cs, hChunks⟩ := List.exists_cons_of_ne_nil
      (List.ne_nil_of_length_pos (show 0 < L.chunks.length by omega))
    have hBase : p.segment.baseOffset = c.base := by
      have hLoaded := hLive.loaded
      rw [hSegments, Layout.allChunks, hChunks] at hLoaded
      exact (List.forall₂_cons.mp hLoaded).1.segmentBase
    obtain ⟨d₁, hGone, hIndex, hSame⟩ := exists_without_log d d' c.base
    have hBases := fun m => hBase ▸ Log.firstBases_cons hSegments m
    rw [Layout.retire_cons hChunks]
    apply ih (hLive.retire_one hChunks hSegments hGone hSame) (by simpa [hSegments] using hLt)
    refine ⟨?_, ?_, ?_⟩
    · rw [hSwept.memory, hSegments]
      rfl
    · intro b hb
      exact hSwept.gone b (by rw [hBases]; exact List.mem_cons_of_mem _ hb)
    · intro name hLog hNot
      by_cases hOwnLog : name = .log c.base
      · rw [hOwnLog, hGone]
        exact hSwept.gone _ (by rw [hBases]; exact List.mem_cons_self)
      by_cases hOwnIndex : name = .index c.base
      · rw [hOwnIndex, hIndex]
      rw [hSame name hOwnLog hOwnIndex, hSwept.others name]
      · intro b hb
        rw [hBases] at hb
        rcases List.mem_cons.mp hb with rfl | hb
        · exact hOwnLog
        · exact hLog b hb
      · intro b hb
        rw [hBases] at hb
        rcases List.mem_cons.mp hb with rfl | hb
        · exact hOwnIndex
        · exact hNot b hb

theorem Refines.swept (hRef : Refines X log d h n) (hLt : k < log.segments.length)
    (hSwept : Log.SweptTo log d k k log' d') :
    ∃ oldest, Refines X log' d' (h.retire oldest) n := by
  obtain ⟨L, hLive, hSound, hRep, hn⟩ := hRef
  refine ⟨_, L.retire k, hLive.swept hLt hSwept, hSound.retire hLive.disk.chain k,
    hRep.retire hLive.disk.chain k, ?_⟩
  unfold Layout.durableOffset
  rw [Layout.active_retire, Layout.durable_retire]
  exact hn

/-- The bytes in the `.log` files of a directory. -/
def logBytes (d : Store FileName) : Nat :=
  ((d.names.filterMap Log.logBase).map fun b =>
    ((d.get (.log b)).map fun f => f.data.length).getD 0).sum

theorem Live.totalSize (hLive : Live log d L) : log.totalSize = logBytes d := by
  have hPerm : (d.names.filterMap Log.logBase).Perm
      (log.segments.map fun p => p.segment.baseOffset) := by
    rw [Log.baseOffsets_eq hLive.loaded, ← hLive.disk.discovered]
    exact (List.perm_insertionSort _ _).symm
  rw [logBytes, (hPerm.map _).sum_nat, List.map_map, Log.totalSize]
  congr 1
  apply List.map_congr_left
  intro p hp
  obtain ⟨i, hi⟩ := List.getElem?_of_mem hp
  obtain ⟨c, -, hLoaded⟩ := loaded_at hLive.loaded hi
  obtain ⟨f, hf, -⟩ := hLoaded.segment
  have hFile := hf.file
  rw [Segment.path] at hFile
  rw [hf.size, Function.comp_apply, hFile]
  rfl

/-- This session and the next one know the same records: memory lists the segments of the
directory, the size counts all their bytes, and after opening the directory again every offset is
answered as it is now. -/
structure Agrees (X : Crates) (log : Log) (w : World FileName) : Prop where
  bases : Log.SameBases log w.store
  size : log.totalSize = logBytes w.store
  reads : ∀ (env : Env FileName) (config : LogConfig), env.Quiet → ∃ log' w',
    Log.open_ X config env () w = (.ok log', (), w') ∧ ∀ env', env'.Quiet → ∀ offset,
      (Log.readRecordAt X offset env' log w).1 = (Log.readRecordAt X offset env' log' w').1

theorem Refines.agrees (hRef : Refines X log w.store h n) : Agrees X log w := by
  have hRef' := hRef
  obtain ⟨L, hLive, -, -, -⟩ := hRef'
  refine ⟨hLive.sameBases, hLive.totalSize, ?_⟩
  intro env config hEnv
  obtain ⟨log', w', hOpen, -, hReopened⟩ := reopen_quiet hEnv hRef config
  refine ⟨log', w', hOpen, ?_⟩
  intro env' hEnv' offset
  obtain ⟨_, _, hNow, -⟩ := read_quiet hEnv' hRef offset
  obtain ⟨_, _, hThen, -⟩ := read_quiet hEnv' hReopened offset
  rw [hNow, hThen]

/-- Logs reached by operations that succeed or fail cleanly, by opening the directory again, and by
sweeps in which anything may fail but the removal of a `.log` file. A sweep reads the clock once,
and each modification time at most once. -/
inductive Swept (X : Crates) : Log → World FileName → Prop
  | created {env : Env FileName} {config : LogConfig} {log : Log} {w w' : World FileName}
      (hEnv : env.Quiet) (hFresh : Fresh w.store)
      (hRun : Log.create config env () w = (.ok log, (), w')) : Swept X log w'
  | answered {env : Env FileName} {op : LogOp} {reply : Reply} {log log' : Log}
      {w w' : World FileName} (hBefore : Swept X log w) (hEnv : CleanFailures env)
      (hOp : op.Admissible X log) (hRun : op.exec X env log w = (.ok reply, log', w')) :
      Swept X log' w'
  | failed {env : Env FileName} {op : LogOp} {e : KafkoError} {log log' : Log}
      {w w' : World FileName} (hBefore : Swept X log w) (hEnv : CleanFailures env)
      (hOp : op.Admissible X log) (hRun : op.exec X env log w = (.err e, log', w')) :
      Swept X log' w'
  | swept {env : Env FileName} {now : Int} {mtime : FileName → Int} {r : Res KafkoError Nat}
      {log log' : Log} {w w' : World FileName} (hBefore : Swept X log w)
      (hFrozen : Log.Frozen env now mtime) (hAlive : env.Alive)
      (hRemoves : ∀ tick base, ¬ env.Fails tick (.remove (.log base)))
      (hRun : Log.applyRetention env log w = (r, log', w')) : Swept X log' w'
  | reopened {env : Env FileName} {config : LogConfig} {log log' : Log} {w w' : World FileName}
      (hBefore : Swept X log w) (hEnv : env.Quiet)
      (hRun : Log.open_ X config env () w = (.ok log', (), w')) : Swept X log' w'

/-- A sweep that has dropped fewer segments than there are. -/
theorem Refines.sweep (hRef : Refines X log w.store h n) {w' : World FileName}
    (hDue : k ≤ log.dueCount now mtime) (hSwept : Log.SweptTo log w.store k k log' w'.store) :
    ∃ oldest, Refines X log' w'.store (h.retire oldest) n := by
  have hLive := hRef
  obtain ⟨L, hLive, -, -, -⟩ := hLive
  have hNe := hLive.loaded.length_eq
  rw [Layout.allChunks, List.length_append, List.length_singleton] at hNe
  have hLe := Log.dueCount_le log now mtime
  exact hRef.swept (by omega) hSwept

theorem Swept.refines (hX : X.Lawful) (hRun : Swept X log w) :
    ∃ h n, Refines X log w.store h n := by
  induction hRun with
  | @created env config log w w' hEnv hFresh hRun =>
    obtain ⟨log', w'', hCreate, -, hRef⟩ := create_refines (X := X) (σ := Unit) hEnv hFresh config
    rw [hRun] at hCreate
    cases hCreate
    exact ⟨_, _, hRef⟩
  | @answered env op reply log log' w w' _ hEnv hOp hRun ih =>
    obtain ⟨h, n, hRef⟩ := ih
    have hSpec := exec_spec hX hEnv.clean hRef hOp
    rw [wp, hRun] at hSpec
    obtain ⟨-, h', -, hRef'⟩ := hSpec
    exact ⟨h', _, hRef'⟩
  | @failed env op e log log' w w' _ hEnv hOp hRun ih =>
    obtain ⟨h, n, hRef⟩ := ih
    have hSpec := exec_spec hX hEnv.clean hRef hOp
    rw [wp, hRun] at hSpec
    obtain ⟨-, ⟨h', -, hRef'⟩, -⟩ := hSpec
    exact ⟨h', _, hRef'⟩
  | @swept env now mtime r log log' w w' _ hFrozen hAlive hRemoves hRun ih =>
    obtain ⟨h, n, hRef⟩ := ih
    have hLive := hRef
    obtain ⟨L, hLive, -, -, -⟩ := hLive
    have hSpec := Log.applyRetention_sweeps hFrozen hLive.held
    rw [wp, hRun] at hSpec
    obtain ⟨k, hDue, hSwept⟩ : ∃ k ≤ log.dueCount now mtime,
        Log.SweptTo log w.store k k log' w'.store := by
      cases r with
      | ok count => exact ⟨_, Nat.le_refl _, hSpec.2.1⟩
      | err e =>
        rcases hSpec with ⟨k, hk, hSwept, -⟩ | ⟨_, _, _, p, _, tick, hStuck⟩
        · exact ⟨k, hk, hSwept⟩
        · exact absurd hStuck (hRemoves tick _)
      | panic m => exact hSpec.elim
      | crash => exact absurd hAlive hSpec
    obtain ⟨oldest, hRef'⟩ := hRef.sweep hDue hSwept
    exact ⟨_, n, hRef'⟩
  | @reopened env config log log' w w' _ hEnv hRun ih =>
    obtain ⟨h, n, hRef⟩ := ih
    obtain ⟨log'', w'', hOpen, -, hRef'⟩ := reopen_quiet hEnv hRef config
    rw [hRun] at hOpen
    cases hOpen
    exact ⟨h, n, hRef'⟩

/-- As long as no sweep fails to remove a `.log` file, this session and the next one know the same
records. From any state in which memory and directory list the same segments, a sweep in which one
call fails ends in such a state if and only if this call is not the removal of a `.log` file that
is due; and so the records stay the same. -/
theorem sweeps_agree_iff (hX : X.Lawful) :
    (∀ log w, Swept X log w → Agrees X log w) ∧
      ∀ log w, Log.Held log.segments w.store → Log.SameBases log w.store →
        ∀ env now mtime call, env.FailsOnly call → Log.Frozen env now mtime → ∀ r log' w',
          Log.applyRetention env log w = (r, log', w') →
            (Log.SameBases log' w'.store ↔
              ∀ b ∈ log.firstBases (log.dueCount now mtime), call ≠ .remove (.log b)) ∧
            (Swept X log w → (Agrees X log' w' ↔
              ∀ b ∈ log.firstBases (log.dueCount now mtime), call ≠ .remove (.log b))) := by
  refine ⟨?_, ?_⟩
  · intro log w hRun
    obtain ⟨h, n, hRef⟩ := hRun.refines hX
    exact hRef.agrees
  · intro log w hHeld hSame env now mtime call hFails hFrozen r log' w' hRun
    have hIff := Log.sameBases_iff hFails hFrozen hHeld hSame hRun
    refine ⟨hIff, fun hReach => ⟨fun hAgrees => hIff.mp hAgrees.bases, ?_⟩⟩
    intro hNot
    obtain ⟨h, n, hRef⟩ := hReach.refines hX
    rcases Log.sweep_ends hFails hFrozen hHeld hRun with ⟨-, k, hDue, hSwept⟩ | ⟨⟨b, hb, hCall⟩, -⟩
    · obtain ⟨oldest, hRef'⟩ := hRef.sweep hDue hSwept
      exact hRef'.agrees
    · exact absurd hCall (hNot b hb)

end

/-! ## A file that cannot be removed -/

/-- One call is denied, and nothing else fails. -/
def denies (call : Call FileName) : Env FileName where
  outcome _ other := if other = call then .fail .permissionDenied 0 else .ok
  clock _ := 0
  mtime _ _ := 0

theorem failsOnly_denies (call : Call FileName) : (denies call).FailsOnly call := by
  refine ⟨fun _ => ⟨.permissionDenied, 0, if_pos rfl⟩, ?_⟩
  intro tick other hNe
  exact if_neg hNe

theorem frozen_denies (call : Call FileName) : Log.Frozen (denies call) 0 fun _ => 0 :=
  ⟨fun _ => rfl, fun _ _ => rfl⟩

/-- What the next session answers. -/
def rereads (X : Crates) (config : LogConfig) (w : World FileName) (offset : Nat) :
    Res KafkoError (Option Record) :=
  match Log.open_ X config Env.quiet () w with
  | (.ok log, _, w) => (Log.readRecordAt X offset Env.quiet log w).1
  | _ => .crash

/-- Two records in a segment that is due, a third in the next one. The `.log` file of the first
cannot be removed. -/
theorem reaches_stuck_segment :
    ∃ log w, Swept Crates.uncompressed log w ∧
      log.firstBases (log.dueCount 0 fun _ => 0) = [0] ∧
      (Log.readRecordAt Crates.uncompressed 0 Env.quiet
        (Log.applyRetention (denies (.remove (.log 0))) log w).2.1
        (Log.applyRetention (denies (.remove (.log 0))) log w).2.2).1 = .ok none ∧
      rereads Crates.uncompressed log.config
        (Log.applyRetention (denies (.remove (.log 0))) log w).2.2 0 =
          .ok (some (sampleRecord 1)) := by
  have hNew := @Swept.created Crates.uncompressed Env.quiet (Log.keepsNothing .none) _
    ⟨Store.empty, 0⟩ _ Env.quiet_quiet (fun name => Store.get_empty name) rfl
  have hTwo := @Swept.answered _ Env.quiet (.appendBatch [sampleRecord 1, sampleRecord 2]) _ _ _ _ _
    hNew (cleanFailures_of_quiet Env.quiet_quiet) (by decide +kernel) rfl
  have hThree := @Swept.answered _ Env.quiet (.append (sampleRecord 3)) _ _ _ _ _
    hTwo (cleanFailures_of_quiet Env.quiet_quiet) (by decide +kernel) rfl
  exact ⟨_, _, hThree, by decide +kernel, by decide +kernel, by decide +kernel⟩

/-- If the index cannot be removed, nothing is lost. -/
theorem sweeps_agree_iff_index :
    ∃ log w, Swept Crates.uncompressed log w ∧
      log.firstBases (log.dueCount 0 fun _ => 0) = [0] ∧
      Agrees Crates.uncompressed (Log.applyRetention (denies (.remove (.index 0))) log w).2.1
        (Log.applyRetention (denies (.remove (.index 0))) log w).2.2 := by
  obtain ⟨log, w, hReach, hDue, -⟩ := reaches_stuck_segment
  obtain ⟨h, n, L, hLive, -⟩ := hReach.refines Crates.lawful_uncompressed
  refine ⟨log, w, hReach, hDue, ?_⟩
  rcases hRun : Log.applyRetention (denies (.remove (.index 0))) log w with ⟨r, log', w'⟩
  rw [((sweeps_agree_iff Crates.lawful_uncompressed).2 log w hLive.held hLive.sameBases _ 0
    (fun _ => 0) _ (failsOnly_denies _) (frozen_denies _) r log' w' hRun).2 hReach]
  intro b hb
  simp

/-- If the `.log` file cannot be removed, its records are gone now and back after a restart. -/
theorem undeleted_segment_reappears :
    ∃ log w, Swept Crates.uncompressed log w ∧ Agrees Crates.uncompressed log w ∧
      ∃ log' w', (Log.applyRetention (denies (.remove (.log 0))) log w).2 = (log', w') ∧
      (Log.readRecordAt Crates.uncompressed 0 Env.quiet log' w').1 = .ok none ∧
      rereads Crates.uncompressed log.config w' 0 = .ok (some (sampleRecord 1)) ∧
      ¬ Log.SameBases log' w'.store ∧ ¬ Agrees Crates.uncompressed log' w' := by
  obtain ⟨log, w, hReach, hDue, hNow, hThen⟩ := reaches_stuck_segment
  obtain ⟨h, n, hRef⟩ := hReach.refines Crates.lawful_uncompressed
  have hLive := hRef
  obtain ⟨L, hLive, -⟩ := hLive
  rcases hRun : Log.applyRetention (denies (.remove (.log 0))) log w with ⟨r, log', w'⟩
  rw [hRun] at hNow hThen
  have hStuck : ¬ Log.SameBases log' w'.store := by
    rw [Log.sameBases_iff (failsOnly_denies _) (frozen_denies _) hLive.held hLive.sameBases hRun,
      hDue]
    intro hNot
    exact hNot 0 List.mem_cons_self rfl
  exact ⟨log, w, hReach, hRef.agrees, log', w', by rw [hRun], hNow, hThen, hStuck,
    fun hAgrees => hStuck hAgrees.bases⟩

end Kafko
