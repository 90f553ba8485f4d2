import Kafko.Storage.ReadSpec

/-!
# Retention removes chunks from the old end

`deleteOldestSegment` forgets the oldest segment, then removes its `.log` file, then its
`.index` file. A crash between the removals leaves an index without a log, which `OnDisk`
allows below the active base. Both loops only repeat this step while more than one segment
is left, so the active segment is never touched.
-/

namespace Kafko

open Disk

namespace Layout

/-- The layout without its `n` oldest sealed chunks. -/
def retire (L : Layout) : Nat → Layout
  | 0 => L
  | n + 1 =>
    match L.chunks with
    | [] => L
    | c :: cs => retire { L with oldest := c.next, chunks := cs } n

theorem retire_cons {L : Layout} {c : Chunk} {cs : List Chunk} (h : L.chunks = c :: cs)
    (n : Nat) : L.retire (n + 1) = retire { L with oldest := c.next, chunks := cs } n := by
  rw [retire]
  split
  · next hNil =>
    rw [h] at hNil
    cases hNil
  · next c' cs' hCons =>
    rw [h] at hCons
    cases hCons
    rfl

theorem retire_nil {L : Layout} (h : L.chunks = []) (n : Nat) : L.retire n = L := by
  cases n with
  | zero => rfl
  | succ n =>
    rw [retire]
    split
    · rfl
    · next c cs hCons =>
      rw [h] at hCons
      cases hCons

theorem retire_add (L : Layout) (m n : Nat) : L.retire (m + n) = (L.retire m).retire n := by
  induction m generalizing L with
  | zero => rw [Nat.zero_add, retire]
  | succ m ih =>
    cases hChunks : L.chunks with
    | nil => rw [retire_nil hChunks, retire_nil hChunks, retire_nil hChunks]
    | cons c cs => rw [Nat.add_right_comm, retire_cons hChunks, retire_cons hChunks, ih]

@[simp] theorem active_retire (L : Layout) (n : Nat) : (L.retire n).active = L.active := by
  induction n generalizing L with
  | zero => rfl
  | succ n ih =>
    cases hChunks : L.chunks with
    | nil => rw [retire_nil hChunks]
    | cons c cs => rw [retire_cons hChunks, ih]

@[simp] theorem durable_retire (L : Layout) (n : Nat) : (L.retire n).durable = L.durable := by
  induction n generalizing L with
  | zero => rfl
  | succ n ih =>
    cases hChunks : L.chunks with
    | nil => rw [retire_nil hChunks]
    | cons c cs => rw [retire_cons hChunks, ih]

@[simp] theorem next_retire (L : Layout) (n : Nat) : (L.retire n).next = L.next := by
  rw [next, active_retire, next]

theorem frames_retire {L : Layout} (h : Chain L.oldest L.chunks L.active.base) (n : Nat) :
    L.oldest ≤ (L.retire n).oldest ∧
      (L.retire n).frames = L.frames.drop ((L.retire n).oldest - L.oldest) := by
  induction n generalizing L with
  | zero => exact ⟨Nat.le_refl _, by simp [retire]⟩
  | succ n ih =>
    cases hChunks : L.chunks with
    | nil =>
      rw [retire_nil hChunks]
      exact ⟨Nat.le_refl _, by simp⟩
    | cons c cs =>
      rw [hChunks] at h
      obtain ⟨hBase, -, hRest⟩ := h
      obtain ⟨hLe, hFrames⟩ := ih (L := { L with oldest := c.next, chunks := cs }) hRest
      have hNext : c.next = c.base + c.frames.length := rfl
      rw [retire_cons hChunks]
      dsimp only at hLe
      refine ⟨by omega, ?_⟩
      rw [hFrames]
      have hGone : c.frames.drop ((retire { L with oldest := c.next, chunks := cs } n).oldest -
          L.oldest) = [] := List.drop_eq_nil_of_le (by omega)
      have hSplit : L.frames = c.frames ++ frames { L with oldest := c.next, chunks := cs } := by
        simp [frames, hChunks]
      dsimp only
      rw [hSplit, List.drop_append, hGone, List.nil_append]
      congr 1
      omega

end Layout

/-! ## Removing the oldest segment -/

theorem Live.ext {log : Log} {d d' : Store FileName} {L : Layout} (h : Live log d L)
    (hSame : ∀ name, d'.get name = d.get name) : Live log d' L := by
  obtain ⟨f, hf, hActive⟩ := h.disk.active
  refine live_of_loaded ?_ ?_ (fun p hp => h.tracked hp) h.nextOffset
  · exact h.disk.congr rfl rfl rfl (fun name _ _ => by rw [hSame])
      ⟨f, by rw [hSame, hf], hActive⟩
  · exact loaded_congr h.loaded fun c _ => ⟨hSame _, hSame _⟩

/-- The directory without the `.log` file of the oldest sealed chunk. -/
theorem OnDisk.retire_one {d d' : Store FileName} {L : Layout} (h : OnDisk d L) {c : Chunk}
    {cs : List Chunk} (hChunks : L.chunks = c :: cs) (hGone : d'.get (.log c.base) = none)
    (hSame : ∀ name, name ≠ .log c.base → name ≠ .index c.base → d'.get name = d.get name) :
    OnDisk d' { L with oldest := c.next, chunks := cs } := by
  have hChain := h.chain
  rw [hChunks] at hChain
  obtain ⟨hBase, hNe, hRest⟩ := hChain
  have hLen := List.length_pos_of_ne_nil hNe
  have hNext : c.next = c.base + c.frames.length := rfl
  have hActiveBase := hRest.le
  have hOther : ∀ b, c.next ≤ b →
      d'.get (.log b) = d.get (.log b) ∧ d'.get (.index b) = d.get (.index b) := by
    intro b hb
    have hb' : b ≠ c.base := by omega
    exact ⟨hSame _ (by simp [hb']) (by simp), hSame _ (by simp) (by simp [hb'])⟩
  refine ⟨hRest, ?_, ?_, ?_, ?_⟩
  · intro c' hc'
    obtain ⟨hLog, hIndex⟩ := hOther c'.base (hRest.mem_bounds hc').1
    refine (h.chunks c' ?_).congr ?_ ?_
    · rw [hChunks]
      exact List.mem_cons_of_mem _ hc'
    · rw [hLog]
    · rw [hIndex]
  · obtain ⟨f, hf, hActive⟩ := h.active
    exact ⟨f, by rw [(hOther _ hActiveBase).1, hf], hActive⟩
  · intro b hb
    have hb' : b ≠ c.base := by
      rintro rfl
      rw [hGone] at hb
      cases hb
    rw [hSame _ (by simp [hb']) (by simp)] at hb
    rcases h.logs b hb with hEq | ⟨c', hc', hEq⟩
    · exact Or.inl hEq
    · rw [hChunks] at hc'
      rcases List.mem_cons.mp hc' with rfl | hc'
      · exact absurd hEq.symm hb'
      · exact Or.inr ⟨c', hc', hEq⟩
  · intro b hb
    by_cases hb' : b = c.base
    · dsimp only
      omega
    · rw [hSame _ (by simp) (by simp [hb'])] at hb
      exact h.indexes b hb

theorem Live.retire_one {log : Log} {d d' : Store FileName} {L : Layout} (h : Live log d L)
    {c : Chunk} {cs : List Chunk} (hChunks : L.chunks = c :: cs) {p : IndexedSegment}
    {ps : List IndexedSegment} (hSegments : log.segments = p :: ps)
    (hGone : d'.get (.log c.base) = none)
    (hSame : ∀ name, name ≠ .log c.base → name ≠ .index c.base → d'.get name = d.get name) :
    Live { log with segments := ps } d' { L with oldest := c.next, chunks := cs } := by
  have hDisk := h.disk.retire_one hChunks hGone hSame
  have hLoaded := h.loaded
  have hSorted := Layout.allChunks_sorted h.disk.chain
  rw [Layout.allChunks, hChunks, List.cons_append] at hLoaded hSorted
  rw [hSegments] at hLoaded
  obtain ⟨hHead, hTail⟩ := List.forall₂_cons.mp hLoaded
  obtain ⟨hLt, -⟩ := List.pairwise_cons.mp hSorted
  refine live_of_loaded hDisk (loaded_congr hTail ?_) ?_ h.nextOffset
  · intro c' hc'
    have := hLt c' hc'
    have hb' : c'.base ≠ c.base := by omega
    exact ⟨hSame _ (by simp [hb']) (by simp), hSame _ (by simp) (by simp [hb'])⟩
  · intro q hq
    dsimp only at hq
    apply h.tracked
    rw [hSegments, List.getLast?_cons, hq]
    rfl

/-- The base offset of the oldest segment in memory. -/
def Log.oldestBase (log : Log) : Nat :=
  (log.segments.head?.map fun p => p.segment.baseOffset).getD 0

theorem Live.oldestBase {log : Log} {d : Store FileName} {L : Layout} (h : Live log d L) :
    log.oldestBase = L.oldest := by
  obtain ⟨c, hc, hBase⟩ := Layout.first_chunk h.disk.chain
  have hLoaded := h.loaded
  cases hAll : L.allChunks with
  | nil => simp [hAll] at hc
  | cons c' cs =>
    rw [hAll] at hLoaded hc
    obtain rfl : c' = c := by simpa using hc
    obtain ⟨p, ps, hp, -, hSegments⟩ := List.forall₂_cons_right_iff.mp hLoaded
    rw [Log.oldestBase, hSegments, ← hBase]
    exact hp.segmentBase

/-- What a retention pass that removes `n` segments may end in; `d` is the directory it started
with, and the file of the active segment is still the same. A segment leaves memory before its
file leaves the disk, so after a crash memory may be ahead. -/
def retirePost (env : Env FileName) (log : Log) (d : Store FileName) (L : Layout) :
    Post FileName KafkoError Log Nat where
  ok := fun n log' w' => log'.config = log.config ∧ Live log' w'.store (L.retire n) ∧
    w'.store.get (.log L.active.base) = d.get (.log L.active.base)
  err := fun _ log' w' => ¬ env.Steady ∧ log'.config = log.config ∧
    (∃ n, Live log' w'.store (L.retire n)) ∧
    w'.store.get (.log L.active.base) = d.get (.log L.active.base)
  panic := fun _ _ _ => False
  crash := fun log' w' => ¬ env.Alive ∧ ∃ n m, n ≤ m ∧ OnDisk w'.store (L.retire n) ∧
    log'.oldestBase = (L.retire m).oldest

namespace Log

variable {env : Env FileName} {log : Log} {w : World FileName} {L : Layout}

/-- A missing file counts as removed; a clean environment refuses no removal. -/
theorem removeIfExists_spec {σ : Type} {s : σ} (hClean : Clean env) (name : FileName)
    {P : Store FileName → Prop}
    (hGone : P (w.store.erase name)) (hMissing : w.store.get name = none → P w.store) :
    wp env (removeIfExists name)
      { ok := fun _ s' w' => s' = s ∧ P w'.store
        err := fun _ _ _ => False
        panic := fun _ _ _ => False
        crash := fun s' w' => ¬ env.Alive ∧ s' = s ∧ w'.store = w.store } s w := by
  refine wp_recover (wp_remove ?_ ?_ ?_ ?_)
  · intro f hf
    exact ⟨rfl, hGone⟩
  · intro hNone
    exact ⟨rfl, hMissing hNone⟩
  · intro kind k hFail
    exact (hClean.failures _ _ _ _ hFail).elim
  · intro k hCrash
    exact ⟨Env.not_alive_of_crash hCrash, rfl, rfl⟩

theorem deleteOldestSegment_spec (hClean : Clean env) (h : Live log w.store L)
    (hTwo : 1 < log.segments.length) :
    wp env deleteOldestSegment
      { ok := fun _ log' w' => log'.config = log.config ∧ Live log' w'.store (L.retire 1) ∧
          w'.store.get (.log L.active.base) = w.store.get (.log L.active.base)
        err := fun _ _ _ => False
        panic := fun _ _ _ => False
        crash := fun log' w' => ¬ env.Alive ∧ ∃ n m, n ≤ m ∧ OnDisk w'.store (L.retire n) ∧
          log'.oldestBase = (L.retire m).oldest } log w := by
  have hLen := h.loaded.length_eq
  rw [Layout.allChunks, List.length_append, List.length_singleton] at hLen
  cases hSegments : log.segments with
  | nil => simp [hSegments] at hTwo
  | cons p ps =>
    cases hChunks : L.chunks with
    | nil =>
      simp [hChunks] at hLen
      omega
    | cons c cs =>
      have hRetire : L.retire 1 = { L with oldest := c.next, chunks := cs } :=
        Layout.retire_cons hChunks 0
      have hBase : p.segment.baseOffset = c.base := by
        have hLoaded := h.loaded
        rw [hSegments, Layout.allChunks, hChunks] at hLoaded
        exact (List.forall₂_cons.mp hLoaded).1.segmentBase
      have hLogSame : ∀ name, name ≠ .log c.base →
          (w.store.erase (.log c.base)).get name = w.store.get name :=
        fun name hne => Store.get_erase_of_ne _ hne
      have hActive : (FileName.log L.active.base) ≠ .log c.base := by
        have hBounds := h.disk.chain.mem_bounds (c := c) (by simp [hChunks])
        rw [Ne, FileName.log.injEq]
        omega
      have hHalf := h.retire_one hChunks hSegments (Store.get_erase_self _ _)
        (fun name hne _ => hLogSame name hne)
      rw [← hRetire] at hHalf
      rw [deleteOldestSegment, wp_get_bind]
      simp only [hSegments]
      rw [wp_modify_bind, wp_bind, Segment.path, hBase]
      refine wp_remove ?_ ?_ ?_ ?_
      · intro f hf
        dsimp only
        refine wp_mono (removeIfExists_spec hClean (.index c.base)
          (P := fun d => Live { log with segments := ps } d (L.retire 1) ∧
            d.get (.log L.active.base) = w.store.get (.log L.active.base)) ?_ ?_) ?_
          (fun _ _ _ hF => hF) (fun _ _ _ hF => hF) ?_
        · dsimp only
          rw [hRetire]
          refine ⟨h.retire_one hChunks hSegments ?_ ?_, ?_⟩
          · rw [Store.get_erase_of_ne _ (by simp)]
            exact Store.get_erase_self _ _
          · intro name hne hne'
            rw [Store.get_erase_of_ne _ hne', hLogSame name hne]
          · rw [Store.get_erase_of_ne _ (by simp), hLogSame _ hActive]
        · exact fun _ => ⟨hHalf, hLogSame _ hActive⟩
        · rintro - log' w' ⟨rfl, hLive⟩
          exact ⟨rfl, hLive⟩
        · rintro log' w' ⟨hNoisy, rfl, hw⟩
          refine ⟨hNoisy, 1, 1, Nat.le_refl _, ?_, hHalf.oldestBase⟩
          rw [hw]
          exact hHalf.disk
      · intro hNone
        obtain ⟨f, hf, -⟩ := (h.disk.chunks c (by simp [hChunks])).log
        rw [hNone] at hf
        cases hf
      · intro kind k hFail
        exact (hClean.failures _ _ _ _ hFail).elim
      · intro k hCrash
        exact ⟨Env.not_alive_of_crash hCrash, 0, 1, Nat.zero_le _, h.disk, hHalf.oldestBase⟩

/-- A pass over a log that has already lost `m` segments. -/
theorem retirePost_add {m : Nat} {log₀ : Log} {d : Store FileName}
    (hConfig : log.config = log₀.config)
    (hFile : w.store.get (.log L.active.base) = d.get (.log L.active.base))
    {prog : LogIO Log Nat} (h : wp env prog (retirePost env log w.store (L.retire m)) log w) :
    wp env (do
        let n ← prog
        pure (m + n))
      (retirePost env log₀ d L) log w := by
  refine wp_bind_of h ?_ ?_ (fun _ _ _ hF => hF) ?_
  · rintro n log' w' ⟨hConfig', hLive, hFile'⟩
    rw [wp_pure]
    rw [Layout.active_retire] at hFile'
    refine ⟨hConfig'.trans hConfig, ?_, hFile'.trans hFile⟩
    rw [Layout.retire_add]
    exact hLive
  · rintro e log' w' ⟨hNoisy, hConfig', ⟨n, hLive⟩, hFile'⟩
    rw [Layout.active_retire] at hFile'
    refine ⟨hNoisy, hConfig'.trans hConfig, ⟨m + n, ?_⟩, hFile'.trans hFile⟩
    rw [Layout.retire_add]
    exact hLive
  · rintro log' w' ⟨hNoisy, n, n', hLe, hDisk, hOldest⟩
    refine ⟨hNoisy, m + n, m + n', by omega, ?_, ?_⟩
    · rw [Layout.retire_add]
      exact hDisk
    · rw [Layout.retire_add]
      exact hOldest

/-- One removal, then the rest of a loop. -/
theorem wp_deleteThen (hClean : Clean env) (h : Live log w.store L)
    (hTwo : 1 < log.segments.length) (loop : LogIO Log Nat)
    (hLoop : ∀ log' w', log'.config = log.config → Live log' w'.store (L.retire 1) →
      wp env loop (retirePost env log' w'.store (L.retire 1)) log' w') :
    wp env (do
        deleteOldestSegment
        let deleted ← loop
        pure (deleted + 1))
      (retirePost env log w.store L) log w := by
  refine wp_bind_of (deleteOldestSegment_spec hClean h hTwo) ?_ (fun _ _ _ hF => hF.elim)
    (fun _ _ _ hF => hF) (fun _ _ hC => hC)
  rintro - log' w' ⟨hConfig, hLive, hFile⟩
  simp only [Nat.add_comm _ 1]
  exact retirePost_add hConfig hFile (hLoop log' w' hConfig hLive)

theorem deleteByAge_spec (hClean : Clean env) (h : Live log w.store L) (cutoff : Int)
    (fuel : Nat) : wp env (deleteByAge cutoff fuel) (retirePost env log w.store L) log w := by
  induction fuel generalizing log w L with
  | zero => exact ⟨rfl, h, rfl⟩
  | succ fuel ih =>
    rw [deleteByAge, wp_get_bind]
    split
    · next oldest second rest hSegments =>
      have hFirst : ∃ f, w.store.get oldest.segment.path = some f := by
        have hLoaded := h.loaded
        rw [hSegments] at hLoaded
        cases hAll : L.allChunks with
        | nil =>
          rw [hAll] at hLoaded
          cases hLoaded
        | cons c cs =>
          rw [hAll] at hLoaded
          obtain ⟨f, hf, -⟩ := (List.forall₂_cons.mp hLoaded).1.segment
          exact ⟨f, hf.file⟩
      obtain ⟨f, hf⟩ := hFirst
      rw [wp_bind, Segment.lastModifiedMs, wp_bind]
      refine wp_metadataMtime hf ?_ ?_ ?_
      · simp only [wp_pure]
        have hSame : ∀ name, (w.store.put oldest.segment.path f).get name = w.store.get name := by
          intro name
          rw [Store.get_put]
          split
          · next hEq => rw [hEq, hf]
          · rfl
        have hLive : Live log (w.store.put oldest.segment.path f) L := h.ext hSame
        split
        · have hRest := wp_deleteThen (w := ⟨w.store.put oldest.segment.path f, w.tick + 1⟩) hClean
            hLive (by simp [hSegments]) (deleteByAge cutoff fuel)
            fun log' w' _ hLive' => ih hLive'
          refine wp_mono hRest ?_ ?_ (fun _ _ _ hF => hF) (fun _ _ hC => hC)
          · rintro n log' w' ⟨hConfig, hLive', hFile⟩
            exact ⟨hConfig, hLive', hFile.trans (hSame _)⟩
          · rintro e log' w' ⟨hNoisy, hConfig, hLive', hFile⟩
            exact ⟨hNoisy, hConfig, hLive', hFile.trans (hSame _)⟩
        · exact ⟨rfl, hLive, hSame _⟩
      · intro kind k hFail
        exact ⟨Env.not_steady_of_fail hFail, rfl, ⟨0, h⟩, rfl⟩
      · intro k hCrash
        exact ⟨Env.not_alive_of_crash hCrash, 0, 0, Nat.le_refl _, h.disk, h.oldestBase⟩
    · exact ⟨rfl, h, rfl⟩

theorem deleteBySize_spec (hClean : Clean env) (h : Live log w.store L) (maxBytes fuel : Nat) :
    wp env (deleteBySize maxBytes fuel) (retirePost env log w.store L) log w := by
  induction fuel generalizing log w L with
  | zero => exact ⟨rfl, h, rfl⟩
  | succ fuel ih =>
    rw [deleteBySize, wp_get_bind]
    split
    · next hCond =>
      apply wp_deleteThen hClean h hCond.1 _
      intro log' w' _ hLive'
      exact ih hLive'
    · exact ⟨rfl, h, rfl⟩

/-- The second pass of `apply_retention`, with what the first one has deleted. -/
def sizePass (byAge : Nat) : LogIO Log Nat := do
  let log ← Fx.get
  let bySize ← match log.config.maxPartitionBytes with
    | none => pure 0
    | some maxBytes => deleteBySize maxBytes log.segments.length
  pure (byAge + bySize)

/-- Retention in two passes: the first is by age and starts at once, the second is by size and
starts from what the first one has left. -/
theorem wp_applyRetention {Q : Post FileName KafkoError Log Nat}
    {P : Nat → Log → World FileName → Prop}
    (hNoAge : log.config.maxSegmentAge = none → P 0 log w)
    (hAge : ∀ maxAge, log.config.maxSegmentAge = some maxAge →
      wp env (deleteByAge (saturatingSub (epochMillis (env.clock w.tick))
          ((maxAge.asMillis : Int).bmod (2 ^ 64))) log.segments.length)
        { ok := P, err := Q.err, panic := Q.panic, crash := Q.crash } log w)
    (hNoSize : ∀ byAge log' w', P byAge log' w' → log'.config.maxPartitionBytes = none →
      Q.ok byAge log' w')
    (hSize : ∀ byAge log' w' maxBytes, P byAge log' w' →
      log'.config.maxPartitionBytes = some maxBytes →
        wp env (do
            let bySize ← deleteBySize maxBytes log'.segments.length
            pure (byAge + bySize)) Q log' w') :
    wp env applyRetention Q log w := by
  have hRest : ∀ byAge log' w', P byAge log' w' → wp env (sizePass byAge) Q log' w' := by
    intro byAge log' w' hLeft
    rw [sizePass, wp_get_bind]
    cases hMax : log'.config.maxPartitionBytes with
    | none => exact hNoSize byAge log' w' hLeft hMax
    | some maxBytes => exact hSize byAge log' w' maxBytes hLeft hMax
  rw [applyRetention, wp_now_bind]
  dsimp only
  rw [wp_get_bind]
  cases hMaxAge : log.config.maxSegmentAge with
  | none => exact hRest 0 log w (hNoAge hMaxAge)
  | some maxAge =>
    refine wp_bind_of (hAge maxAge hMaxAge) ?_ (fun _ _ _ hE => hE) (fun _ _ _ hF => hF)
      (fun _ _ hC => hC)
    intro byAge log' w' hLeft
    exact hRest byAge log' w' hLeft

theorem applyRetention_spec (hClean : Clean env) (h : Live log w.store L) :
    wp env applyRetention (retirePost env log w.store L) log w := by
  refine wp_applyRetention (P := (retirePost env log w.store L).ok) (fun _ => ⟨rfl, h, rfl⟩)
    (fun maxAge _ => deleteByAge_spec hClean h _ _) (fun _ _ _ hLeft _ => hLeft) ?_
  intro byAge log' w' maxBytes hLeft _
  obtain ⟨hConfig, hLive, hFile⟩ := hLeft
  exact retirePost_add hConfig hFile (deleteBySize_spec hClean hLive _ _)

end Log

end Kafko
