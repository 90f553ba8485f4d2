import Kafko.Storage.AppendSpec
import Kafko.Wire.Progress

/-!
# Reading a record

`readRecordAt` searches the segments, then the index of one of them, then decodes forward.
Each step is described by the frames it skips, so the composition returns the frame at the
wanted offset and nothing else. An offset below the oldest chunk ends up in the oldest
segment with a start behind it, and the forward scan runs to the end without a match.
-/

namespace Kafko

open Disk

/-- Decoding gives the record back, whatever follows the frame. -/
def Readable (X : Crates) (f : LogFrame) : Prop :=
  ∀ rest, Record.decode X (f.bytes ++ rest) = .ok (f.record, rest)

/-- Decoding the bytes of the frames, with `rest` behind them, gives the frames back. A frame
that is not readable on its own may still decode in front of its successors. -/
def Decodes (X : Crates) (rest : Bytes) : List LogFrame → Prop
  | [] => True
  | f :: fs => Record.decode X (f.bytes ++ (flat fs ++ rest)) = .ok (f.record, flat fs ++ rest) ∧
      Decodes X rest fs

theorem decodes_of_readable {X : Crates} {fs : List LogFrame} (h : ∀ f ∈ fs, Readable X f)
    (rest : Bytes) : Decodes X rest fs := by
  induction fs with
  | nil => trivial
  | cons f fs ih =>
    exact ⟨h f List.mem_cons_self _, ih fun g hg => h g (List.mem_cons_of_mem _ hg)⟩

theorem Decodes.drop {X : Crates} {rest : Bytes} {fs : List LogFrame} (h : Decodes X rest fs)
    (k : Nat) : Decodes X rest (fs.drop k) := by
  induction fs generalizing k with
  | nil =>
    rw [List.drop_nil]
    trivial
  | cons f fs ih =>
    cases k with
    | zero => exact h
    | succ k => exact ih h.2 k

/-! ## Finding the chunk -/

namespace Layout

/-- All chunks, oldest first. -/
def allChunks (L : Layout) : List Chunk := L.chunks ++ [L.active]

/-- The record the log holds at an offset. -/
def recordAt (L : Layout) (offset : Nat) : Option Record :=
  if L.oldest ≤ offset then (L.frames[offset - L.oldest]?).map Frame.record else none

variable {L : Layout}

theorem allChunks_sorted (h : Chain L.oldest L.chunks L.active.base) :
    L.allChunks.Pairwise fun a b => a.base < b.base := by
  refine List.pairwise_append.mpr ⟨h.pairwise, List.pairwise_singleton _ _, ?_⟩
  intro a ha b hb
  obtain ⟨-, h2, h3⟩ := h.mem_bounds ha
  rw [List.mem_singleton.mp hb]
  omega

theorem mem_frames {c : Chunk} (hc : c ∈ L.allChunks) {f : LogFrame} (hf : f ∈ c.frames) :
    f ∈ L.frames := by
  have hFlat : L.frames = L.allChunks.flatMap Chunk.frames := by simp [frames, allChunks]
  rw [hFlat]
  exact List.mem_flatMap.mpr ⟨c, hc, hf⟩

theorem length_frames (h : Chain L.oldest L.chunks L.active.base) :
    L.oldest + L.frames.length = L.next := by
  have := h.length_frames
  unfold frames next Chunk.next
  rw [List.length_append]
  omega

end Layout

theorem Chain.getElem?_frames {oldest base : Nat} {cs : List Chunk} (h : Chain oldest cs base)
    {c : Chunk} (hc : c ∈ cs) {i : Nat} (hi : i < c.frames.length) :
    (cs.flatMap Chunk.frames)[c.base - oldest + i]? = c.frames[i]? := by
  induction cs generalizing oldest with
  | nil => cases hc
  | cons c' cs ih =>
    obtain ⟨rfl, hNe, hRest⟩ := h
    rw [List.flatMap_cons]
    rcases List.mem_cons.mp hc with rfl | hc
    · rw [Nat.sub_self, Nat.zero_add, List.getElem?_append_left hi]
    · have hBounds := hRest.mem_bounds hc
      have hNext : c'.next = c'.base + c'.frames.length := rfl
      rw [List.getElem?_append_right (by omega), ← ih hRest hc]
      congr 1
      omega

/-- A frame of a chunk, seen as a frame of the log. -/
theorem Layout.getElem?_frames {L : Layout} (h : Chain L.oldest L.chunks L.active.base)
    {c : Chunk} (hc : c ∈ L.allChunks) {i : Nat} (hi : i < c.frames.length) :
    L.frames[c.base - L.oldest + i]? = c.frames[i]? := by
  have hLen := h.length_frames
  rcases List.mem_append.mp hc with hc | hc
  · have hBounds := h.mem_bounds hc
    have hNext : c.next = c.base + c.frames.length := rfl
    rw [Layout.frames, List.getElem?_append_left (by omega)]
    exact h.getElem?_frames hc hi
  · obtain rfl := List.mem_singleton.mp hc
    rw [Layout.frames, List.getElem?_append_right (by omega)]
    congr 1
    omega

/-! ## Finding the frame -/

theorem SparseIndex.lookup_spec {x : SparseIndex} {fs : List LogFrame}
    (h : IndexFor x.entries fs) (offset : Nat) :
    ∃ k, k ≤ fs.length ∧ x.lookup offset = (span (fs.take k), x.baseOffset + k) ∧
      (x.baseOffset ≤ offset → x.baseOffset + k ≤ offset) := by
  by_cases hBelow : offset < x.baseOffset
  · refine ⟨0, Nat.zero_le _, ?_, fun hle => hle⟩
    rw [lookup, if_pos hBelow]
    rfl
  · have hBase := Nat.le_of_not_lt hBelow
    rcases lookup_cases h.sorted hBase with ⟨-, hLookup⟩ | ⟨i, e, he, ⟨⟨e', he', hKey⟩, -⟩, hLookup⟩
    · exact ⟨0, Nat.zero_le _, hLookup, fun hle => hle⟩
    · obtain rfl := Option.some.inj (he.symm.trans he')
      obtain ⟨hLt, hPos⟩ := h.exact e (List.mem_of_getElem? he)
      refine ⟨e.relativeOffset, hLt.le, ?_, fun _ => by omega⟩
      rw [hLookup, hPos]

namespace Log

open IndexedSegment

theorem findRecord_flat {X : Crates} {fs : List LogFrame} (h : Decodes X [] fs)
    (offset : Nat) {fuel : Nat} (hFuel : fs.length ≤ fuel) (current : Nat) :
    findRecord X offset fuel (flat fs) current =
      .ok (if current ≤ offset then (fs[offset - current]?).map Frame.record else none) := by
  induction fs generalizing fuel current with
  | nil => cases fuel <;> simp [findRecord]
  | cons f fs ih =>
    obtain ⟨fuel, rfl⟩ : ∃ n, fuel = n + 1 := ⟨fuel - 1, by simp at hFuel; omega⟩
    have hNe : (flat (f :: fs)).isEmpty = false := by
      simp [f.nonempty]
    have hRest := ih h.2 (by simpa using hFuel) (current + 1)
    have hDecode := h.1
    rw [List.append_nil] at hDecode
    rw [findRecord, hNe, flat_cons, hDecode]
    simp only [Bool.false_eq_true, if_false]
    by_cases hEq : current = offset
    · simp [hEq]
    · rw [if_neg hEq, hRest]
      by_cases hLe : current + 1 ≤ offset
      · have hSub : offset - current = offset - (current + 1) + 1 := by omega
        rw [if_pos hLe, if_pos (by omega), hSub, List.getElem?_cons_succ]
      · rw [if_neg hLe, if_neg (by omega)]

variable {env : Env FileName} {log : Log} {w : World FileName} {L : Layout} {X : Crates}

/-- The decode loop from the `k`-th frame of a chunk to its end. -/
def searchFrom (X : Crates) (c : Chunk) (k offset : Nat) : Res KafkoError (Option Record) :=
  findRecord X offset (span (c.frames.drop k)) (flat (c.frames.drop k)) (c.base + k)

/-- The search inside one segment, whether its frames decode or not: the loop starts at a
frame at or before the offset. -/
theorem readFrom_searches {p : IndexedSegment} {c : Chunk} (hFull : env.FullReads)
    (hp : Loaded w.store p c) (X : Crates) (offset : Nat) :
    ∃ k, (c.base ≤ offset → c.base + k ≤ offset) ∧
    wp env (readFrom X offset)
      { ok := fun r p' w' => (Loaded w'.store p' c ∧ p'.index = p.index ∧
          w.store.Moves w'.store (.log c.base)) ∧ searchFrom X c k offset = .ok r
        err := fun e p' w' => (Loaded w'.store p' c ∧ p'.index = p.index ∧
          w.store.Moves w'.store (.log c.base)) ∧
          (¬ env.Steady ∨ searchFrom X c k offset = .err e)
        panic := fun m _ _ => searchFrom X c k offset = .panic m
        crash := fun _ w' => (¬ env.Alive ∨ searchFrom X c k offset = .crash) ∧
          w.store.Moves w'.store (.log c.base) } p w := by
  obtain ⟨f, hs, hData, hCut⟩ := hp.segment
  have hPath : p.segment.path = .log c.base := by rw [Segment.path, hp.segmentBase]
  have hFile : w.store.get (.log c.base) = some f := hPath ▸ hs.file
  obtain ⟨k, hk, hLookup, hBefore⟩ := SparseIndex.lookup_spec hp.entries offset
  have hSize : p.segment.size = span c.frames := by rw [hs.size, hData, span]
  have hRest : span c.frames - span (c.frames.take k) = span (c.frames.drop k) := by
    have := span_take_add_drop c.frames k
    omega
  -- the segment and its file after a seek or a read
  have hKeep : ∀ (s : Segment) (w' : World FileName), s.baseOffset = p.segment.baseOffset →
      (∃ g, SegmentOk w'.store s g ∧ w.store.Updates w'.store p.segment.path g ∧
        g.rewind = f.rewind) →
      Loaded w'.store { p with segment := s } c ∧ w.store.Moves w'.store (.log c.base) := by
    rintro s w' hBase ⟨g, hg, hUpd, hRewind⟩
    have hSame : g.data = f.data ∧ g.cut = f.cut := by
      simp only [File.rewind, File.mk.injEq] at hRewind
      exact ⟨hRewind.1, hRewind.2.2.1⟩
    obtain ⟨x, hx, hxData⟩ := hp.index.file
    rw [hPath] at hUpd
    refine ⟨⟨hBase.trans hp.segmentBase, ⟨g, hg, hSame.1.trans hData, hSame.2.trans hCut⟩,
      hp.indexBase, ⟨x, ?_, hxData⟩, hp.entries⟩, f, g, hFile, hUpd, hRewind⟩
    rw [← hx]
    exact hUpd.others _ (by simp [SparseIndex.path])
  rw [hp.indexBase] at hBefore
  refine ⟨k, hBefore, ?_⟩
  rw [readFrom, wp_get_bind, hLookup, hp.indexBase]
  dsimp only
  rw [hSize, hRest]
  by_cases hEnd : span (c.frames.drop k) = 0
  · rw [if_pos hEnd, wp_pure]
    refine ⟨⟨hp, rfl, f, f, hFile, Store.Updates.refl hFile, rfl⟩, ?_⟩
    rw [searchFrom, hEnd, findRecord]
  · rw [if_neg hEnd, wp_bind, onSegment, wp_zoom]
    refine wp_mono (Segment.readAt_spec hFull hs (span (c.frames.take k))
      (span (c.frames.drop k))) ?_ ?_ (fun _ _ _ hF => hF.elim) ?_
    · rintro bytes s w' ⟨rfl, hBase, hRead⟩
      obtain ⟨hLoaded, hFiles⟩ := hKeep s w' hBase hRead
      have hBytes : (f.data.drop (span (c.frames.take k))).take (span (c.frames.drop k)) =
          flat (c.frames.drop k) := by
        rw [hData, drop_span_take, span, List.take_length]
      dsimp only
      rw [hBytes]
      change wp env (Fx.lift (searchFrom X c k offset)) _ _ _
      cases hSearch : searchFrom X c k offset with
      | ok r => exact ⟨⟨hLoaded, rfl, hFiles⟩, rfl⟩
      | err e => exact ⟨⟨hLoaded, rfl, hFiles⟩, Or.inr rfl⟩
      | panic m => exact rfl
      | crash => exact ⟨Or.inr rfl, hFiles⟩
    · rintro e s w' ⟨hNoisy, hBase, hRead⟩
      obtain ⟨hLoaded, hFiles⟩ := hKeep s w' hBase hRead
      exact ⟨⟨hLoaded, rfl, hFiles⟩, Or.inl hNoisy⟩
    · rintro s w' ⟨hNoisy, g, hUpd, hRewind⟩
      rw [hPath] at hUpd
      exact ⟨Or.inl hNoisy, f, g, hFile, hUpd, hRewind⟩

theorem searchFrom_decodes {c : Chunk} (hDecodes : Decodes X [] c.frames) {k offset : Nat}
    (hBefore : c.base ≤ offset → c.base + k ≤ offset) :
    searchFrom X c k offset =
      .ok (if c.base ≤ offset then (c.frames[offset - c.base]?).map Frame.record else none) := by
  rw [searchFrom, findRecord_flat (hDecodes.drop k) offset (length_le_span _)]
  by_cases hBase : c.base ≤ offset
  · have := hBefore hBase
    rw [if_pos hBase, if_pos this, List.getElem?_drop]
    congr 3
    omega
  · rw [if_neg hBase, if_neg (by omega)]

/-- The search inside one segment all of whose frames decode. -/
theorem readFrom_spec {p : IndexedSegment} {c : Chunk} (hFull : env.FullReads)
    (hp : Loaded w.store p c) (hReadable : ∀ f ∈ c.frames, Readable X f) (offset : Nat) :
    wp env (readFrom X offset)
      { ok := fun r p' w' => (Loaded w'.store p' c ∧ p'.index = p.index ∧
          w.store.Moves w'.store (.log c.base)) ∧
          r = if c.base ≤ offset then (c.frames[offset - c.base]?).map Frame.record else none
        err := fun _ p' w' => ¬ env.Steady ∧ Loaded w'.store p' c ∧ p'.index = p.index ∧
          w.store.Moves w'.store (.log c.base)
        panic := fun _ _ _ => False
        crash := fun _ w' => ¬ env.Alive ∧ w.store.Moves w'.store (.log c.base) } p w := by
  obtain ⟨k, hBefore, hSearch⟩ := readFrom_searches hFull hp X offset
  rw [searchFrom_decodes (decodes_of_readable hReadable []) hBefore] at hSearch
  refine wp_mono hSearch ?_ ?_ (fun _ _ _ hP => by cases hP) ?_
  · rintro r p' w' ⟨hKept, hFound⟩
    exact ⟨hKept, (Res.ok.inj hFound).symm⟩
  · rintro e p' w' ⟨hKept, hNoisy | hFound⟩
    · exact ⟨hNoisy, hKept⟩
    · cases hFound
  · rintro p' w' ⟨hNoisy | hFound, hMoves⟩
    · exact ⟨hNoisy, hMoves⟩
    · cases hFound

end Log

/-! ## The whole log -/

/-- Every segment in memory, sealed or active, is loaded. -/
theorem Live.loaded {log : Log} {d : Store FileName} {L : Layout} (h : Live log d L) :
    List.Forall₂ (Loaded d) log.segments L.allChunks := by
  obtain ⟨init, active, f, hParts⟩ := h.parts
  exact Log.loaded_segments hParts

theorem Live.disk {log : Log} {d : Store FileName} {L : Layout} (h : Live log d L) :
    OnDisk d L := by
  obtain ⟨init, active, f, hParts⟩ := h.parts
  exact hParts.disk

/-- One segment was replaced by another one for the same chunk, with only the handle of its
file moved. -/
theorem loaded_set {d d' : Store FileName} {segments : List IndexedSegment}
    {cs : List Chunk} (h : List.Forall₂ (Loaded d) segments cs)
    (hSorted : cs.Pairwise fun a b => a.base < b.base) {i : Nat} {c : Chunk}
    (hc : cs[i]? = some c) {p' : IndexedSegment} (hp' : Loaded d' p' c)
    (hOthers : ∀ name, name ≠ .log c.base → d'.get name = d.get name) :
    List.Forall₂ (Loaded d') (segments.set i p') cs := by
  induction h generalizing i with
  | nil => cases hc
  | @cons p₀ c₀ ps cs₀ hHead hTail ih =>
    obtain ⟨hLt, hRest⟩ := List.pairwise_cons.mp hSorted
    cases i with
    | zero =>
      obtain rfl : c₀ = c := by simpa using hc
      refine List.Forall₂.cons hp' (loaded_congr hTail ?_)
      intro c' hc'
      have := hLt c' hc'
      refine ⟨hOthers _ ?_, hOthers _ (by simp)⟩
      simp only [ne_eq, FileName.log.injEq]
      omega
    | succ i =>
      have hc' : cs₀[i]? = some c := by simpa using hc
      have := hLt c (List.mem_of_getElem? hc')
      refine List.Forall₂.cons (hHead.congr (hOthers _ ?_) (hOthers _ (by simp))) (ih hRest hc')
      simp only [ne_eq, FileName.log.injEq]
      omega

theorem loaded_at {d : Store FileName} {segments : List IndexedSegment} {cs : List Chunk}
    (h : List.Forall₂ (Loaded d) segments cs) {i : Nat} {p : IndexedSegment}
    (hp : segments[i]? = some p) : ∃ c, cs[i]? = some c ∧ Loaded d p c := by
  have hLen := h.length_eq
  obtain ⟨hi, rfl⟩ := List.getElem?_eq_some_iff.mp hp
  exact ⟨_, List.getElem?_eq_getElem (hLen ▸ hi), h.get hi (hLen ▸ hi)⟩

theorem live_of_loaded {log : Log} {d : Store FileName} {L : Layout} (hDisk : OnDisk d L)
    (hLoaded : List.Forall₂ (Loaded d) log.segments L.allChunks)
    (hTracked : ∀ p, log.segments.getLast? = some p → p.index =
      SparseIndex.tracked L.active.base log.config.indexInterval L.active.frames)
    (hNext : log.nextOffset = L.next) : Live log d L := by
  have hInit := List.forall₂_take_append _ _ _ hLoaded
  have hLast := List.forall₂_drop_append _ _ _ hLoaded
  cases hDrop : log.segments.drop L.chunks.length with
  | nil =>
    rw [hDrop] at hLast
    cases hLast
  | cons p rest =>
    rw [hDrop] at hLast
    obtain ⟨hp, hRest⟩ := List.forall₂_cons.mp hLast
    obtain rfl := List.forall₂_nil_right_iff.mp hRest
    have hSplit : log.segments = log.segments.take L.chunks.length ++ [p] := by
      rw [← hDrop, List.take_append_drop]
    obtain ⟨f, hf, hData, hCut⟩ := hp.segment
    have hEntries := hp.entries
    have hIndex := hTracked p (by rw [hSplit]; simp)
    rw [← List.take_length (l := L.active.frames)] at hEntries hIndex
    exact ⟨⟨_, p, f, hDisk, hSplit, hInit, hp.segmentBase, hf, hData, hCut, hp.index, hEntries,
      hIndex⟩, hNext⟩

theorem Live.tracked {log : Log} {d : Store FileName} {L : Layout} (h : Live log d L)
    {p : IndexedSegment} (hp : log.segments.getLast? = some p) : p.index =
      SparseIndex.tracked L.active.base log.config.indexInterval L.active.frames := by
  obtain ⟨init, active, f, hParts⟩ := h.parts
  obtain rfl : active = p := by simpa [hParts.split] using hp
  have hTracked := hParts.tracked
  rwa [List.take_length] at hTracked

/-- The positions of the handles do not matter. -/
theorem OnDisk.rewound {d d' : Store FileName} {L : Layout} (h : OnDisk d L)
    (hSame : ∀ name, (d'.get name).map File.rewind = (d.get name).map File.rewind) :
    OnDisk d' L := by
  obtain ⟨f, hf, hActive⟩ := h.active
  have hRewind := hSame (.log L.active.base)
  rw [hf] at hRewind
  obtain ⟨g, hg, hData, hSynced, hCut⟩ := map_rewind_eq_some hRewind
  refine h.congr rfl rfl rfl (fun name _ _ => hSame name) ⟨g, hg, ?_⟩
  exact ⟨by rw [hData, hCut]; exact hActive.content, by rw [hSynced]; exact hActive.synced,
    by rw [hData, hSynced]; exact hActive.covered⟩

/-- A read leaves the log live. -/
theorem Live.moved {log : Log} {d d' : Store FileName} {L : Layout} (h : Live log d L)
    {i : Nat} {p p' : IndexedSegment} {c : Chunk} (hp : log.segments[i]? = some p)
    (hc : L.allChunks[i]? = some c) (hp' : Loaded d' p' c) (hIndex : p'.index = p.index)
    (hMoves : d.Moves d' (.log c.base)) :
    Live { log with segments := log.segments.set i p' } d' L := by
  refine live_of_loaded (h.disk.rewound hMoves.rewind) ?_ ?_ h.nextOffset
  · obtain ⟨f, g, -, hUpd, -⟩ := hMoves
    exact loaded_set h.loaded (Layout.allChunks_sorted h.disk.chain) hc hp' hUpd.others
  · intro q hq
    dsimp only at hq ⊢
    rw [List.getLast?_eq_getElem?, List.length_set, List.getElem?_set] at hq
    split at hq
    · next hEq =>
      split at hq
      · obtain rfl := Option.some.inj hq
        rw [hIndex]
        apply h.tracked
        rw [List.getLast?_eq_getElem?, ← hEq]
        exact hp
      · cases hq
    · exact h.tracked (by rw [List.getLast?_eq_getElem?]; exact hq)

theorem Chain.next_eq {oldest base : Nat} {cs : List Chunk} (h : Chain oldest cs base) {i : Nat}
    {c : Chunk} (hc : cs[i]? = some c) : (cs[i + 1]?.map Chunk.base).getD base = c.next := by
  induction cs generalizing oldest i with
  | nil => cases hc
  | cons c' cs ih =>
    obtain ⟨-, -, hRest⟩ := h
    cases i with
    | zero =>
      obtain rfl : c' = c := by simpa using hc
      cases cs with
      | nil => exact hRest.symm
      | cons c'' cs => exact hRest.1
    | succ i => simpa using ih hRest (by simpa using hc)

namespace Layout

variable {L : Layout}

theorem oldest_le (h : Chain L.oldest L.chunks L.active.base) {c : Chunk}
    (hc : c ∈ L.allChunks) : L.oldest ≤ c.base := by
  rcases List.mem_append.mp hc with hc | hc
  · exact (h.mem_bounds hc).1
  · rw [List.mem_singleton.mp hc]
    exact h.le

theorem first_chunk (h : Chain L.oldest L.chunks L.active.base) :
    ∃ c, L.allChunks[0]? = some c ∧ c.base = L.oldest := by
  cases hChunks : L.chunks with
  | nil =>
    rw [hChunks] at h
    exact ⟨L.active, by simp [allChunks, hChunks], h.symm⟩
  | cons c cs =>
    rw [hChunks] at h
    exact ⟨c, by simp [allChunks, hChunks], h.1⟩

/-- A chunk is the active one or ends where the next one begins. -/
theorem next_chunk (h : Chain L.oldest L.chunks L.active.base) {i : Nat} {c : Chunk}
    (hc : L.allChunks[i]? = some c) :
    (c = L.active ∧ L.allChunks[i + 1]? = none) ∨
      ∃ c', L.allChunks[i + 1]? = some c' ∧ c'.base = c.next := by
  unfold allChunks at *
  rcases Nat.lt_trichotomy i L.chunks.length with hi | hi | hi
  · rw [List.getElem?_append_left hi] at hc
    have hNext := h.next_eq hc
    right
    by_cases hLast : i + 1 < L.chunks.length
    · rw [List.getElem?_eq_getElem hLast] at hNext
      exact ⟨_, by rw [List.getElem?_append_left hLast, List.getElem?_eq_getElem hLast], hNext⟩
    · rw [List.getElem?_eq_none (by omega)] at hNext
      refine ⟨L.active, ?_, hNext⟩
      rw [List.getElem?_append_right (by omega)]
      simp [show i + 1 - L.chunks.length = 0 by omega]
  · exact Or.inl ⟨by simpa [hi] using hc.symm, List.getElem?_eq_none (by simp [hi])⟩
  · rw [List.getElem?_eq_none (by simp; omega)] at hc
    cases hc

end Layout

namespace Log

variable {α : Type} {env : Env FileName} {log : Log} {w : World FileName} {L : Layout} {X : Crates}

theorem wp_onSegmentAt {Q : Post FileName KafkoError Log α} {prog : LogIO IndexedSegment α}
    {i : Nat} {p : IndexedSegment} (hp : log.segments[i]? = some p) :
    wp env (onSegmentAt i prog) Q log w ↔
      wp env prog
        { ok := fun a p w' => Q.ok a { log with segments := log.segments.set i p } w'
          err := fun e p w' => Q.err e { log with segments := log.segments.set i p } w'
          panic := fun m p w' => Q.panic m { log with segments := log.segments.set i p } w'
          crash := fun p w' => Q.crash { log with segments := log.segments.set i p } w' } p w := by
  unfold wp onSegmentAt
  simp only [hp]
  rcases prog env p w with ⟨r, p, w'⟩
  cases r <;> rfl

theorem baseOffsets_eq {d : Store FileName} {segments : List IndexedSegment} {cs : List Chunk}
    (h : List.Forall₂ (Loaded d) segments cs) :
    segments.map (fun p => p.segment.baseOffset) = cs.map Chunk.base :=
  loaded_map (fun _ _ hLoaded => hLoaded.segmentBase) h

/-- The segment a read goes to: the one that holds the offset, or the oldest one if the
offset lies below all of them. -/
theorem findSegmentIndex_spec {d : Store FileName} (h : Live log d L) {offset : Nat}
    (hOffset : offset < L.next) : ∃ p c, log.segments[log.findSegmentIndex offset]? = some p ∧
      L.allChunks[log.findSegmentIndex offset]? = some c ∧ Loaded d p c ∧
      (if L.oldest ≤ offset then c.base ≤ offset ∧ offset < c.next else offset < c.base) := by
  have hChain := h.disk.chain
  have hBases := baseOffsets_eq h.loaded
  have hKey : ∀ i : Nat, (log.segments[i]?).map (fun p => p.segment.baseOffset) =
      (L.allChunks[i]?).map Chunk.base := by
    intro i
    rw [← List.getElem?_map, ← List.getElem?_map, hBases]
  have hSorted : log.segments.Pairwise
      fun a b => a.segment.baseOffset < b.segment.baseOffset := by
    have := Layout.allChunks_sorted hChain
    rw [← List.pairwise_map (f := Chunk.base) (R := (· < ·)), ← hBases] at this
    exact List.pairwise_map.mp this
  have hHolds : ∀ i, LastAtMost log.segments offset (fun p => p.segment.baseOffset) i →
      ∃ p c, log.segments[i]? = some p ∧ L.allChunks[i]? = some c ∧ Loaded d p c ∧
        (if L.oldest ≤ offset then c.base ≤ offset ∧ offset < c.next else offset < c.base) := by
    rintro i ⟨⟨p, hp, hLe⟩, hAbove⟩
    obtain ⟨c, hc, hLoaded⟩ := loaded_at h.loaded hp
    have hOldest := Layout.oldest_le hChain (List.mem_of_getElem? hc)
    dsimp only at hLe hAbove
    rw [hLoaded.segmentBase] at hLe
    refine ⟨p, c, hp, hc, hLoaded, ?_⟩
    rw [if_pos (by omega)]
    refine ⟨hLe, ?_⟩
    rcases Layout.next_chunk hChain hc with ⟨hActive, -⟩ | ⟨c', hc', hNext⟩
    · rw [hActive]
      exact hOffset
    · -- the next segment starts behind the offset
      have hSome := hKey (i + 1)
      rw [hc', Option.map_some, Option.map_eq_some_iff] at hSome
      obtain ⟨p', hp', hBase'⟩ := hSome
      have := hAbove (i + 1) p' (Nat.lt_succ_self i) hp'
      omega
  unfold findSegmentIndex
  cases hSearch : binarySearchByKey log.segments offset fun p => p.segment.baseOffset with
  | ok i => exact hHolds i (lastAtMost_of_found hSorted hSearch)
  | error i =>
    cases i with
    | succ i => exact hHolds i (lastAtMost_of_absent hSorted hSearch)
    | zero =>
      obtain ⟨c, hc, hBase⟩ := Layout.first_chunk hChain
      have hSome := hKey 0
      rw [hc, Option.map_some, Option.map_eq_some_iff] at hSome
      obtain ⟨p, hp, hBase'⟩ := hSome
      obtain ⟨c', hc', hLoaded⟩ := loaded_at h.loaded hp
      obtain rfl : c = c' := Option.some.inj (hc.symm.trans hc')
      have hLt := all_greater_of_absent_zero hSorted hSearch (List.mem_of_getElem? hp)
      refine ⟨p, c, hp, hc, hLoaded, ?_⟩
      rw [if_neg (by omega)]
      omega

/-- Only the frames of the chunk that is searched have to be readable. -/
theorem readRecordAt_spec (hFull : env.FullReads) (h : Live log w.store L) (offset : Nat)
    (hReadable : ∀ c ∈ L.allChunks,
      (if L.oldest ≤ offset then c.base ≤ offset ∧ offset < c.next else offset < c.base) →
      ∀ f ∈ c.frames, Readable X f) :
    wp env (readRecordAt X offset)
      { ok := fun r log' w' => r = L.recordAt offset ∧ SameShape log log' ∧
          Live log' w'.store L
        err := fun _ log' w' => ¬ env.Steady ∧ SameShape log log' ∧ Live log' w'.store L
        panic := fun _ _ _ => False
        crash := fun log' w' => ¬ env.Alive ∧ SameShape log log' ∧ OnDisk w'.store L } log w := by
  have hChain := h.disk.chain
  have hTotal := Layout.length_frames hChain
  rw [readRecordAt, wp_get_bind]
  by_cases hPast : log.nextOffset ≤ offset
  · rw [if_pos hPast, wp_pure]
    refine ⟨?_, SameShape.refl log, h⟩
    rw [h.nextOffset] at hPast
    unfold Layout.recordAt
    rw [List.getElem?_eq_none (by omega)]
    simp
  rw [if_neg hPast]
  rw [h.nextOffset] at hPast
  obtain ⟨p, c, hp, hc, hLoaded, hWhere⟩ := findSegmentIndex_spec h (Nat.lt_of_not_le hPast)
  have hMem := List.mem_of_getElem? hc
  rw [wp_onSegmentAt hp]
  refine wp_mono (readFrom_spec hFull hLoaded (hReadable c hMem hWhere) offset) ?_ ?_
    (fun _ _ _ hF => hF) ?_
  · rintro r p' w' ⟨⟨hLoaded', hIndex, hMoves⟩, rfl⟩
    refine ⟨?_, ⟨rfl, rfl, List.length_set⟩, h.moved hp hc hLoaded' hIndex hMoves⟩
    unfold Layout.recordAt
    by_cases hOldest : L.oldest ≤ offset
    · rw [if_pos hOldest] at hWhere ⊢
      have hNext : c.next = c.base + c.frames.length := rfl
      have hAt := Layout.getElem?_frames hChain hMem (i := offset - c.base) (by omega)
      have hBase := Layout.oldest_le hChain hMem
      rw [if_pos hWhere.1, ← hAt]
      congr 2
      omega
    · rw [if_neg hOldest] at hWhere ⊢
      rw [if_neg (by omega)]
  · rintro e p' w' ⟨hNoisy, hLoaded', hIndex, hMoves⟩
    exact ⟨hNoisy, ⟨rfl, rfl, List.length_set⟩, h.moved hp hc hLoaded' hIndex hMoves⟩
  · rintro p' w' ⟨hNoisy, hMoves⟩
    exact ⟨hNoisy, ⟨rfl, rfl, List.length_set⟩, h.disk.rewound hMoves.rewind⟩

/-- The decode loop returns, whatever bytes it meets. -/
theorem findRecord_returns (X : Crates) (offset fuel : Nat) (slice : Bytes) (current : Nat) :
    Res.Returns (findRecord X offset fuel slice current) := by
  induction fuel generalizing slice current with
  | zero => exact Res.returns_ok _
  | succ fuel ih =>
    rw [findRecord]
    split
    · exact Res.returns_ok _
    · rcases Record.decode_returns X slice with ⟨⟨r, rest⟩, hDecode⟩ | ⟨e, hDecode⟩
      · rw [hDecode]
        dsimp only
        split
        · exact Res.returns_ok _
        · exact ih rest (current + 1)
      · rw [hDecode]
        cases e <;> first | exact Res.returns_ok _ | exact Res.returns_err _

/-- A read leaves the log live, whatever it finds, and moves nothing but the position of a
handle. -/
theorem readRecordAt_keeps (hFull : env.FullReads) (h : Live log w.store L) (X : Crates)
    (offset : Nat) :
    wp env (readRecordAt X offset)
      { ok := fun _ log' w' => SameShape log log' ∧ Live log' w'.store L ∧ ∀ name,
          (w'.store.get name).map File.rewind = (w.store.get name).map File.rewind
        err := fun _ log' w' => SameShape log log' ∧ Live log' w'.store L ∧ ∀ name,
          (w'.store.get name).map File.rewind = (w.store.get name).map File.rewind
        panic := fun _ _ _ => False
        crash := fun _ _ => True } log w := by
  rw [readRecordAt, wp_get_bind]
  by_cases hPast : log.nextOffset ≤ offset
  · rw [if_pos hPast, wp_pure]
    exact ⟨SameShape.refl log, h, fun _ => rfl⟩
  rw [if_neg hPast]
  rw [h.nextOffset] at hPast
  obtain ⟨p, c, hp, hc, hLoaded, -⟩ := findSegmentIndex_spec h (Nat.lt_of_not_le hPast)
  obtain ⟨k, -, hSearch⟩ := readFrom_searches hFull hLoaded X offset
  rw [wp_onSegmentAt hp]
  refine wp_mono hSearch ?_ ?_ ?_ (fun _ _ _ => trivial)
  · rintro r p' w' ⟨⟨hLoaded', hIndex, hMoves⟩, -⟩
    exact ⟨⟨rfl, rfl, List.length_set⟩, h.moved hp hc hLoaded' hIndex hMoves, hMoves.rewind⟩
  · rintro e p' w' ⟨⟨hLoaded', hIndex, hMoves⟩, -⟩
    exact ⟨⟨rfl, rfl, List.length_set⟩, h.moved hp hc hLoaded' hIndex hMoves, hMoves.rewind⟩
  · intro m p' w' hPanic
    have hReturns := findRecord_returns X offset (span (c.frames.drop k)) (flat (c.frames.drop k))
      (c.base + k)
    rw [searchFrom] at hPanic
    rcases hReturns with ⟨r, hOk⟩ | ⟨e, hErr⟩
    · rw [hOk] at hPanic
      cases hPanic
    · rw [hErr] at hPanic
      cases hPanic

end Log

end Kafko
