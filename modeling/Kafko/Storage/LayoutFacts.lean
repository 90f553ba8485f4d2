import Kafko.Storage.SegmentSpec

/-!
# How layouts survive changes of the directory

The lemmas here are about the invariant alone: chains of chunks, tracking an index, and the
two ways an operation changes the directory, through the active `.log` file
(`Parts.update_log`) or through the active `.index` file (`Parts.update_index`).
-/

namespace Kafko

open Disk

/-! ## Chains -/

namespace Chain

theorem le {oldest base : Nat} {cs : List Chunk} (h : Chain oldest cs base) :
    oldest ≤ base := by
  induction cs generalizing oldest with
  | nil => exact Nat.le_of_eq h
  | cons c cs ih =>
    obtain ⟨rfl, -, hRest⟩ := h
    have := ih hRest
    unfold Chunk.next at this
    omega

/-- A chunk of a chain is not empty and lies between its ends. -/
theorem mem_bounds {oldest base : Nat} {cs : List Chunk} (h : Chain oldest cs base) {c : Chunk}
    (hc : c ∈ cs) : oldest ≤ c.base ∧ c.base < c.next ∧ c.next ≤ base := by
  induction cs generalizing oldest with
  | nil => cases hc
  | cons c' cs ih =>
    obtain ⟨rfl, hNe, hRest⟩ := h
    have hLen := List.length_pos_of_ne_nil hNe
    rcases List.mem_cons.mp hc with rfl | hc
    · refine ⟨Nat.le_refl _, ?_, hRest.le⟩
      unfold Chunk.next
      omega
    · obtain ⟨h1, h2, h3⟩ := ih hRest hc
      unfold Chunk.next at *
      exact ⟨by omega, h2, h3⟩

theorem base_ne {oldest base : Nat} {cs : List Chunk} (h : Chain oldest cs base) {c : Chunk}
    (hc : c ∈ cs) : c.base ≠ base := by
  obtain ⟨-, h2, h3⟩ := h.mem_bounds hc
  omega

theorem append_iff {oldest base : Nat} {cs : List Chunk} {c : Chunk} :
    Chain oldest (cs ++ [c]) base ↔ Chain oldest cs c.base ∧ c.frames ≠ [] ∧ c.next = base := by
  induction cs generalizing oldest with
  | nil =>
    constructor
    · rintro ⟨rfl, hNe, hNext⟩
      exact ⟨rfl, hNe, hNext⟩
    · rintro ⟨hBase, hNe, hNext⟩
      exact ⟨hBase.symm, hNe, hNext⟩
  | cons c' cs ih =>
    constructor
    · rintro ⟨rfl, hNe, hRest⟩
      obtain ⟨h1, h2, h3⟩ := ih.mp hRest
      exact ⟨⟨rfl, hNe, h1⟩, h2, h3⟩
    · rintro ⟨⟨rfl, hNe, h1⟩, h2, h3⟩
      exact ⟨rfl, hNe, ih.mpr ⟨h1, h2, h3⟩⟩

theorem pairwise {oldest base : Nat} {cs : List Chunk} (h : Chain oldest cs base) :
    cs.Pairwise fun a b => a.base < b.base := by
  induction cs generalizing oldest with
  | nil => exact List.Pairwise.nil
  | cons c cs ih =>
    obtain ⟨rfl, hNe, hRest⟩ := h
    refine List.Pairwise.cons ?_ (ih hRest)
    intro c' hc'
    have hLen := List.length_pos_of_ne_nil hNe
    have := (hRest.mem_bounds hc').1
    unfold Chunk.next at this
    omega

theorem length_frames {oldest base : Nat} {cs : List Chunk} (h : Chain oldest cs base) :
    oldest + (cs.flatMap Chunk.frames).length = base := by
  induction cs generalizing oldest with
  | nil => exact h
  | cons c cs ih =>
    obtain ⟨rfl, -, hRest⟩ := h
    have := ih hRest
    unfold Chunk.next at this
    rw [List.flatMap_cons, List.length_append]
    omega

end Chain

/-! ## Layouts -/

namespace Layout

theorem next_push (L : Layout) (fs : List LogFrame) : (L.push fs).next = L.next + fs.length := by
  simp [push, next, Chunk.next, Nat.add_assoc]

theorem frames_push (L : Layout) (fs : List LogFrame) :
    (L.push fs).frames = L.frames ++ fs := by
  simp [push, frames]

theorem next_rotate (L : Layout) : L.rotate.next = L.next := by
  simp [rotate, next, Chunk.next]

theorem frames_rotate (L : Layout) : L.rotate.frames = L.frames := by
  simp [rotate, frames]

theorem next_step (L : Layout) (rotates : Bool) (fs : List LogFrame) :
    (L.step rotates fs).next = L.next + fs.length := by
  unfold step
  rw [next_push]
  split
  · rw [next_rotate]
  · rfl

theorem frames_step (L : Layout) (rotates : Bool) (fs : List LogFrame) :
    (L.step rotates fs).frames = L.frames ++ fs := by
  unfold step
  rw [frames_push]
  split
  · rw [frames_rotate]
  · rfl

theorem oldest_step (L : Layout) (rotates : Bool) (fs : List LogFrame) :
    (L.step rotates fs).oldest = L.oldest := by
  unfold step
  split <;> rfl

end Layout

/-! ## Index entries -/

namespace IndexFor

theorem nil (fs : List LogFrame) : IndexFor [] fs :=
  ⟨List.Pairwise.nil, by simp, by simp⟩

/-- More frames behind the indexed ones change nothing. -/
theorem extend {entries : List IndexEntry} {fs : List LogFrame} (h : IndexFor entries fs)
    (gs : List LogFrame) : IndexFor entries (fs ++ gs) := by
  refine ⟨h.sorted, ?_, h.small⟩
  intro e he
  obtain ⟨hLt, hPos⟩ := h.exact e he
  refine ⟨?_, ?_⟩
  · rw [List.length_append]
    omega
  · rw [hPos, span_take_append hLt.le]

/-- The entry for the next frame. -/
theorem snoc {entries : List IndexEntry} {fs : List LogFrame} (h : IndexFor entries fs)
    (f : LogFrame) (hRel : fs.length < 2 ^ 32) (hPos : span fs < 2 ^ 32) :
    IndexFor (entries ++ [⟨fs.length, span fs⟩]) (fs ++ [f]) := by
  refine ⟨?_, ?_, ?_⟩
  · rw [List.pairwise_append]
    refine ⟨h.sorted, List.pairwise_singleton _ _, ?_⟩
    intro a ha b hb
    rw [List.mem_singleton.mp hb]
    exact (h.exact a ha).1
  · intro e he
    rcases List.mem_append.mp he with he | he
    · exact (h.extend [f]).exact e he
    · rw [List.mem_singleton.mp he]
      simp
  · intro e he
    rcases List.mem_append.mp he with he | he
    · exact h.small e he
    · rw [List.mem_singleton.mp he]
      exact ⟨hRel, hPos⟩

end IndexFor

namespace SparseIndex

@[simp] theorem track_baseOffset (x : SparseIndex) (offset pos size : Nat) :
    (x.track offset pos size).baseOffset = x.baseOffset := by
  unfold track
  split <;> rfl

theorem trackAll_append (x : SparseIndex) (offset pos : Nat) (xs ys : List Nat) :
    x.trackAll offset pos (xs ++ ys) =
      (x.trackAll offset pos xs).trackAll (offset + xs.length) (pos + xs.sum) ys := by
  induction xs generalizing x offset pos with
  | nil => rfl
  | cons a xs ih =>
    rw [List.cons_append, trackAll, ih, trackAll, List.length_cons, List.sum_cons]
    congr 1 <;> omega

theorem trackAll_baseOffset (x : SparseIndex) (offset pos : Nat) (xs : List Nat) :
    (x.trackAll offset pos xs).baseOffset = x.baseOffset := by
  induction xs generalizing x offset pos with
  | nil => rfl
  | cons a xs ih => rw [trackAll, ih, track_baseOffset]

theorem tracked_baseOffset (base interval : Nat) (fs : List LogFrame) :
    (tracked base interval fs).baseOffset = base :=
  trackAll_baseOffset _ _ _ _

theorem sum_sizes (fs : List LogFrame) : (sizes fs).sum = span fs := by
  induction fs with
  | nil => rfl
  | cons f fs ih => rw [sizes, List.map_cons, List.sum_cons, span_cons, ← sizes, ih]

/-- Tracking one more frame. -/
theorem tracked_snoc (base interval : Nat) (fs : List LogFrame) (f : LogFrame) :
    tracked base interval (fs ++ [f]) =
      (tracked base interval fs).track (base + fs.length) (span fs) f.bytes.length := by
  have hSizes : sizes (fs ++ [f]) = sizes fs ++ [f.bytes.length] := by simp [sizes]
  rw [tracked, hSizes, trackAll_append, sum_sizes, Nat.zero_add]
  simp [tracked, trackAll, sizes]

/-- Tracking the next frame keeps the entries exact. -/
theorem indexFor_track {x : SparseIndex} {fs : List LogFrame} (h : IndexFor x.entries fs)
    (f : LogFrame) (hPos : x.needEntry = true → span fs < 2 ^ 32) (size : Nat) :
    IndexFor (x.track (x.baseOffset + fs.length) (span fs) size).entries (fs ++ [f]) := by
  have hLen := length_le_span fs
  unfold track
  split
  · next hNeed =>
    have := hPos hNeed
    rw [Nat.add_sub_cancel_left]
    exact h.snoc f (by omega) this
  · exact h.extend [f]

end SparseIndex

/-! ## Changes of the directory -/

theorem map_rewind_eq_some {o : Option File} {f : File} (h : o.map File.rewind = some f.rewind) :
    ∃ g, o = some g ∧ g.data = f.data ∧ g.synced = f.synced ∧ g.cut = f.cut := by
  cases o with
  | none => cases h
  | some g =>
    simp only [Option.map_some, Option.some.injEq, File.rewind, File.mk.injEq] at h
    exact ⟨g, rfl, h.1, h.2.1, h.2.2.1⟩

theorem SealedOnDisk.congr {d d' : Store FileName} {c : Chunk} (h : SealedOnDisk d c)
    (hLog : (d'.get (.log c.base)).map File.rewind = (d.get (.log c.base)).map File.rewind)
    (hIndex : (d'.get (.index c.base)).map File.rewind =
      (d.get (.index c.base)).map File.rewind) : SealedOnDisk d' c := by
  obtain ⟨f, hf, hData, hSynced, hCut⟩ := h.log
  obtain ⟨x, entries, hx, hxData, hEntries, hxSynced, hxCut⟩ := h.index
  rw [hf] at hLog
  rw [hx] at hIndex
  obtain ⟨g, hg, hgData, hgSynced, hgCut⟩ := map_rewind_eq_some hLog
  obtain ⟨y, hy, hyData, hySynced, hyCut⟩ := map_rewind_eq_some hIndex
  refine ⟨⟨g, hg, hgData.trans hData, ?_, hgCut.trans hCut⟩,
    ⟨y, entries, hy, hyData.trans hxData, hEntries, ?_, hyCut.trans hxCut⟩⟩
  · rw [hgSynced, hgData, hSynced]
  · rw [hySynced, hyData, hxSynced]

/-- Only the two active files may change, and the active `.log` file only in a way that the
new layout describes. -/
theorem OnDisk.congr {d d' : Store FileName} {L L' : Layout} (h : OnDisk d L)
    (hOldest : L'.oldest = L.oldest) (hChunks : L'.chunks = L.chunks)
    (hBase : L'.active.base = L.active.base)
    (hOthers : ∀ name, name ≠ .log L.active.base → name ≠ .index L.active.base →
      (d'.get name).map File.rewind = (d.get name).map File.rewind)
    (hActive : ∃ f, d'.get (.log L.active.base) = some f ∧
      ActiveOnDisk f L'.active.frames L'.durable) : OnDisk d' L' := by
  have hSome : ∀ name, name ≠ .log L.active.base → name ≠ .index L.active.base →
      (d'.get name).isSome → (d.get name).isSome := by
    intro name h1 h2 h3
    have hMap := congrArg Option.isSome (hOthers name h1 h2)
    simpa [h3] using hMap.symm
  refine ⟨?_, ?_, ?_, ?_, ?_⟩
  · rw [hOldest, hChunks, hBase]
    exact h.chain
  · intro c hc
    rw [hChunks] at hc
    have hNe := h.chain.base_ne hc
    refine (h.chunks c hc).congr (hOthers _ ?_ ?_) (hOthers _ ?_ ?_) <;> simp [hNe]
  · rw [hBase]
    exact hActive
  · intro b hb
    rw [hBase, hChunks]
    by_cases hb' : b = L.active.base
    · exact Or.inl hb'
    · exact h.logs b (hSome _ (by simp [hb']) (by simp) hb)
  · intro b hb
    rw [hBase]
    by_cases hb' : b = L.active.base
    · exact Nat.le_of_eq hb'
    · exact h.indexes b (hSome _ (by simp) (by simp [hb']) hb)

/-- The active index is not part of the layout. -/
theorem OnDisk.index_only {d d' : Store FileName} {L : Layout} (h : OnDisk d L)
    (hSame : ∀ name, name ≠ .index L.active.base → d'.get name = d.get name) : OnDisk d' L := by
  obtain ⟨f, hf, hActive⟩ := h.active
  refine h.congr rfl rfl rfl ?_ ⟨f, ?_, hActive⟩
  · intro name _ hne
    rw [hSame name hne]
  · rw [hSame _ (by simp), hf]

/-- The file of a segment that holds all frames of a layout. -/
theorem activeOnDisk_of_full {f : File} {fs : List LogFrame} {durable k : Nat}
    (hData : f.data = flat fs) (hCut : f.cut = []) (hDurable : durable ≤ k)
    (hk : k ≤ fs.length) (hSynced : f.synced = span (fs.take k)) :
    ActiveOnDisk f fs durable := by
  refine ⟨?_, ⟨k, hDurable, hk, hSynced⟩, ?_⟩
  · rw [hData, hCut, List.append_nil]
  · rw [hSynced, hData]
    exact span_take_le fs k

/-- A partial append still leaves a prefix of the frames. -/
theorem ActiveOnDisk.append {f g : File} {fs : List LogFrame} {durable : Nat}
    (h : ActiveOnDisk f fs durable) (hFull : f.data = flat fs) (gs : List LogFrame) (n : Nat)
    (hData : g.data = f.data ++ (flat gs).take n) (hSynced : g.synced = f.synced)
    (hCut : g.cut = []) : ActiveOnDisk g (fs ++ gs) durable := by
  obtain ⟨k, hDurable, hk, hSync⟩ := h.synced
  refine ⟨?_, ⟨k, hDurable, ?_, ?_⟩, ?_⟩
  · rw [hData, hCut, List.append_nil, hFull, flat_append, List.prefix_append_right_inj]
    exact List.take_prefix _ _
  · rw [List.length_append]
    omega
  · rw [hSynced, hSync, span_take_append hk]
  · have := h.covered
    rw [hSynced, hData, List.length_append]
    omega

/-- A directory described by a layout is also described by one that promises more frames. -/
theorem OnDisk.push {d : Store FileName} {L : Layout} (h : OnDisk d L) (fs : List LogFrame) :
    OnDisk d (L.push fs) := by
  obtain ⟨f, hf, hActive⟩ := h.active
  obtain ⟨k, hDurable, hk, hSync⟩ := hActive.synced
  refine h.congr rfl rfl rfl (fun _ _ _ => rfl) ⟨f, hf, ?_, ⟨k, hDurable, ?_, ?_⟩, hActive.covered⟩
  · apply hActive.content.trans
    simp [Layout.push]
  · simp only [Layout.push, List.length_append]
    omega
  · rw [hSync]
    exact (span_take_append hk fs).symm

theorem OnDisk.durable_le {d : Store FileName} {L : Layout} (h : OnDisk d L) :
    L.durable ≤ L.active.frames.length := by
  obtain ⟨f, -, hActive⟩ := h.active
  obtain ⟨k, hDurable, hk, -⟩ := hActive.synced
  omega

/-- A sync that is not relied on may be forgotten. -/
theorem OnDisk.forget {d : Store FileName} {L : Layout} (h : OnDisk d L) {n : Nat}
    (hn : n ≤ L.durable) : OnDisk d { L with durable := n } := by
  obtain ⟨f, hf, hActive⟩ := h.active
  obtain ⟨k, hDurable, hk, hSync⟩ := hActive.synced
  exact h.congr rfl rfl rfl (fun _ _ _ => rfl)
    ⟨f, hf, hActive.content, ⟨k, by dsimp only; omega, hk, hSync⟩, hActive.covered⟩

theorem Loaded.congr {d d' : Store FileName} {p : IndexedSegment} {c : Chunk}
    (h : Loaded d p c) (hLog : d'.get (.log c.base) = d.get (.log c.base))
    (hIndex : d'.get (.index c.base) = d.get (.index c.base)) : Loaded d' p c := by
  obtain ⟨f, hf, hData, hCut⟩ := h.segment
  obtain ⟨x, hx, hxData⟩ := h.index.file
  refine ⟨h.segmentBase, ⟨f, ⟨?_, hf.size, hf.cursor⟩, hData, hCut⟩, h.indexBase, ⟨x, ?_, hxData⟩,
    h.entries⟩
  · rw [← hf.file, Segment.path, h.segmentBase, hLog]
  · rw [← hx, SparseIndex.path, h.indexBase, hIndex]

theorem loaded_congr {d d' : Store FileName} {init : List IndexedSegment} {cs : List Chunk}
    (h : List.Forall₂ (Loaded d) init cs)
    (hSame : ∀ c ∈ cs, d'.get (.log c.base) = d.get (.log c.base) ∧
      d'.get (.index c.base) = d.get (.index c.base)) : List.Forall₂ (Loaded d') init cs := by
  induction h with
  | nil => exact List.Forall₂.nil
  | cons hHead _ ih =>
    refine List.Forall₂.cons (hHead.congr (hSame _ ?_).1 (hSame _ ?_).2) (ih ?_)
    · exact List.mem_cons_self
    · exact List.mem_cons_self
    · intro c hc
      exact hSame c (List.mem_cons_of_mem _ hc)

/-- What each segment has in common with its chunk, all of them have in common with theirs. -/
theorem loaded_map {α : Type} {d : Store FileName} {segments : List IndexedSegment}
    {cs : List Chunk} {ofSegment : IndexedSegment → α} {ofChunk : Chunk → α}
    (hEq : ∀ p c, Loaded d p c → ofSegment p = ofChunk c)
    (h : List.Forall₂ (Loaded d) segments cs) : segments.map ofSegment = cs.map ofChunk := by
  induction h with
  | nil => rfl
  | cons hHead _ ih => rw [List.map_cons, List.map_cons, ih, hEq _ _ hHead]

namespace Parts

variable {log : Log} {d d' : Store FileName} {L : Layout} {m : Nat}
  {init : List IndexedSegment} {active : IndexedSegment} {f g : File}

theorem logPath (h : Parts log d L m init active f) :
    active.segment.path = .log L.active.base := by
  rw [Segment.path, h.base]

theorem indexBase (h : Parts log d L m init active f) :
    active.index.baseOffset = L.active.base := by
  rw [h.tracked, SparseIndex.tracked_baseOffset]

theorem indexPath (h : Parts log d L m init active f) :
    active.index.path = .index L.active.base := by
  rw [SparseIndex.path, h.indexBase]

theorem file (h : Parts log d L m init active f) : d.get (.log L.active.base) = some f := by
  rw [← h.logPath]
  exact h.segment.file

theorem activeOnDisk (h : Parts log d L m init active f) :
    ActiveOnDisk f L.active.frames L.durable := by
  obtain ⟨g, hg, hActive⟩ := h.disk.active
  obtain rfl : f = g := Option.some.inj (h.file.symm.trans hg)
  exact hActive

theorem forget (h : Parts log d L m init active f) {n : Nat} (hn : n ≤ L.durable) :
    Parts log d { L with durable := n } m init active f :=
  { h with disk := h.disk.forget hn }

theorem unsynced (h : Parts log d L.synced m init active f)
    (hDurable : L.durable ≤ L.active.frames.length) : Parts log d L m init active f :=
  h.forget hDurable

/-- The active `.log` file changed: more frames, or only the handle or the sync point. -/
theorem update_log (h : Parts log d L m init active f) (L' : Layout)
    (hOldest : L'.oldest = L.oldest) (hChunks : L'.chunks = L.chunks)
    (hBase : L'.active.base = L.active.base)
    (hTake : L'.active.frames.take m = L.active.frames.take m) {s : Segment}
    (hUpd : d.Updates d' (.log L.active.base) g) (hs : SegmentOk d' s g)
    (hsBase : s.baseOffset = active.segment.baseOffset)
    (hData : g.data = flat L'.active.frames) (hCut : g.cut = [])
    (hActive : ActiveOnDisk g L'.active.frames L'.durable) :
    Parts { log with segments := init ++ [{ active with segment := s }] } d' L' m init
      { active with segment := s } g := by
  refine ⟨?_, rfl, ?_, ?_, hs, hData, hCut, ?_, ?_, ?_⟩
  · refine h.disk.congr hOldest hChunks hBase ?_ ⟨g, hUpd.self, hActive⟩
    intro name hne _
    rw [hUpd.others name hne]
  · rw [hChunks]
    apply loaded_congr h.loaded
    intro c hc
    have hNe := h.disk.chain.base_ne hc
    exact ⟨hUpd.others _ (by simp [hNe]), hUpd.others _ (by simp)⟩
  · rw [hsBase, h.base, hBase]
  · obtain ⟨x, hx, hxData⟩ := h.index.file
    refine ⟨x, ?_, hxData⟩
    rw [hUpd.others _ (by simp [SparseIndex.path])]
    exact hx
  · rw [hTake]
    exact h.entries
  · rw [hTake, hBase]
    exact h.tracked

/-- The active index was told of more frames. -/
theorem update_index (h : Parts log d L m init active f) {m' : Nat} {x : SparseIndex}
    (hUpd : d.Updates d' (.index L.active.base) g) (hx : IndexOk d' x)
    (hEntries : IndexFor x.entries (L.active.frames.take m'))
    (hTracked : x = SparseIndex.tracked L.active.base log.config.indexInterval
      (L.active.frames.take m')) :
    Parts { log with segments := init ++ [{ active with index := x }] } d' L m' init
      { active with index := x } f := by
  have hLog : d'.get (.log L.active.base) = d.get (.log L.active.base) :=
    hUpd.others _ (by simp)
  refine ⟨?_, rfl, ?_, h.base, ⟨?_, h.segment.size, h.segment.cursor⟩, h.data, h.cut, hx, hEntries,
    hTracked⟩
  · exact h.disk.index_only hUpd.others
  · apply loaded_congr h.loaded
    intro c hc
    have hNe := h.disk.chain.base_ne hc
    exact ⟨hUpd.others _ (by simp), hUpd.others _ (by simp [hNe])⟩
  · dsimp only
    rw [h.logPath, hLog]
    exact h.file

end Parts

end Kafko
