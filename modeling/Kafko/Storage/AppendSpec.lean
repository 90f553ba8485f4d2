import Kafko.Storage.LayoutFacts

/-!
# Appending, syncing and rotating keep the invariant

The rules are for clean environments, so they cover fault-free runs, runs with failures
that leave no trace, and crashes at every call. `append` and `appendBatch` share their
second half: one write of all frames (`segmentAppend_spec`), then one tracking step for each
of them (`trackBatch_spec`).
-/

namespace Kafko

open Disk

/-! ## The frames of a batch -/

/-- The frame `append` writes for a record, if its codec is linked. -/
def frameOf (X : Crates) (c : Compression) (r : Record) : Option LogFrame :=
  match h : r.wire X c with
  | .ok bytes => some ⟨r, bytes, Record.wire_ne_nil h⟩
  | _ => none

def framesOf (X : Crates) (c : Compression) (rs : List Record) : List LogFrame :=
  rs.filterMap (frameOf X c)

theorem frameOf_of_wire {X : Crates} {c : Compression} {r : Record} {bytes : Bytes}
    (h : r.wire X c = .ok bytes) : frameOf X c r = some ⟨r, bytes, Record.wire_ne_nil h⟩ := by
  unfold frameOf
  split
  · next bytes' h' =>
    obtain rfl : bytes' = bytes := by
      rw [h] at h'
      exact (Res.ok.inj h').symm
    rfl
  · next hNot => exact absurd h (hNot bytes)

theorem mem_framesOf {X : Crates} {c : Compression} {rs : List Record} {f : LogFrame}
    (h : f ∈ framesOf X c rs) : f.record ∈ rs ∧ f.record.wire X c = .ok f.bytes := by
  obtain ⟨r, hr, hf⟩ := List.mem_filterMap.mp h
  rcases Record.wire_cases X c r with ⟨bytes, hOk⟩ | hErr
  · rw [frameOf_of_wire hOk] at hf
    cases hf
    exact ⟨hr, hOk⟩
  · unfold frameOf at hf
    split at hf
    · next bytes hOk =>
      rw [hErr] at hOk
      cases hOk
    · cases hf

theorem framesOf_cons {X : Crates} {c : Compression} {r : Record} {rs : List Record}
    {bytes : Bytes} (h : r.wire X c = .ok bytes) :
    framesOf X c (r :: rs) = ⟨r, bytes, Record.wire_ne_nil h⟩ :: framesOf X c rs := by
  rw [framesOf, List.filterMap_cons, frameOf_of_wire h]
  rfl

/-- With the codec linked every record has its frame. -/
theorem records_framesOf {X : Crates} {c : Compression} (hc : c.isAvailable X = true)
    (rs : List Record) : (framesOf X c rs).map Frame.record = rs := by
  induction rs with
  | nil => rfl
  | cons r rs ih =>
    obtain ⟨bytes, hOk⟩ := Record.wire_isAvailable hc r
    rw [framesOf_cons hOk, List.map_cons, ih]

theorem length_framesOf {X : Crates} {c : Compression} (hc : c.isAvailable X = true)
    (rs : List Record) : (framesOf X c rs).length = rs.length := by
  have h := congrArg List.length (records_framesOf hc rs)
  simpa using h

theorem wire_unavailable {X : Crates} {c : Compression} (hc : c.isAvailable X = false)
    (r : Record) : r.wire X c = .err (.compressionUnavailable c) := by
  cases c with
  | none => cases hc
  | lz4 =>
    have hNone : X.lz4 = none := by simpa [Compression.isAvailable] using hc
    simp [Record.wire, Compression.compress, Compression.lz4Compress, hNone]
  | zstd =>
    have hNone : X.zstd = none := by simpa [Compression.isAvailable] using hc
    simp [Record.wire, Compression.compress, Compression.zstdCompress, hNone]

theorem framesOf_unavailable {X : Crates} {c : Compression} (hc : c.isAvailable X = false)
    (rs : List Record) : framesOf X c rs = [] := by
  rw [List.eq_nil_iff_forall_not_mem]
  intro f hf
  have hWire := (mem_framesOf hf).2
  rw [wire_unavailable hc] at hWire
  cases hWire

theorem encodeBatch_ok {X : Crates} {c : Compression} (hc : c.isAvailable X = true)
    (rs : List Record) (buf : Bytes) (szs : List Nat) :
    Log.encodeBatch X c rs buf szs =
      .ok (buf ++ flat (framesOf X c rs), szs ++ sizes (framesOf X c rs)) := by
  induction rs generalizing buf szs with
  | nil => simp [Log.encodeBatch, framesOf, sizes]
  | cons r rs ih =>
    obtain ⟨bytes, hOk⟩ := Record.wire_isAvailable hc r
    simp only [Log.encodeBatch, Record.encodeWith_eq, hOk, Res.ok_bind, Res.pure_eq, ih,
      framesOf_cons hOk]
    simp [sizes]

theorem encodeBatch_unavailable {X : Crates} {c : Compression} (hc : c.isAvailable X = false)
    (r : Record) (rs : List Record) (buf : Bytes) (szs : List Nat) :
    Log.encodeBatch X c (r :: rs) buf szs = .err (.compressionUnavailable c) := by
  simp [Log.encodeBatch, Record.encodeWith_eq, wire_unavailable hc]

/-- Every record of the frames starts below `2 ^ 32` when the first starts at `start`. -/
def PositionsOk (start : Nat) (fs : List LogFrame) : Prop :=
  ∀ i, i < fs.length → start + span (fs.take i) < 2 ^ 32

instance (start : Nat) (fs : List LogFrame) : Decidable (PositionsOk start fs) :=
  inferInstanceAs (Decidable (∀ i, i < fs.length → start + span (fs.take i) < 2 ^ 32))

namespace PositionsOk

variable {start : Nat} {f : LogFrame} {fs : List LogFrame}

theorem head (h : PositionsOk start (f :: fs)) : start < 2 ^ 32 := h 0 (by simp)

theorem tail (h : PositionsOk start (f :: fs)) : PositionsOk (start + f.bytes.length) fs := by
  intro i hi
  have := h (i + 1) (by simpa using hi)
  rw [List.take_succ_cons, span_cons] at this
  omega

end PositionsOk

/-! ## Tracking one frame -/

/-- The index has been told of exactly the frames `fs`. -/
structure Tracking (d : Store FileName) (x : SparseIndex) (base interval : Nat)
    (fs : List LogFrame) : Prop where
  file : IndexOk d x
  entries : IndexFor x.entries fs
  tracked : x = SparseIndex.tracked base interval fs

/-- Every frame that needs an index entry starts below `2 ^ 32`. -/
def Trackable (base interval : Nat) (fs : List LogFrame) : Prop :=
  ∀ i, i < fs.length → (SparseIndex.tracked base interval (fs.take i)).needEntry = true →
    span (fs.take i) < 2 ^ 32

theorem PositionsOk.trackable {fs : List LogFrame} (h : PositionsOk 0 fs) (base interval : Nat) :
    Trackable base interval fs := by
  intro i hi _
  have := h i hi
  omega

theorem SparseIndex.trackFrame_spec {env : Env FileName} {x : SparseIndex}
    {w : World FileName} {base interval : Nat} {fs : List LogFrame} (hClean : Clean env)
    (h : Tracking w.store x base interval fs) (frame : LogFrame) :
    wp env (trackAppend (base + fs.length) (span fs) frame.bytes.length)
      { ok := fun _ x' w' => Tracking w'.store x' base interval (fs ++ [frame]) ∧
          ∃ g, w.store.Updates w'.store x.path g
        err := fun _ _ _ => False
        panic := fun _ _ w' => w'.store = w.store ∧ x.needEntry = true ∧ 2 ^ 32 ≤ span fs
        crash := fun _ w' => ¬ env.Alive ∧ ∃ g, w.store.Updates w'.store x.path g } x w := by
  have hBase : x.baseOffset = base := by rw [h.tracked, tracked_baseOffset]
  refine wp_mono (trackAppend_spec hClean h.file _ _ _) ?_ (fun _ _ _ hF => hF) ?_
    (fun _ _ hC => hC)
  · rintro - x' w' ⟨rfl, hx, hUpd, hSmall⟩
    refine ⟨⟨hx, ?_, ?_⟩, hUpd⟩
    · rw [← hBase]
      exact indexFor_track h.entries frame (fun hNeed => (hSmall hNeed).2) _
    · rw [tracked_snoc, ← h.tracked]
  · rintro p x' w' ⟨hw, hNeed, hBig⟩
    have := length_le_span fs
    exact ⟨hw, hNeed, by omega⟩

namespace Log

open IndexedSegment

variable {α : Type} {env : Env FileName} {log : Log} {w : World FileName} {L : Layout} {m : Nat}
  {init : List IndexedSegment} {active : IndexedSegment} {f : File}

/-- What the steps between two rotations leave alone. -/
structure SameShape (log log' : Log) : Prop where
  config : log'.config = log.config
  nextOffset : log'.nextOffset = log.nextOffset
  count : log'.segments.length = log.segments.length

theorem SameShape.refl (log : Log) : SameShape log log := ⟨rfl, rfl, rfl⟩

theorem SameShape.trans {a b c : Log} (h : SameShape a b) (h' : SameShape b c) :
    SameShape a c :=
  ⟨h'.config.trans h.config, h'.nextOffset.trans h.nextOffset, h'.count.trans h.count⟩

theorem sameShape_set (hSplit : log.segments = init ++ [active]) (p : IndexedSegment) :
    SameShape log { log with segments := init ++ [p] } :=
  ⟨rfl, rfl, by simp [hSplit]⟩

theorem set_active (hSplit : log.segments = init ++ [active]) :
    { log with segments := init ++ [active] } = log := by
  rw [← hSplit]

theorem wp_onActive {Q : Post FileName KafkoError Log α} {prog : LogIO IndexedSegment α}
    (hSplit : log.segments = init ++ [active]) :
    wp env (onActive prog) Q log w ↔
      wp env prog
        { ok := fun a p w' => Q.ok a { log with segments := init ++ [p] } w'
          err := fun e p w' => Q.err e { log with segments := init ++ [p] } w'
          panic := fun s p w' => Q.panic s { log with segments := init ++ [p] } w'
          crash := fun p w' => Q.crash { log with segments := init ++ [p] } w' } active w := by
  have hLast : log.segments.getLast? = some active := by simp [hSplit]
  have hInit : log.segments.dropLast = init := by simp [hSplit]
  unfold wp onActive
  simp only [hLast, hInit]
  rcases prog env active w with ⟨r, p, w'⟩
  cases r <;> rfl

/-! ## Syncing -/

theorem synced_full {f : File} {fs : List LogFrame} (hData : f.data = flat fs) :
    ActiveOnDisk f.sync fs fs.length := by
  refine activeOnDisk_of_full hData rfl (Nat.le_refl _) (Nat.le_refl _) ?_
  rw [List.take_length]
  exact congrArg List.length hData

theorem syncSegment_spec (h : Parts log w.store L m init active f) :
    wp env (onActive (onSegment Segment.sync))
      { ok := fun _ log' w' => log' = log ∧ Parts log w'.store L.synced m init active f.sync
        err := fun _ log' w' => env.Fails w.tick (.syncData active.segment.path) ∧ log' = log ∧
          w'.store = w.store
        panic := fun _ _ _ => False
        crash := fun log' w' => ¬ env.Alive ∧ log' = log ∧ w'.store = w.store } log w := by
  rw [wp_onActive h.split, onSegment, wp_zoom]
  refine wp_mono (Segment.sync_spec h.segment) ?_ ?_ (fun _ _ _ hF => hF) ?_
  · rintro - s w' ⟨rfl, hs, hUpd⟩
    rw [h.logPath] at hUpd
    refine ⟨set_active h.split, ?_⟩
    have hNew := h.update_log L.synced rfl rfl rfl rfl hUpd hs rfl h.data rfl
      (synced_full h.data)
    rwa [set_active h.split] at hNew
  · rintro e s w' ⟨hFails, rfl, hw⟩
    exact ⟨hFails, set_active h.split, hw⟩
  · rintro s w' ⟨hNoisy, rfl, hw⟩
    exact ⟨hNoisy, set_active h.split, hw⟩

/-- The index file of the active segment is on disk in full. -/
def IndexSettled (d : Store FileName) (x : SparseIndex) : Prop :=
  ∃ f, d.get x.path = some f ∧ f.data = encodeEntries x.entries ∧ Settled f

theorem syncIndex_spec (h : Parts log w.store L m init active f) :
    wp env (onActive (onIndex SparseIndex.sync))
      { ok := fun _ log' w' => log' = log ∧ Parts log w'.store L m init active f ∧
          IndexSettled w'.store active.index
        err := fun _ log' w' => ¬ env.Steady ∧ log' = log ∧ w'.store = w.store
        panic := fun _ _ _ => False
        crash := fun log' w' => ¬ env.Alive ∧ log' = log ∧ w'.store = w.store } log w := by
  obtain ⟨x, hx, hxData⟩ := h.index.file
  rw [wp_onActive h.split, onIndex, wp_zoom]
  refine wp_mono (SparseIndex.sync_spec hx) ?_ ?_ (fun _ _ _ hF => hF) ?_
  · rintro - s w' ⟨rfl, hUpd⟩
    refine ⟨set_active h.split, ?_, ⟨_, hUpd.self, hxData, rfl, rfl⟩⟩
    have hUpd' := hUpd
    rw [h.indexPath] at hUpd'
    have hNew := h.update_index hUpd' ⟨_, hUpd.self, hxData⟩ h.entries h.tracked
    rwa [set_active h.split] at hNew
  · rintro e s w' ⟨hNoisy, rfl, hw⟩
    exact ⟨hNoisy, set_active h.split, hw⟩
  · rintro s w' ⟨hNoisy, rfl, hw⟩
    exact ⟨hNoisy, set_active h.split, hw⟩

theorem sync_spec (h : Live log w.store L) :
    wp env sync
      { ok := fun _ log' w' => log' = log ∧ Live log w'.store L.synced
        err := fun _ log' w' => ¬ env.Steady ∧ log' = log ∧ Live log w'.store L
        panic := fun _ _ _ => False
        crash := fun log' w' => ¬ env.Alive ∧ log' = log ∧ OnDisk w'.store L } log w := by
  obtain ⟨init, active, f, hParts⟩ := h.parts
  rw [sync]
  refine wp_bind_of (syncSegment_spec hParts) ?_ ?_ (fun _ _ _ hF => hF) ?_
  · rintro - log' w' ⟨rfl, hSynced⟩
    have hBack := hSynced.unsynced hParts.disk.durable_le
    refine wp_mono (syncIndex_spec hSynced) ?_ ?_ (fun _ _ _ hF => hF) ?_
    · rintro - log' w'' ⟨rfl, hBoth, -⟩
      exact ⟨rfl, ⟨_, _, _, hBoth⟩, h.nextOffset⟩
    · rintro e log' w'' ⟨hNoisy, rfl, hw⟩
      refine ⟨hNoisy, rfl, ⟨init, active, f.sync, ?_⟩, h.nextOffset⟩
      rw [hw]
      exact hBack
    · rintro log' w'' ⟨hNoisy, rfl, hw⟩
      refine ⟨hNoisy, rfl, ?_⟩
      rw [hw]
      exact hBack.disk
  · rintro e log' w' ⟨hFails, rfl, hw⟩
    refine ⟨hFails.not_steady, rfl, ?_⟩
    rw [hw]
    exact h
  · rintro log' w' ⟨hNoisy, rfl, hw⟩
    refine ⟨hNoisy, rfl, ?_⟩
    rw [hw]
    exact hParts.disk

/-! ## Rotating -/

/-- Neither file of the next segment exists yet. -/
theorem next_absent {d : Store FileName} (h : OnDisk d L) (hNe : L.active.frames ≠ []) :
    d.get (.log L.next) = none ∧ d.get (.index L.next) = none := by
  have hLen := List.length_pos_of_ne_nil hNe
  have hLt : L.active.base < L.next := by
    unfold Layout.next Chunk.next
    omega
  constructor
  · rw [← Option.not_isSome_iff_eq_none]
    intro hSome
    rcases h.logs _ hSome with hEq | ⟨c, hc, hEq⟩
    · omega
    · have := h.chain.mem_bounds hc
      omega
  · rw [← Option.not_isSome_iff_eq_none]
    intro hSome
    have := h.indexes _ hSome
    omega

/-- The directory once the next `.log` file exists: both files of the old active segment
are synced, so it is sealed. -/
theorem onDisk_rotate {d d' : Store FileName}
    (h : Parts log d L L.active.frames.length init active f) (hf : Settled f)
    (hIndex : IndexSettled d active.index) (hNe : L.active.frames ≠ [])
    (hUpd : d.Updates d' (.log L.next) File.empty) : OnDisk d' L.rotate := by
  have hLen := List.length_pos_of_ne_nil hNe
  have hLt : L.active.base < L.next := by
    unfold Layout.next Chunk.next
    omega
  have hSame : ∀ b, b < L.next → d'.get (.log b) = d.get (.log b) := by
    intro b hb
    apply hUpd.others _
    simp only [ne_eq, FileName.log.injEq]
    omega
  have hSameIndex : ∀ b, d'.get (.index b) = d.get (.index b) :=
    fun b => hUpd.others _ (by simp)
  refine ⟨?_, ?_, ?_, ?_, ?_⟩
  · exact Chain.append_iff.mpr ⟨h.disk.chain, hNe, rfl⟩
  · intro c hc
    rcases List.mem_append.mp hc with hc | hc
    · have hBounds := h.disk.chain.mem_bounds hc
      refine (h.disk.chunks c hc).congr ?_ ?_
      · rw [hSame _ (by omega)]
      · rw [hSameIndex]
    · rw [List.mem_singleton.mp hc]
      obtain ⟨x, hx, hxData, hxSettled⟩ := hIndex
      rw [h.indexPath] at hx
      have hEntries := h.entries
      rw [List.take_length] at hEntries
      refine ⟨⟨f, ?_, h.data, hf⟩, ⟨x, _, ?_, hxData, hEntries, hxSettled⟩⟩
      · rw [hSame _ hLt]
        exact h.file
      · rw [hSameIndex]
        exact hx
  · exact ⟨File.empty, hUpd.self, activeOnDisk_of_full (k := 0) rfl rfl (Nat.le_refl _)
      (Nat.zero_le _) rfl⟩
  · intro b hb
    by_cases hb' : b = L.next
    · exact Or.inl hb'
    · rw [hUpd.others _ (by simp [hb'])] at hb
      rcases h.disk.logs b hb with rfl | ⟨c, hc, rfl⟩
      · exact Or.inr ⟨L.active, by simp [Layout.rotate], rfl⟩
      · exact Or.inr ⟨c, by simp [Layout.rotate, hc], rfl⟩
  · intro b hb
    rw [hSameIndex] at hb
    have := h.disk.indexes b hb
    exact Nat.le_of_lt (Nat.lt_of_le_of_lt this hLt)

/-- The old active segment, as a sealed one. -/
theorem loaded_active {d : Store FileName}
    (h : Parts log d L L.active.frames.length init active f) : Loaded d active L.active := by
  have hEntries := h.entries
  rw [List.take_length] at hEntries
  exact ⟨h.base, ⟨f, h.segment, h.data, h.cut⟩, h.indexBase, h.index, hEntries⟩

theorem loaded_segments {d : Store FileName}
    (h : Parts log d L L.active.frames.length init active f) :
    List.Forall₂ (Loaded d) log.segments (L.chunks ++ [L.active]) := by
  rw [h.split]
  exact List.rel_append h.loaded (List.Forall₂.cons (loaded_active h) List.Forall₂.nil)

theorem live_rotate {d d₁ d₂ : Store FileName}
    (h : Parts log d L L.active.frames.length init active f) (hf : Settled f)
    (hIndex : IndexSettled d active.index) (hNe : L.active.frames ≠ [])
    (hNext : log.nextOffset = L.next)
    (hLog : d.Updates d₁ (.log L.next) File.empty)
    (hNew : d₁.Updates d₂ (.index L.next) File.empty) :
    Live { log with segments := log.segments ++
      [⟨⟨L.next, 0, some 0⟩, ⟨L.next, [], 0, log.config.indexInterval⟩⟩] } d₂ L.rotate := by
  have hLen := List.length_pos_of_ne_nil hNe
  have hLt : L.active.base < L.next := by
    unfold Layout.next Chunk.next
    omega
  have hFile : d₂.get (.log L.next) = some File.empty := by
    rw [hNew.others _ (by simp)]
    exact hLog.self
  have hOnDisk : OnDisk d₂ L.rotate :=
    (onDisk_rotate h hf hIndex hNe hLog).index_only hNew.others
  have hSame : ∀ b, b < L.next →
      d₂.get (.log b) = d.get (.log b) ∧ d₂.get (.index b) = d.get (.index b) := by
    intro b hb
    have hb' : b ≠ L.next := by omega
    constructor
    · rw [hNew.others _ (by simp), hLog.others _ (by simp [hb'])]
    · rw [hNew.others _ (by simp [hb']), hLog.others _ (by simp)]
  refine ⟨⟨log.segments, _, File.empty, hOnDisk, rfl, loaded_congr (loaded_segments h) ?_, rfl,
    ⟨hFile, rfl, ?_⟩, rfl, rfl, ⟨File.empty, hNew.self, rfl⟩, IndexFor.nil _, rfl⟩, ?_⟩
  · intro c hc
    apply hSame _
    rcases List.mem_append.mp hc with hc | hc
    · have := h.disk.chain.mem_bounds hc
      omega
    · rw [List.mem_singleton.mp hc]
      exact hLt
  · intro p hp
    exact Option.some.inj hp
  · rw [Layout.next_rotate]
    exact hNext

theorem rotateActiveSegment_spec (hClean : Clean env) (h : Live log w.store L)
    (hNe : L.active.frames ≠ []) :
    wp env rotateActiveSegment
      { ok := fun _ log' w' => log'.config = log.config ∧
          log'.segments.length = log.segments.length + 1 ∧ Live log' w'.store L.rotate
        err := fun _ log' w' => ¬ env.Steady ∧ log' = log ∧ Live log w'.store L
        panic := fun _ _ _ => False
        crash := fun log' w' => ¬ env.Alive ∧ log' = log ∧
          (OnDisk w'.store L ∨ OnDisk w'.store L.rotate) } log w := by
  obtain ⟨init, active, f, hParts⟩ := h.parts
  have hDurable := hParts.disk.durable_le
  rw [rotateActiveSegment]
  refine wp_bind_of (syncSegment_spec hParts) ?_ ?_ (fun _ _ _ hF => hF) ?_
  · rintro - log' w' ⟨rfl, hSynced⟩
    refine wp_bind_of (syncIndex_spec hSynced) ?_ ?_ (fun _ _ _ hF => hF) ?_
    · rintro - log' w'' ⟨rfl, hBoth, hIndex⟩
      have hBack := hBoth.unsynced hDurable
      have hf : Settled f.sync := ⟨rfl, rfl⟩
      obtain ⟨hNoLog, hNoIndex⟩ := next_absent hBack.disk hNe
      rw [wp_get_bind, h.nextOffset, wp_bind, Segment.create, wp_bind]
      refine wp_createNew hNoLog ?_ ?_ ?_
      · have hLog := Store.updates_put w''.store (.log L.next) File.empty
        simp only [wp_pure]
        rw [wp_bind, SparseIndex.create, wp_bind]
        refine wp_createNew ?_ ?_ ?_ ?_
        · rw [hLog.others _ (by simp)]
          exact hNoIndex
        · simp only [wp_pure, wp_modify]
          exact ⟨trivial, by simp,
            live_rotate hBack hf hIndex hNe h.nextOffset hLog (Store.updates_put _ _ _)⟩
        · -- a clean environment lets the index file be created
          intro kind k hFail
          exact (hClean.failures _ _ _ _ hFail).elim
        · intro k hCrash
          exact ⟨Env.not_alive_of_crash hCrash, rfl,
            Or.inr (onDisk_rotate hBack hf hIndex hNe hLog)⟩
      · intro kind k hFail
        exact ⟨Env.not_steady_of_fail hFail, rfl, ⟨_, _, _, hBack⟩, h.nextOffset⟩
      · intro k hCrash
        exact ⟨Env.not_alive_of_crash hCrash, rfl, Or.inl hBack.disk⟩
    · rintro e log' w'' ⟨hNoisy, rfl, hw⟩
      refine ⟨hNoisy, rfl, ⟨init, active, f.sync, ?_⟩, h.nextOffset⟩
      rw [hw]
      exact hSynced.unsynced hDurable
    · rintro log' w'' ⟨hNoisy, rfl, hw⟩
      refine ⟨hNoisy, rfl, Or.inl ?_⟩
      rw [hw]
      exact (hSynced.unsynced hDurable).disk
  · rintro e log' w' ⟨hFails, rfl, hw⟩
    refine ⟨hFails.not_steady, rfl, ?_⟩
    rw [hw]
    exact h
  · rintro log' w' ⟨hNoisy, rfl, hw⟩
    refine ⟨hNoisy, rfl, Or.inl ?_⟩
    rw [hw]
    exact hParts.disk

/-! ## Writing frames -/

/-- One write of all frames. A crash leaves a prefix of them, a failure nothing. -/
theorem segmentAppend_spec (hClean : Clean env) (gs : List LogFrame)
    (h : Parts log w.store L L.active.frames.length init active f) :
    wp env (onActive (onSegment (Segment.append (flat gs))))
      { ok := fun pos log' w' => pos = span L.active.frames ∧ SameShape log log' ∧
          ∃ active' f', Parts log' w'.store (L.push gs) L.active.frames.length init active' f'
        err := fun _ log' w' => ¬ env.Steady ∧ SameShape log log' ∧
          ∃ active' f', Parts log' w'.store L L.active.frames.length init active' f'
        panic := fun _ _ _ => False
        crash := fun log' w' => ¬ env.Alive ∧ SameShape log log' ∧
          OnDisk w'.store (L.push gs) } log w := by
  rw [wp_onActive h.split, onSegment, wp_zoom]
  refine wp_mono (Segment.append_spec hClean h.segment h.cut (flat gs)) ?_ ?_
    (fun _ _ _ hF => hF) ?_
  · rintro pos s w' ⟨rfl, hBase, g, hs, hUpd, hData, hSynced, hCut⟩
    rw [h.logPath] at hUpd
    refine ⟨?_, sameShape_set h.split _, { active with segment := s }, g, ?_⟩
    · rw [h.segment.size, h.data, span]
    · refine h.update_log (L.push gs) rfl rfl rfl ?_ hUpd hs hBase ?_ hCut ?_
      · simp [Layout.push]
      · rw [hData, h.data, Layout.push, flat_append]
      · refine h.activeOnDisk.append h.data gs (flat gs).length ?_ hSynced hCut
        rw [List.take_length, hData]
  · rintro e s w' ⟨hNoisy, hBase, g, hs, hUpd, hRewind⟩
    rw [h.logPath] at hUpd
    obtain ⟨hData, hSynced, hCut⟩ : g.data = f.data ∧ g.synced = f.synced ∧ g.cut = f.cut := by
      simp only [File.rewind, File.mk.injEq] at hRewind
      exact ⟨hRewind.1, hRewind.2.1, hRewind.2.2.1⟩
    refine ⟨hNoisy, sameShape_set h.split _, { active with segment := s }, g, ?_⟩
    refine h.update_log L rfl rfl rfl rfl hUpd hs hBase (hData.trans h.data)
      (hCut.trans h.cut) ?_
    have hActive := h.activeOnDisk
    exact ⟨by rw [hData, hCut]; exact hActive.content, by rw [hSynced]; exact hActive.synced,
      by rw [hData, hSynced]; exact hActive.covered⟩
  · rintro s w' ⟨hNoisy, g, k, hUpd, hData, hSynced, hCut⟩
    rw [h.logPath] at hUpd
    refine ⟨hNoisy, sameShape_set h.split _, ?_⟩
    refine h.disk.congr rfl rfl rfl ?_ ⟨g, hUpd.self, ?_⟩
    · intro name hne _
      rw [hUpd.others name hne]
    · exact h.activeOnDisk.append h.data gs k hData hSynced hCut

/-- Telling the active index of the next frame. -/
theorem trackOne_spec (hClean : Clean env) (h : Parts log w.store L m init active f)
    {frame : LogFrame} (hFrame : L.active.frames[m]? = some frame) :
    wp env (onActive (onIndex (SparseIndex.trackAppend (L.active.base + m)
        (span (L.active.frames.take m)) frame.bytes.length)))
      { ok := fun _ log' w' => SameShape log log' ∧
          ∃ active', Parts log' w'.store L (m + 1) init active' f
        err := fun _ _ _ => False
        panic := fun _ _ w' => 2 ^ 32 ≤ span (L.active.frames.take m) ∧ OnDisk w'.store L
        crash := fun log' w' => ¬ env.Alive ∧ SameShape log log' ∧ OnDisk w'.store L } log w := by
  have hm : m < L.active.frames.length := (List.getElem?_eq_some_iff.mp hFrame).1
  have hLen : (L.active.frames.take m).length = m := by
    rw [List.length_take]
    omega
  have hTake : L.active.frames.take (m + 1) = L.active.frames.take m ++ [frame] := by
    rw [List.take_add_one, hFrame, Option.toList_some]
  have hTrack := SparseIndex.trackFrame_spec hClean ⟨h.index, h.entries, h.tracked⟩ frame
  rw [hLen] at hTrack
  rw [wp_onActive h.split, onIndex, wp_zoom]
  refine wp_mono hTrack ?_ (fun _ _ _ hF => hF) ?_ ?_
  · rintro - x w' ⟨hx, g, hUpd⟩
    rw [h.indexPath] at hUpd
    rw [← hTake] at hx
    exact ⟨sameShape_set h.split _, _, h.update_index hUpd hx.file hx.entries hx.tracked⟩
  · rintro p x w' ⟨hw, -, hBig⟩
    refine ⟨hBig, ?_⟩
    rw [hw]
    exact h.disk
  · rintro x w' ⟨hNoisy, g, hUpd⟩
    rw [h.indexPath] at hUpd
    exact ⟨hNoisy, sameShape_set h.split _, h.disk.index_only hUpd.others⟩

/-- Telling it of all the rest, by induction on the frames that are left. -/
theorem trackBatch_spec (hClean : Clean env) (gs : List LogFrame)
    (h : Parts log w.store L m init active f) (hDrop : L.active.frames.drop m = gs) :
    wp env (trackBatch (sizes gs) (L.active.base + m) (span (L.active.frames.take m)))
      { ok := fun _ log' w' => SameShape log log' ∧
          ∃ active', Parts log' w'.store L (m + gs.length) init active' f
        err := fun _ _ _ => False
        panic := fun _ _ w' => ¬ PositionsOk (span (L.active.frames.take m)) gs ∧
          OnDisk w'.store L
        crash := fun log' w' => ¬ env.Alive ∧ SameShape log log' ∧ OnDisk w'.store L } log w := by
  induction gs generalizing m log w active with
  | nil => exact ⟨SameShape.refl log, active, h⟩
  | cons g gs ih =>
    have hFrame : L.active.frames[m]? = some g := by
      rw [← List.head?_drop, hDrop, List.head?_cons]
    have hTake : span (L.active.frames.take (m + 1)) =
        span (L.active.frames.take m) + g.bytes.length := by
      rw [List.take_add_one, hFrame, Option.toList_some, span_append]
      simp
    simp only [sizes, List.map_cons, trackBatch]
    refine wp_bind_of (trackOne_spec hClean h hFrame) ?_ (fun _ _ _ hF => hF) ?_
      (fun _ _ hC => hC)
    · rintro - log' w' ⟨hShape, active', hParts⟩
      have hRest := ih hParts (by rw [← List.drop_drop, hDrop, List.drop_one, List.tail_cons])
      rw [← hTake, Nat.add_assoc L.active.base]
      refine wp_mono hRest ?_ (fun _ _ _ hF => hF) ?_ ?_
      · rintro - log'' w'' ⟨hShape', active'', hParts'⟩
        refine ⟨hShape.trans hShape', active'', ?_⟩
        rwa [List.length_cons, Nat.add_comm gs.length, ← Nat.add_assoc]
      · rintro p log'' w'' ⟨hBad, hDisk⟩
        refine ⟨fun hPos => hBad ?_, hDisk⟩
        rw [hTake]
        exact hPos.tail
      · rintro log'' w'' ⟨hNoisy, hShape', hDisk⟩
        exact ⟨hNoisy, hShape.trans hShape', hDisk⟩
    · rintro p log' w' ⟨hBig, hDisk⟩
      refine ⟨fun hPos => ?_, hDisk⟩
      have := hPos.head
      omega

/-! ## Appending -/

end Log

/-- Whether the active chunk has frames and no room for `additional` more bytes. -/
def Layout.overflows (L : Layout) (additional threshold : Nat) : Bool :=
  if span L.active.frames = 0 then false
  else decide (threshold < span L.active.frames + additional)

/-- The layout the frames of an append go to. -/
def Layout.target (L : Layout) (rotates : Bool) : Layout := if rotates then L.rotate else L

/-- What an append of `gs` that rotates or not may end in. An error is either the missing
codec or an I/O failure, a panic is over a position that no index entry can hold, and a
crash leaves a prefix of the frames behind. -/
def appendPost {α : Type} (env : Env FileName) (X : Crates) (log : Log) (L : Layout)
    (rotates : Bool) (gs : List LogFrame) (value : α) : Post FileName KafkoError Log α where
  ok := fun a log' w' => a = value ∧ log'.config = log.config ∧
    log.config.compression.isAvailable X = true ∧
    log'.segments.length = log.segments.length + rotates.toNat ∧
    Live log' w'.store (L.step rotates gs)
  err := fun e log' w' => log'.config = log.config ∧
    (log'.segments.length = log.segments.length ∧ Live log' w'.store L ∨
      log'.segments.length = log.segments.length + 1 ∧ Live log' w'.store L.rotate) ∧
    (e = .compressionUnavailable log.config.compression ∧
      log.config.compression.isAvailable X = false ∨ ¬ env.Steady)
  panic := fun _ _ w' => ¬ PositionsOk (span (L.target rotates).active.frames) gs ∧
    OnDisk w'.store (L.step rotates gs)
  crash := fun log' w' => ¬ env.Alive ∧
    (log'.segments.length = log.segments.length ∧ OnDisk w'.store L ∨ OnDisk w'.store L.rotate ∨
      log'.segments.length = log.segments.length + rotates.toNat ∧
        OnDisk w'.store (L.step rotates gs))

namespace Log

open IndexedSegment

theorem wp_activeWouldOverflow {Q : Post FileName KafkoError Log α}
    {k : Bool → LogIO Log α} (h : Live log w.store L) (n : Nat) :
    wp env (activeWouldOverflow n >>= k) Q log w ↔
      wp env (k (L.overflows n log.config.segmentSizeThreshold)) Q log w := by
  obtain ⟨init, active, f, hParts⟩ := h.parts
  have hLast : log.segments.getLast? = some active := by simp [hParts.split]
  have hSize : active.segment.size = span L.active.frames := by
    rw [hParts.segment.size, hParts.data, span]
  rw [wp_bind, activeWouldOverflow, wp_get_bind]
  simp only [hLast, wp_pure, Segment.wouldOverflow, hSize, Layout.overflows]

/-- The first half of both appends. -/
theorem wp_rotating (hClean : Clean env) (h : Live log w.store L) {n : Nat} {rotates : Bool}
    (hRotates : L.overflows n log.config.segmentSizeThreshold = rotates)
    {prog : LogIO Log α} {gs : List LogFrame} {X : Crates} {value : α}
    (hProg : ∀ log' w', log'.config = log.config → Live log' w'.store (L.target rotates) →
      log'.segments.length = log.segments.length + rotates.toNat →
      wp env prog (appendPost env X log L rotates gs value) log' w') :
    wp env (activeWouldOverflow n >>= fun b =>
        if b = true then rotateActiveSegment >>= fun _ => prog else prog)
      (appendPost env X log L rotates gs value) log w := by
  rw [wp_activeWouldOverflow h, hRotates]
  cases rotates with
  | false => exact hProg log w rfl h rfl
  | true =>
    have hNe : L.active.frames ≠ [] := by
      intro hNil
      simp [Layout.overflows, hNil] at hRotates
    rw [if_pos rfl]
    refine wp_bind_of (rotateActiveSegment_spec hClean h hNe) ?_ ?_ (fun _ _ _ hF => hF.elim) ?_
    · rintro - log' w' ⟨hConfig, hCount, hLive⟩
      exact hProg log' w' hConfig hLive hCount
    · rintro e log' w' ⟨hNoisy, rfl, hLive⟩
      exact ⟨rfl, Or.inl ⟨rfl, hLive⟩, Or.inr hNoisy⟩
    · rintro log' w' ⟨hNoisy, rfl, hDisk | hDisk⟩
      · exact ⟨hNoisy, Or.inl ⟨rfl, hDisk⟩⟩
      · exact ⟨hNoisy, Or.inr (Or.inl hDisk)⟩

section Tail

variable {log₀ : Log} {rotates : Bool} {gs : List LogFrame} (X : Crates) (value : α)

/-- An error after the rotation. -/
theorem appendPost_err (hConfig : log.config = log₀.config)
    (hCount : log.segments.length = log₀.segments.length + rotates.toNat)
    (hLive : Live log w.store (L.target rotates)) {e : KafkoError}
    (hWhy : e = .compressionUnavailable log₀.config.compression ∧
      log₀.config.compression.isAvailable X = false ∨ ¬ env.Steady) :
    (appendPost env X log₀ L rotates gs value).err e log w := by
  refine ⟨hConfig, ?_, hWhy⟩
  cases rotates with
  | false => exact Or.inl ⟨hCount, hLive⟩
  | true => exact Or.inr ⟨hCount, hLive⟩

variable (gs) in
/-- The second half of both appends. -/
theorem wp_writing_frames (hClean : Clean env) (hConfig : log.config = log₀.config)
    (hCodec : log₀.config.compression.isAvailable X = true)
    (hCount : log.segments.length = log₀.segments.length + rotates.toNat)
    (hLive : Live log w.store (L.target rotates)) :
    wp env (do
        let filePos ← onActive (onSegment (Segment.append (flat gs)))
        trackBatch (sizes gs) log.nextOffset filePos
        Fx.modify fun log => { log with nextOffset := log.nextOffset + gs.length }
        pure value)
      (appendPost env X log₀ L rotates gs value) log w := by
  obtain ⟨init, active, f, hParts⟩ := hLive.parts
  have hTake : ((L.target rotates).push gs).active.frames.take
      (L.target rotates).active.frames.length = (L.target rotates).active.frames := by
    simp [Layout.push]
  refine wp_bind_of (segmentAppend_spec hClean gs hParts) ?_ ?_ (fun _ _ _ hF => hF.elim) ?_
  · rintro pos log' w' ⟨rfl, hShape, active', f', hParts'⟩
    have hTrack := trackBatch_spec hClean gs hParts' (by simp [Layout.push])
    rw [hTake] at hTrack
    rw [hLive.nextOffset]
    refine wp_bind_of hTrack ?_ (fun _ _ _ hF => hF.elim) (fun _ _ _ hP => hP) ?_
    · rintro - log'' w'' ⟨hShape', active'', hDone⟩
      rw [wp_modify_bind, wp_pure]
      have hAll := hShape.trans hShape'
      have hLen : (L.step rotates gs).active.frames.length =
          (L.target rotates).active.frames.length + gs.length :=
        List.length_append
      rw [← hLen] at hDone
      refine ⟨rfl, hAll.config.trans hConfig, hCodec, hAll.count.trans hCount,
        ⟨init, active'', f', { hDone with }⟩, ?_⟩
      dsimp only
      rw [hAll.nextOffset, hLive.nextOffset]
      exact (Layout.next_push _ _).symm
    · rintro log'' w'' ⟨hNoisy, hShape', hDisk⟩
      exact ⟨hNoisy, Or.inr (Or.inr ⟨(hShape.trans hShape').count.trans hCount, hDisk⟩)⟩
  · rintro e log' w' ⟨hNoisy, hShape, active', f', hParts'⟩
    exact appendPost_err X value (hShape.config.trans hConfig) (hShape.count.trans hCount)
      ⟨⟨_, _, _, hParts'⟩, hShape.nextOffset.trans hLive.nextOffset⟩ (Or.inr hNoisy)
  · rintro log' w' ⟨hNoisy, hShape, hDisk⟩
    exact ⟨hNoisy, Or.inr (Or.inr ⟨hShape.count.trans hCount, hDisk⟩)⟩

end Tail

theorem trackBatch_singleton (size offset filePos : Nat) :
    trackBatch [size] offset filePos =
      onActive (onIndex (SparseIndex.trackAppend offset filePos size)) := by
  rw [trackBatch, trackBatch, Fx.bind_pure_unit]

theorem append_spec (hClean : Clean env) (h : Live log w.store L) (X : Crates) (r : Record)
    {rotates : Bool}
    (hRotates : L.overflows r.wireSize log.config.segmentSizeThreshold = rotates) :
    wp env (append X r) (appendPost env X log L rotates
      (framesOf X log.config.compression [r]) L.next) log w := by
  rw [append]
  apply wp_rotating hClean h hRotates
  intro log' w' hConfig hLive hCount
  have hNext : log'.nextOffset = L.next := by
    rw [hLive.nextOffset]
    cases rotates with
    | false => rfl
    | true => exact L.next_rotate
  rw [wp_get_bind, hConfig, Record.encodeWith_eq]
  cases hc : log.config.compression.isAvailable X with
  | true =>
    obtain ⟨bytes, hOk⟩ := Record.wire_isAvailable hc r
    have hFrames : framesOf X log.config.compression [r] =
        [⟨r, bytes, Record.wire_ne_nil hOk⟩] := framesOf_cons hOk
    have hTail := wp_writing_frames [⟨r, bytes, Record.wire_ne_nil hOk⟩] X L.next hClean hConfig
      hc hCount hLive
    rw [hFrames]
    rw [hOk, Res.ok_bind, Res.pure_eq, wp_lift_bind]
    simpa [sizes, trackBatch_singleton, hNext] using hTail
  | false =>
    rw [wire_unavailable hc]
    exact appendPost_err X _ hConfig hCount hLive (Or.inl ⟨rfl, hc⟩)

theorem appendBatch_spec (hClean : Clean env) (h : Live log w.store L) (X : Crates)
    (r : Record) (rs : List Record) {rotates : Bool}
    (hRotates : L.overflows ((r :: rs).map Record.wireSize).sum
      log.config.segmentSizeThreshold = rotates) :
    wp env (appendBatch X (r :: rs)) (appendPost env X log L rotates
      (framesOf X log.config.compression (r :: rs))
      (List.range' L.next (rs.length + 1))) log w := by
  rw [appendBatch]
  apply wp_rotating hClean h hRotates
  intro log' w' hConfig hLive hCount
  have hNext : log'.nextOffset = L.next := by
    rw [hLive.nextOffset]
    cases rotates with
    | false => rfl
    | true => exact L.next_rotate
  rw [wp_get_bind, hConfig]
  cases hc : log.config.compression.isAvailable X with
  | true =>
    have hTail := wp_writing_frames (framesOf X log.config.compression (r :: rs)) X
      (List.range' L.next (rs.length + 1)) hClean hConfig hc hCount hLive
    rw [length_framesOf hc] at hTail
    rw [encodeBatch_ok hc, wp_lift_bind]
    simpa [hNext] using hTail
  | false =>
    rw [encodeBatch_unavailable hc]
    exact appendPost_err X _ hConfig hCount hLive (Or.inl ⟨rfl, hc⟩)

end Log

end Kafko
