import Kafko.Storage.Failures

/-!
# What the segments of a log were given

Records may have any size that the length fields of a frame can hold. A value above the
decompression cap is written like any other and refused by the decoder, so the frames of a log
are of two kinds: those that decode and those that are refused. Which records the active
segment holds, and the codec of each, is tracked through every operation.
-/

namespace Kafko

open Disk

/-! ## Frames the decoder refuses -/

/-- Decoding fails in the decompressor, whatever follows the frame. -/
def Refused (X : Crates) (f : LogFrame) : Prop :=
  ∀ rest, Record.decode X (f.bytes ++ rest) = .err .decompressionFailed

theorem Refused.not_readable {X : Crates} {f : LogFrame} (h : Refused X f) : ¬ Readable X f := by
  intro hReadable
  have hBoth := (hReadable []).symm.trans (h [])
  cases hBoth

/-- The frame and, under LZ4, the value are short enough for their 32-bit length fields. -/
structure Record.LengthsFit (X : Crates) (c : Compression) (r : Record) : Prop where
  frame : r.encodedSize X c < 2 ^ 32 + 4
  value : c = .lz4 → r.value.length < 2 ^ 32

theorem whole_or_refused {X : Crates} (hX : X.Lawful) {c : Compression} {f : LogFrame}
    (hWire : f.record.wire X c = .ok f.bytes) (hLen : f.record.LengthsFit X c) :
    if c.Fits f.record.value then Whole X f else Refused X f := by
  have hFrame := hLen.frame
  rw [Record.encodedSize, hWire] at hFrame
  split
  · next hFits =>
    exact ⟨Record.decode_wire hX hWire hFits hFrame, fun n hn =>
      Record.decode_strict_prefix hWire hFrame hn⟩
  · next hBig => exact Record.decode_wire_oversized hX hWire hLen.value hBig hFrame

namespace Log

variable {σ : Type} {st : σ} {env : Env FileName} {w : World FileName} {X : Crates} {L : Layout}

/-- The scan does not take a refused frame for the end of the log. -/
theorem lastValid_refused {fs : List LogFrame} (hAll : ∀ f ∈ fs, Readable X f ∨ Refused X f)
    (hBad : ∃ f ∈ fs, Refused X f) {fuel : Nat} (hFuel : fs.length ≤ fuel) (pos : Nat) :
    lastValid X fuel (flat fs) pos = .err .decompressionFailed := by
  induction fs generalizing fuel pos with
  | nil =>
    obtain ⟨f, hf, -⟩ := hBad
    cases hf
  | cons f fs ih =>
    obtain ⟨fuel, rfl⟩ : ∃ n, fuel = n + 1 := ⟨fuel - 1, by simp at hFuel; omega⟩
    have hNe : (flat (f :: fs)).isEmpty = false := by
      simp [f.nonempty]
    rw [lastValid, hNe, flat_cons]
    rcases hAll f List.mem_cons_self with hReadable | hRefused
    · rw [hReadable]
      simp only [Bool.false_eq_true, if_false]
      apply ih (fun g hg => hAll g (List.mem_cons_of_mem _ hg)) _ (by simpa using hFuel)
      obtain ⟨g, hg, hRefused⟩ := hBad
      rcases List.mem_cons.mp hg with rfl | hg
      · exact absurd hReadable hRefused.not_readable
      · exact ⟨g, hg, hRefused⟩
    · rw [hRefused]
      rfl

/-- Recovery gives up on a segment with a refused frame. -/
theorem truncateTail_refused (hFull : env.FullReads) {s : Segment} {f : File} {fs : List LogFrame}
    (hs : SegmentOk w.store s f) (hData : f.data = flat fs)
    (hAll : ∀ f ∈ fs, Readable X f ∨ Refused X f) (hBad : ∃ f ∈ fs, Refused X f) :
    wp env (truncateTail X)
      { ok := fun _ _ _ => False
        err := fun e _ _ => e = .decompressionFailed ∨ ¬ env.Steady
        panic := fun _ _ _ => False
        crash := fun _ _ => ¬ env.Alive } s w := by
  have hSize : s.size ≠ 0 := by
    rw [hs.size, hData]
    intro hZero
    rw [span_eq_zero.mp hZero] at hBad
    obtain ⟨g, hg, -⟩ := hBad
    cases hg
  rw [truncateTail, wp_bind, scanForLastValidPosition, wp_get_bind, if_neg hSize]
  refine wp_bind_of (readWhole_spec hFull hs) ?_ (fun _ _ _ hE => Or.inr hE) (fun _ _ _ hF => hF)
    (fun _ _ hC => hC.1)
  rintro bytes s' w' ⟨rfl, -⟩
  have hScan : lastValid X f.data.length f.data 0 = .err .decompressionFailed := by
    rw [hData]
    exact lastValid_refused hAll hBad (length_le_span fs) 0
  rw [hScan]
  exact Or.inl rfl

variable (st) in
/-- A directory with a refused frame in its active segment can not be opened. -/
theorem open_refused (hClean : Clean env) (h : OnDisk w.store L) {f : File}
    (hf : w.store.get (.log L.active.base) = some f) (hData : f.data = flat L.active.frames)
    (hAll : ∀ f ∈ L.active.frames, Readable X f ∨ Refused X f)
    (hBad : ∃ f ∈ L.active.frames, Refused X f) (config : LogConfig) :
    wp env (open_ X config)
      { ok := fun _ _ _ => False
        err := fun e _ _ => e = .decompressionFailed ∨ ¬ env.Steady
        panic := fun _ _ _ => False
        crash := fun _ _ => ¬ env.Alive } st w := by
  apply wp_open_existing h hf config (fun _ _ _ hE => Or.inr hE) (fun _ _ hC _ => hC)
  intro ps w₁ hLoaded hDisk hf₁
  rw [wp_bind, recoverActiveSegment]
  refine wp_bind_of (open_spec_segment hf₁) ?_ (fun _ _ _ hE => Or.inr hE)
    (fun _ _ _ hF => hF.elim) (fun _ _ hC => hC.1)
  rintro s st' w₂ ⟨rfl, rfl, hUpd⟩
  have hs : SegmentOk w₂.store ⟨L.active.base, f.data.length, some 0⟩ (f.seek 0) := by
    refine ⟨hUpd.self, rfl, ?_⟩
    intro p hp
    exact Option.some.inj hp
  rw [wp_bind, wp_withLocal]
  exact wp_mono (truncateTail_refused hClean.fullReads hs hData hAll hBad)
    (fun _ _ _ hF => hF.elim) (fun _ _ _ hE => hE) (fun _ _ _ hF => hF) (fun _ _ hC => hC)

end Log

/-! ## What the active segment was given -/

/-- Whether an append of `additional` bytes seals the active segment first. -/
def Log.rotatesFor (log : Log) (additional : Nat) : Bool :=
  match log.segments.getLast? with
  | none => false
  | some active => active.segment.wouldOverflow additional log.config.segmentSizeThreshold

/-- The logs reachable by operations that succeed or fail cleanly and by opening again, with
the records in the active segment and the codec of each. Records may be of any size that the
length fields can hold. -/
inductive Grown (X : Crates) : Log → World FileName → List (Compression × Record) → Prop
  | created {env : Env FileName} {config : LogConfig} {log : Log} {w w' : World FileName}
      (hFresh : Fresh w.store) (hRun : Log.create config env () w = (.ok log, (), w')) :
      Grown X log w' []
  | accepted {env : Env FileName} {op : LogOp} {reply : Reply} {log log' : Log}
      {w w' : World FileName} {held : List (Compression × Record)} (hGrown : Grown X log w held)
      (hEnv : CleanFailures env)
      (hSmall : ∀ r ∈ op.records, r.LengthsFit X log.config.compression)
      (hRun : op.exec X env log w = (.ok reply, log', w')) :
      Grown X log' w' ((if log.segments.length < log'.segments.length then [] else held) ++
        op.records.map fun r => (log.config.compression, r))
  | refused {env : Env FileName} {op : LogOp} {e : KafkoError} {log log' : Log}
      {w w' : World FileName} {held : List (Compression × Record)} (hGrown : Grown X log w held)
      (hEnv : CleanFailures env) (hRun : op.exec X env log w = (.err e, log', w')) :
      Grown X log' w' (if log.segments.length < log'.segments.length then [] else held)
  | reopened {env : Env FileName} {config : LogConfig} {log log' : Log} {w w' : World FileName}
      {held : List (Compression × Record)} (hGrown : Grown X log w held)
      (hEnv : CleanFailures env) (hRun : Log.open_ X config env () w = (.ok log', (), w')) :
      Grown X log' w' held

/-- The frames of records with their codecs. -/
def heldFrames (X : Crates) (held : List (Compression × Record)) : List LogFrame :=
  held.filterMap fun e => frameOf X e.1 e.2

theorem heldFrames_append (X : Crates) (held : List (Compression × Record)) (c : Compression)
    (rs : List Record) :
    heldFrames X (held ++ rs.map fun r => (c, r)) = heldFrames X held ++ framesOf X c rs := by
  rw [heldFrames, List.filterMap_append, List.filterMap_map]
  rfl

theorem mem_heldFrames {X : Crates} {held : List (Compression × Record)} {f : LogFrame}
    (h : f ∈ heldFrames X held) :
    ∃ c, (c, f.record) ∈ held ∧ f.record.wire X c = .ok f.bytes := by
  obtain ⟨⟨c, r⟩, hMem, hFrame⟩ := List.mem_filterMap.mp h
  have hIn : f ∈ framesOf X c [r] := List.mem_filterMap.mpr ⟨r, List.mem_singleton_self r, hFrame⟩
  obtain ⟨hr, hWire⟩ := mem_framesOf hIn
  rw [List.mem_singleton.mp hr] at hWire ⊢
  exact ⟨c, hMem, hWire⟩

theorem heldFrames_of_mem {X : Crates} {held : List (Compression × Record)} {c : Compression}
    {r : Record} (h : (c, r) ∈ held) (hc : c.isAvailable X = true) :
    ∃ f ∈ heldFrames X held, f.record = r ∧ f.record.wire X c = .ok f.bytes := by
  obtain ⟨bytes, hWire⟩ := Record.wire_isAvailable hc r
  exact ⟨_, List.mem_filterMap.mpr ⟨_, h, frameOf_of_wire hWire⟩, rfl, hWire⟩

/-- Every frame of the layout decodes or is refused. -/
def Layout.Decided (X : Crates) (L : Layout) : Prop :=
  ∀ f ∈ L.frames, Readable X f ∨ Refused X f

/-- The log is live and its active segment holds the frames of `held`. -/
def Filled (X : Crates) (log : Log) (d : Store FileName) (held : List (Compression × Record)) :
    Prop :=
  (∀ e ∈ held, e.1.isAvailable X = true ∧ e.2.LengthsFit X e.1) ∧
    ∃ L, Live log d L ∧ L.Decided X ∧ L.active.frames = heldFrames X held

section

variable {X : Crates} {env : Env FileName} {log : Log} {w : World FileName} {L : Layout}
  {held : List (Compression × Record)}

theorem Live.rotatesFor {d : Store FileName} (hLive : Live log d L) (additional : Nat) :
    log.rotatesFor additional = L.overflows additional log.config.segmentSizeThreshold := by
  obtain ⟨init, active, f, hParts⟩ := hLive.parts
  have hLast : log.segments.getLast? = some active := by simp [hParts.split]
  have hSize : active.segment.size = span L.active.frames := by
    rw [hParts.segment.size, hParts.data, span]
  simp only [Log.rotatesFor, hLast, Segment.wouldOverflow, hSize, Layout.overflows]

/-- Either all frames of the segment are whole, or one of them is refused. -/
theorem heldFrames_decode (hX : X.Lawful)
    (hHeld : ∀ e ∈ held, e.1.isAvailable X = true ∧ e.2.LengthsFit X e.1) :
    if ∀ e ∈ held, e.1.Fits e.2.value then ∀ f ∈ heldFrames X held, Whole X f
    else (∀ f ∈ heldFrames X held, Readable X f ∨ Refused X f) ∧
      ∃ f ∈ heldFrames X held, Refused X f := by
  split
  · next hFits =>
    intro f hf
    obtain ⟨c, hMem, hWire⟩ := mem_heldFrames hf
    have hDecode := whole_or_refused hX hWire (hHeld _ hMem).2
    rwa [if_pos (hFits _ hMem)] at hDecode
  · next hBig =>
    refine ⟨?_, ?_⟩
    · intro f hf
      obtain ⟨c, hMem, hWire⟩ := mem_heldFrames hf
      have hDecode := whole_or_refused hX hWire (hHeld _ hMem).2
      split at hDecode
      · exact Or.inl hDecode.readable
      · exact Or.inr hDecode
    · push Not at hBig
      obtain ⟨⟨c, r⟩, hMem, hr⟩ := hBig
      obtain ⟨hc, hLen⟩ := hHeld _ hMem
      obtain ⟨f, hf, rfl, hWire⟩ := heldFrames_of_mem hMem hc
      have hDecode := whole_or_refused hX hWire hLen
      rw [if_neg hr] at hDecode
      exact ⟨f, hf, hDecode⟩

/-- The active segment has the frames `fs` behind its old ones, or behind none if it is new. -/
def Gains (log : Log) (L : Layout) (log' : Log) (d : Store FileName) (fs : List LogFrame) : Prop :=
  log'.config = log.config ∧ ∃ L', Live log' d L' ∧ (∀ f ∈ L'.frames, f ∈ L.frames ∨ f ∈ fs) ∧
    L'.active.frames =
      (if log.segments.length < log'.segments.length then [] else L.active.frames) ++ fs

/-- What an operation does to the frames of the active segment. -/
def fillPost (X : Crates) (log : Log) (L : Layout) (op : LogOp) :
    Post FileName KafkoError Log Reply where
  ok := fun _ log' w' =>
    (op.records ≠ [] → log.config.compression.isAvailable X = true) ∧
      Gains log L log' w'.store (framesOf X log.config.compression op.records)
  err := fun _ log' w' => Gains log L log' w'.store []
  panic := fun _ _ _ => True
  crash := fun _ _ => True

theorem fillPost_of_append {α : Type} {rotates : Bool} {op : LogOp} {value : α} {prog : LogIO Log α}
    {reply : α → Reply}
    (hProg : wp env prog (appendPost env X log L rotates
      (framesOf X log.config.compression op.records) value) log w) :
    wp env (do let a ← prog; pure (reply a)) (fillPost X log L op) log w := by
  refine wp_bind_of hProg ?_ ?_ (fun _ _ _ _ => trivial) (fun _ _ _ => trivial)
  · rintro a log' w' ⟨rfl, hConfig, hc, hCount, hLive⟩
    rw [wp_pure]
    refine ⟨fun _ => hc, hConfig, _, hLive, ?_, ?_⟩
    · rw [Layout.frames_step]
      exact fun f hf => List.mem_append.mp hf
    cases rotates with
    | false =>
      rw [if_neg (by simp [hCount])]
      rfl
    | true =>
      rw [if_pos (by simp [hCount])]
      rfl
  · rintro e log' w' ⟨hConfig, ⟨hCount, hLive⟩ | ⟨hCount, hLive⟩, -⟩
    · exact ⟨hConfig, L, hLive, fun f hf => Or.inl hf,
        by rw [if_neg (by omega), List.append_nil]⟩
    · refine ⟨hConfig, _, hLive, ?_, ?_⟩
      · rw [Layout.frames_rotate]
        exact fun f hf => Or.inl hf
      · rw [if_pos (by omega)]
        rfl

theorem gains_nil {log' : Log} {d : Store FileName} {L' : Layout}
    (hConfig : log'.config = log.config) (hLive : Live log' d L')
    (hFrames : ∀ f ∈ L'.frames, f ∈ L.frames) (hActive : L'.active = L.active)
    (hCount : log'.segments.length ≤ log.segments.length) : Gains log L log' d [] := by
  refine ⟨hConfig, L', hLive, fun f hf => Or.inl (hFrames f hf), ?_⟩
  rw [if_neg (by omega), hActive, List.append_nil]

theorem Layout.length_chunks_retire (L : Layout) (n : Nat) :
    (L.retire n).chunks.length ≤ L.chunks.length := by
  induction n generalizing L with
  | zero => exact Nat.le_refl _
  | succ n ih =>
    rw [Layout.retire]
    split
    · exact Nat.le_refl _
    · next c cs hChunks =>
      have hRest := ih { L with oldest := c.next, chunks := cs }
      rw [hChunks, List.length_cons]
      exact hRest.trans (Nat.le_succ _)

theorem Live.length_segments {d : Store FileName} (h : Live log d L) :
    log.segments.length = L.chunks.length + 1 := by
  rw [h.loaded.length_eq, Layout.allChunks, List.length_append, List.length_singleton]

/-- The step lemma for the contents of the active segment. -/
theorem exec_fills (hClean : Clean env) (hLive : Live log w.store L) (op : LogOp) :
    wp env (op.exec X) (fillPost X log L op) log w := by
  cases op with
  | append r => exact fillPost_of_append (Log.append_spec hClean hLive X r rfl)
  | appendBatch rs =>
    cases rs with
    | nil =>
      exact ⟨fun hNe => absurd rfl hNe, gains_nil rfl hLive (fun _ hf => hf) rfl (Nat.le_refl _)⟩
    | cons r rs => exact fillPost_of_append (Log.appendBatch_spec hClean hLive X r rs rfl)
  | sync =>
    refine wp_bind_of (Log.sync_spec hLive) ?_ ?_ (fun _ _ _ _ => trivial) (fun _ _ _ => trivial)
    · rintro - log' w' ⟨rfl, hLive'⟩
      exact ⟨fun hNe => absurd rfl hNe, gains_nil rfl hLive' (fun _ hf => hf) rfl (Nat.le_refl _)⟩
    · rintro e log' w' ⟨-, rfl, hLive'⟩
      exact gains_nil rfl hLive' (fun _ hf => hf) rfl (Nat.le_refl _)
  | readRecordAt offset =>
    refine wp_bind_of (Log.readRecordAt_keeps hClean.fullReads hLive X offset) ?_ ?_
      (fun _ _ _ _ => trivial) (fun _ _ _ => trivial)
    · rintro r log' w' ⟨hShape, hLive', -⟩
      exact ⟨fun hNe => absurd rfl hNe,
        gains_nil hShape.config hLive' (fun _ hf => hf) rfl (Nat.le_of_eq hShape.count)⟩
    · rintro e log' w' ⟨hShape, hLive', -⟩
      exact gains_nil hShape.config hLive' (fun _ hf => hf) rfl (Nat.le_of_eq hShape.count)
  | applyRetention =>
    have hCount : ∀ n log' d, Live log' d (L.retire n) →
        log'.segments.length ≤ log.segments.length := by
      intro n log' d hLive'
      have := L.length_chunks_retire n
      rw [hLive'.length_segments, hLive.length_segments]
      omega
    have hFrames : ∀ n, ∀ f ∈ (L.retire n).frames, f ∈ L.frames := by
      intro n f hf
      rw [(Layout.frames_retire hLive.disk.chain n).2] at hf
      exact List.mem_of_mem_drop hf
    refine wp_bind_of (Log.applyRetention_spec hClean hLive) ?_ ?_ (fun _ _ _ _ => trivial)
      (fun _ _ _ => trivial)
    · rintro n log' w' ⟨hConfig, hLive', -⟩
      exact ⟨fun hNe => absurd rfl hNe,
        gains_nil hConfig hLive' (hFrames n) (Layout.active_retire L n) (hCount n _ _ hLive')⟩
    · rintro e log' w' ⟨-, hConfig, ⟨n, hLive'⟩, -⟩
      exact gains_nil hConfig hLive' (hFrames n) (Layout.active_retire L n) (hCount n _ _ hLive')

/-- A log that was opened has the active segment its directory had. -/
theorem Filled.opened (hX : X.Lawful) (h : Filled X log w.store held) (hEnv : CleanFailures env)
    {config : LogConfig} {log' : Log} {w' : World FileName}
    (hRun : Log.open_ X config env () w = (.ok log', (), w')) : Filled X log' w'.store held := by
  obtain ⟨hHeld, L, hLive, hDecided, hFrames⟩ := h
  obtain ⟨init, active, f, hParts⟩ := hLive.parts
  have hDecode := heldFrames_decode hX hHeld
  rw [← hFrames] at hDecode
  split at hDecode
  · obtain ⟨k, torn, hHolds⟩ : ∃ k torn, Holds f L.active.frames k torn :=
      Holds.exists (by rw [hParts.data])
    obtain ⟨rfl, -⟩ := hHolds.full hParts.data
    have hSpec := Log.open_spec () hEnv.clean hLive.disk hParts.file hParts.cut hHolds
      hDecode config
    rw [wp, hRun, Layout.cutTo_length] at hSpec
    exact ⟨hHeld, L, hSpec.2.2, hDecided, hFrames⟩
  · have hSpec := Log.open_refused () hEnv.clean hLive.disk hParts.file hParts.data
      hDecode.1 hDecode.2 config
    rw [wp, hRun] at hSpec
    exact hSpec.elim

theorem Filled.gains (hX : X.Lawful) (h : Filled X log w.store held) (rs : List Record)
    {log' : Log} {w' : World FileName} (hLen : ∀ r ∈ rs, r.LengthsFit X log.config.compression)
    (hCodec : rs ≠ [] → log.config.compression.isAvailable X = true)
    (hGains : ∀ L, Live log w.store L →
      Gains log L log' w'.store (framesOf X log.config.compression rs)) :
    Filled X log' w'.store ((if log.segments.length < log'.segments.length then [] else held) ++
      rs.map fun r => (log.config.compression, r)) := by
  obtain ⟨hHeld, L, hLive, hDecided, hFrames⟩ := h
  obtain ⟨-, L', hLive', hFrom, hFrames'⟩ := hGains L hLive
  refine ⟨?_, L', hLive', ?_, ?_⟩
  · intro e he
    rcases List.mem_append.mp he with he | he
    · split at he
      · cases he
      · exact hHeld e he
    · obtain ⟨r, hr, rfl⟩ := List.mem_map.mp he
      exact ⟨hCodec (List.ne_nil_of_mem hr), hLen r hr⟩
  · intro f hf
    rcases hFrom f hf with hOld | hNew
    · exact hDecided f hOld
    · obtain ⟨hr, hWire⟩ := mem_framesOf hNew
      have hDecode := whole_or_refused hX hWire (hLen _ hr)
      split at hDecode
      · exact Or.inl hDecode.readable
      · exact Or.inr hDecode
  · rw [heldFrames_append, hFrames', hFrames]
    split <;> rfl

/-- Every log reached without unclean failures is filled with what it was given. -/
theorem Grown.filled (hX : X.Lawful) (h : Grown X log w held) : Filled X log w.store held := by
  induction h with
  | @created env config log w w' hFresh hRun =>
    have hSpec : wp env (Log.create config) (Log.createPost env config ()) () w :=
      Log.create_spec hFresh config
    rw [wp, hRun] at hSpec
    exact ⟨fun e he => by (cases he), Layout.initial, hSpec.2.2, fun f hf => by (cases hf), rfl⟩
  | @accepted env op reply log log' w w' held _ hEnv hSmall hRun ih =>
    have hSpec := fun L (hLive : Live log w.store L) => exec_fills (X := X) hEnv.clean hLive op
    simp only [wp, hRun] at hSpec
    obtain ⟨L, hLive, -⟩ := ih.2
    exact ih.gains hX op.records hSmall (hSpec L hLive).1 fun L hLive => (hSpec L hLive).2
  | @refused env op e log log' w w' held _ hEnv hRun ih =>
    have hSpec := fun L (hLive : Live log w.store L) => exec_fills (X := X) hEnv.clean hLive op
    simp only [wp, hRun] at hSpec
    have hFilled := ih.gains hX [] (by simp) (fun hNe => absurd rfl hNe)
      fun L hLive => hSpec L hLive
    rwa [List.map_nil, List.append_nil] at hFilled
  | @reopened env config log log' w w' held _ hEnv hRun ih => exact ih.opened hX hEnv hRun

/-! ## A read that finds nothing -/

/-- A forward search does not run past a frame it was sent to find. -/
theorem findRecord_ne_none {fs : List LogFrame} (hAll : ∀ f ∈ fs, Readable X f ∨ Refused X f)
    {offset current : Nat} (hLe : current ≤ offset) (hLt : offset < current + fs.length)
    {fuel : Nat} (hFuel : fs.length ≤ fuel) :
    Log.findRecord X offset fuel (flat fs) current ≠ .ok none := by
  induction fs generalizing fuel current with
  | nil =>
    rw [List.length_nil] at hLt
    omega
  | cons g fs ih =>
    obtain ⟨fuel, rfl⟩ : ∃ n, fuel = n + 1 := ⟨fuel - 1, by simp at hFuel; omega⟩
    have hNe : (flat (g :: fs)).isEmpty = false := by
      simp [g.nonempty]
    rw [Log.findRecord, hNe, flat_cons]
    rcases hAll g List.mem_cons_self with hReadable | hStop
    · rw [hReadable]
      simp only [Bool.false_eq_true, if_false]
      by_cases hEq : current = offset
      · rw [if_pos hEq]
        simp
      · rw [if_neg hEq]
        rw [List.length_cons] at hLt
        exact ih (fun g' hg' => hAll g' (List.mem_cons_of_mem _ hg')) (by omega) (by omega)
          (by simpa using hFuel)
    · rw [hStop]
      simp

/-- A read that returns no record was for an offset outside of the log. -/
theorem readRecordAt_none (hFull : env.FullReads) (hLive : Live log w.store L)
    (hDecided : L.Decided X) (offset : Nat) :
    wp env (Log.readRecordAt X offset)
      { ok := fun r _ _ => r = none → ¬ (L.oldest ≤ offset ∧ offset < L.next)
        err := fun _ _ _ => True
        panic := fun _ _ _ => True
        crash := fun _ _ => True } log w := by
  rw [Log.readRecordAt, wp_get_bind]
  by_cases hPast : log.nextOffset ≤ offset
  · rw [if_pos hPast, wp_pure]
    rintro - ⟨-, hLt⟩
    rw [hLive.nextOffset] at hPast
    omega
  rw [if_neg hPast]
  rw [hLive.nextOffset] at hPast
  obtain ⟨p, c, hp, hc, hLoaded, hWhere⟩ := Log.findSegmentIndex_spec hLive (Nat.lt_of_not_le hPast)
  obtain ⟨k, hBefore, hSearch⟩ := Log.readFrom_searches hFull hLoaded X offset
  rw [Log.wp_onSegmentAt hp]
  refine wp_mono hSearch ?_ (fun _ _ _ _ => trivial) (fun _ _ _ _ => trivial) (fun _ _ _ => trivial)
  rintro r p' w' ⟨-, hFound⟩ rfl ⟨hOldest, -⟩
  rw [if_pos hOldest] at hWhere
  have hNext : c.next = c.base + c.frames.length := rfl
  have hk := hBefore hWhere.1
  refine findRecord_ne_none (fun g hg => hDecided g ?_) hk ?_ (length_le_span _) hFound
  · exact Layout.mem_frames (List.mem_of_getElem? hc) (List.mem_of_mem_drop hg)
  · rw [List.length_drop]
    omega

end

end Kafko
