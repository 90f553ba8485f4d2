import Kafko.Storage.Rebuilt

/-!
# A recovered log vouches for its offsets

Reads do not start where recovery started: they jump to an index entry and decode the rest of
the file from there. Since the replay entered the positions of the records it decoded, every
entry is a position of the linear decode, and the search decodes a suffix of the same list of
records, whatever the bytes are.
-/

namespace Kafko

open Disk

/-! ## One read -/

namespace Log

open IndexedSegment

variable {X : Crates} {env : Env FileName} {w : World FileName}

/-- What a read of `offset` makes of a segment whose file holds `bytes`, when its read call
delivers `n remaining` of the remaining bytes. -/
def searchOf (X : Crates) (p : IndexedSegment) (n : Nat → Nat) (bytes : Bytes) (offset : Nat) :
    Res KafkoError (Option Record) :=
  let (filePos, startingOffset) := p.index.lookup offset
  let remaining := p.segment.size - filePos
  if remaining = 0 then .ok none
  else
    let slice := (bytes.drop filePos).take (n remaining)
    findRecord X offset slice.length slice startingOffset

/-- The number of the read call of a search that begins at call `tick`. -/
def searchTick (p : IndexedSegment) (tick offset : Nat) : Nat :=
  tick + p.segment.seekTicks (p.index.lookup offset).1

/-- A read moves the handle of the file and changes nothing else. -/
structure OnlyMoved (d d' : Store FileName) (p p' : IndexedSegment) (f : File) : Prop where
  segment : ∃ pos, p' = { p with segment := { p.segment with cursor := pos } }
  file : ∃ pos, SegmentOk d' p'.segment (f.seek pos)
  others : ∀ name, name ≠ p.segment.path → d'.get name = d.get name

theorem readFrom_run {p : IndexedSegment} {f : File} (hs : SegmentOk w.store p.segment f)
    (offset : Nat) :
    wp env (readFrom X offset)
      { ok := fun r p' w' => OnlyMoved w.store w'.store p p' f ∧
          searchOf X p (env.delivered (searchTick p w.tick offset) p.segment.path) f.data offset =
            .ok r
        err := fun e _ _ => env.Smooth →
          searchOf X p (env.delivered (searchTick p w.tick offset) p.segment.path) f.data offset =
            .err e
        panic := fun m _ _ => env.Smooth →
          searchOf X p (env.delivered (searchTick p w.tick offset) p.segment.path) f.data offset =
            .panic m
        crash := fun _ _ => env.Smooth →
          searchOf X p (env.delivered (searchTick p w.tick offset) p.segment.path) f.data offset =
            .crash } p w := by
  rw [readFrom, wp_get_bind, searchOf, searchTick]
  rcases hLookup : p.index.lookup offset with ⟨filePos, startingOffset⟩
  dsimp only
  by_cases hEnd : p.segment.size - filePos = 0
  · rw [if_pos hEnd, if_pos hEnd, wp_pure]
    refine ⟨⟨⟨p.segment.cursor, rfl⟩, ⟨f.pos, ?_⟩, fun _ _ => rfl⟩, rfl⟩
    exact hs
  · rw [if_neg hEnd, if_neg hEnd, wp_bind, onSegment, wp_zoom]
    refine wp_mono (Segment.readAt_run hs filePos (p.segment.size - filePos)) ?_
      (fun _ _ _ hE hSmooth => (hE hSmooth).elim) (fun _ _ _ hE hSmooth => (hE hSmooth).elim)
      (fun _ _ hE hSmooth => (hE hSmooth).elim)
    rintro bytes s' w' ⟨rfl, rfl, hUpd, -⟩
    have hKeep := Segment.moved hs hUpd
    dsimp only
    unfold Fx.lift wp
    cases findRecord X offset _ _ startingOffset with
    | ok r => exact ⟨⟨⟨_, rfl⟩, ⟨_, hKeep⟩, hUpd.others⟩, rfl⟩
    | err e => exact fun _ => rfl
    | panic m => exact fun _ => rfl
    | crash => exact fun _ => rfl

/-- One segment holds every offset there is. -/
theorem findSegmentIndex_sole {log : Log} {p : IndexedSegment} (h : log.segments = [p])
    (offset : Nat) : log.findSegmentIndex offset = 0 := by
  have hSorted : log.segments.Pairwise
      fun a b => a.segment.baseOffset < b.segment.baseOffset := by
    rw [h]
    exact List.pairwise_singleton _ _
  have hOnly : ∀ i, LastAtMost log.segments offset (fun p => p.segment.baseOffset) i → i = 0 := by
    rintro i ⟨⟨q, hq, -⟩, -⟩
    have hi := (List.getElem?_eq_some_iff.mp hq).1
    rw [h, List.length_singleton] at hi
    omega
  unfold findSegmentIndex
  cases hSearch : binarySearchByKey log.segments offset fun p => p.segment.baseOffset with
  | ok i => exact hOnly i (lastAtMost_of_found hSorted hSearch)
  | error i =>
    cases i with
    | zero => rfl
    | succ i => exact hOnly i (lastAtMost_of_absent hSorted hSearch)

/-- Entries of an index that tracked all frames name frames. -/
theorem indexFor_tracked (base interval : Nat) {fs : List LogFrame} (hLen : span fs < 2 ^ 32) :
    IndexFor (SparseIndex.tracked base interval fs).entries fs := by
  induction fs using List.reverseRecOn with
  | nil => exact IndexFor.nil []
  | append_singleton fs f ih =>
    rw [span_append] at hLen
    have hPrefix := ih (by omega)
    rw [SparseIndex.tracked_snoc]
    have hStep := SparseIndex.indexFor_track hPrefix f (fun _ => by omega) f.bytes.length
    rwa [SparseIndex.tracked_baseOffset] at hStep

/-- A log of one segment whose index knows positions of the frames of its file. -/
structure Vouches (log : Log) (d : Store FileName) (base : Nat) (fs : List LogFrame)
    (p : IndexedSegment) : Prop where
  sole : log.segments = [p]
  indexBase : p.index.baseOffset = base
  entries : IndexFor p.index.entries fs
  segment : ∃ g, SegmentOk d p.segment g ∧ g.data = flat fs
  nextOffset : log.nextOffset = base + fs.length

/-- The search from an index entry reads a suffix of the frames the file consists of. -/
theorem searchOf_frames {p : IndexedSegment} {fs : List LogFrame} {base offset : Nat}
    (hDecodes : Decodes X [] fs) (hBase : p.index.baseOffset = base)
    (hEntries : IndexFor p.index.entries fs) (hSize : p.segment.size = span fs)
    (hOffset : base ≤ offset) :
    searchOf X p (fun n => n) (flat fs) offset =
      .ok ((fs[offset - base]?).map Frame.record) := by
  obtain ⟨k, hk, hLookup, hBefore⟩ := SparseIndex.lookup_spec hEntries offset
  rw [hBase] at hLookup hBefore
  have hRest : span fs - span (fs.take k) = span (fs.drop k) := by
    have := span_take_add_drop fs k
    omega
  have hSlice : ((flat fs).drop (span (fs.take k))).take (span (fs.drop k)) = flat (fs.drop k) := by
    rw [drop_span_take, span, List.take_length]
  have hSearch := searchFrom_decodes (c := ⟨base, fs⟩) hDecodes (k := k) hBefore
  rw [if_pos hOffset, searchFrom] at hSearch
  rw [searchOf, hLookup, hSize]
  dsimp only
  rw [hRest]
  by_cases hEnd : span (fs.drop k) = 0
  · rw [if_pos hEnd, ← hSearch, hEnd, findRecord]
  · rw [if_neg hEnd, hSlice]
    exact hSearch

/-- A read of such a log returns the record at the offset and leaves the log as good. -/
theorem Vouches.read {log : Log} {base : Nat} {fs : List LogFrame} {p : IndexedSegment}
    (h : Vouches log w.store base fs p) (hDecodes : Decodes X [] fs) (hQuiet : env.Quiet)
    {offset : Nat} (hBase : base ≤ offset) (hNext : offset < log.nextOffset) :
    ∃ log' w' p', readRecordAt X offset env log w =
        (.ok ((fs[offset - base]?).map Frame.record), log', w') ∧
      Vouches log' w'.store base fs p' ∧ log'.nextOffset = log.nextOffset := by
  obtain ⟨g, hs, hData⟩ := h.segment
  have hSearch := searchOf_frames hDecodes h.indexBase h.entries
    (hs.size.trans (congrArg List.length hData)) hBase
  have hFound : log.segments[log.findSegmentIndex offset]? = some p := by
    rw [findSegmentIndex_sole h.sole, h.sole]
    rfl
  have hAll : ∀ tick, env.delivered tick p.segment.path = fun n => n := by
    intro tick
    funext n
    exact hQuiet.fullReads.delivered tick _ n
  have hRead : wp env (readFrom X offset) _ p w := readFrom_run hs offset
  rw [hAll, hData, hSearch] at hRead
  have hRun : wp env (readRecordAt X offset)
      { ok := fun r log' w' => r = (fs[offset - base]?).map Frame.record ∧
          log'.nextOffset = log.nextOffset ∧ ∃ p', Vouches log' w'.store base fs p'
        err := fun _ _ _ => False
        panic := fun _ _ _ => False
        crash := fun _ _ => False } log w := by
    rw [readRecordAt, wp_get_bind, if_neg (by omega), wp_onSegmentAt hFound]
    refine wp_mono hRead ?_ ?_ ?_ ?_
    · rintro r p' w' ⟨⟨⟨pos, rfl⟩, ⟨pos', hMoved⟩, -⟩, hFoundRecord⟩
      refine ⟨(Res.ok.inj hFoundRecord).symm, rfl,
        { p with segment := { p.segment with cursor := pos } }, ?_, h.indexBase, h.entries,
        ⟨_, hMoved, hData⟩, h.nextOffset⟩
      dsimp only
      rw [findSegmentIndex_sole h.sole, h.sole]
      rfl
    · intro e p' w' hErr
      cases hErr hQuiet.smooth
    · intro m p' w' hPanic
      cases hPanic hQuiet.smooth
    · intro p' w' hCrash
      cases hCrash hQuiet.smooth
  unfold wp at hRun
  rcases hResult : readRecordAt X offset env log w with ⟨r, log', w'⟩
  rw [hResult] at hRun
  cases r with
  | ok r =>
    obtain ⟨rfl, hSame, p', hVouches⟩ := hRun
    exact ⟨log', w', p', rfl, hVouches, hSame⟩
  | err e => exact hRun.elim
  | panic m => exact hRun.elim
  | crash => exact hRun.elim

/-- Reads one offset after the other. -/
def readEach (X : Crates) : List Nat → LogIO Log (List (Option Record))
  | [] => pure []
  | offset :: offsets => do
    let record ← readRecordAt X offset
    let records ← readEach X offsets
    pure (record :: records)

theorem Vouches.readEach {log : Log} {base : Nat} {fs : List LogFrame} {p : IndexedSegment}
    (h : Vouches log w.store base fs p) (hDecodes : Decodes X [] fs) (hQuiet : env.Quiet)
    {offsets : List Nat} (hOffsets : ∀ o ∈ offsets, base ≤ o ∧ o < log.nextOffset) :
    (Log.readEach X offsets env log w).1 =
      .ok (offsets.map fun o => (fs[o - base]?).map Frame.record) := by
  induction offsets generalizing log w p with
  | nil => rfl
  | cons o os ih =>
    obtain ⟨hBase, hNext⟩ := hOffsets o List.mem_cons_self
    obtain ⟨log', w', p', hRead, hVouches, hSame⟩ := h.read hDecodes hQuiet hBase hNext
    have hRest := ih hVouches (by
      intro o' ho'
      rw [hSame]
      exact hOffsets o' (List.mem_cons_of_mem _ ho'))
    rw [Log.readEach, Fx.run_bind hRead]
    rcases hRun : Log.readEach X os env log' w' with ⟨r, log'', w''⟩
    rw [hRun] at hRest
    dsimp only at hRest
    rw [hRest] at hRun
    rw [Fx.run_bind hRun]
    rfl

/-- Opening a directory with one segment file, whatever its bytes are, returns a log that reads
every offset it reports as the record the linear decode of the kept bytes has there. -/
theorem open_vouches {σ : Type} {st st' : σ} {base : Nat} {f : File} {config : LogConfig}
    {log : Log} {w' : World FileName} {env' : Env FileName} (hFull : env.FullReads)
    (h : Stored w.store [] base f) (hLen : f.data.length < 2 ^ 32)
    (hOpen : open_ X config env st w = (.ok log, st', w')) (hQuiet : env'.Quiet) :
    ∃ kept records, (∃ g, w'.store.get (.log base) = some g ∧ g.data = f.data.take kept) ∧
      Record.decodeEach X records.length (f.data.take kept) = .ok (records, []) ∧
      log.nextOffset = base + records.length ∧
      ∀ offsets : List Nat, (∀ o ∈ offsets, base ≤ o ∧ o < log.nextOffset) →
        (readEach X offsets env' log w').1 = .ok (offsets.map fun o => records[o - base]?) := by
  obtain ⟨-, kept, ns, hSalvage, hOpened⟩ :=
    ok_of_wp (open_run h config) hOpen
  obtain ⟨hScan, hReplay⟩ := (salvageOf_full hFull hLen).mp hSalvage
  have hKept := lastValid_le hScan
  have hKeptLen : (f.data.take kept).length = kept := by
    rw [List.length_take]
    exact Nat.min_eq_left hKept
  obtain ⟨fs, hDecodes, hFlat, rfl⟩ := recordSizes_ok (Nat.le_of_eq hKeptLen) hReplay
  have hSpan : span fs = kept := by rw [span, hFlat, hKeptLen]
  -- the one segment of the log
  obtain ⟨p, hSole⟩ : ∃ p, log.segments = [p] := by
    have hCount := congrArg List.length hOpened.segments
    rw [List.length_map, List.map_nil, List.nil_append, List.length_singleton] at hCount
    exact List.length_eq_one_iff.mp hCount
  have hContent := hOpened.segments
  rw [hSole, List.map_singleton, List.map_nil, List.nil_append] at hContent
  obtain ⟨hBase, hIndex⟩ := Prod.mk.inj (List.cons.inj hContent).1
  have hIndex := (Prod.mk.inj hIndex).2
  obtain ⟨g, hg⟩ := hOpened.handles p (by rw [hSole]; exact List.mem_cons_self)
  obtain ⟨g', hg', hData⟩ := hOpened.active
  have hPath : p.segment.path = .log base := by rw [Segment.path, hBase]
  obtain rfl : g = g' := Option.some.inj (hg.file.symm.trans (hPath ▸ hg'))
  have hVouches : Vouches log w'.store base fs p := by
    refine ⟨hSole, ?_, ?_, ⟨g, hg, hData.trans hFlat.symm⟩, ?_⟩
    · rw [hIndex, SparseIndex.trackAll_baseOffset, freshIndex]
    · rw [hIndex]
      exact indexFor_tracked base config.indexInterval (by omega)
    · rw [hOpened.nextOffset, sizes, List.length_map]
  refine ⟨kept, fs.map Frame.record, ⟨g, hg', hData⟩, ?_, ?_, ?_⟩
  · rw [← hFlat, List.length_map]
    exact decodeEach_flat hDecodes
  · rw [hOpened.nextOffset, sizes, List.length_map, List.length_map]
  · intro offsets hOffsets
    rw [hVouches.readEach hDecodes hQuiet hOffsets]
    simp only [List.getElem?_map]

/-- A record, and a second one whose last byte is missing. -/
def tornPair : Bytes :=
  Record.frameBytes Crates.uncompressed ⟨5, some [1], [7]⟩ .none [7] ++
    (Record.frameBytes Crates.uncompressed ⟨6, none, [8]⟩ .none [8]).take 25

theorem open_vouches_tornPair :
    ∃ log st' w', open_ Crates.uncompressed LogConfig.default Env.quiet ()
        ⟨soleSegment 3 tornPair, 0⟩ = (.ok log, st', w') ∧
      ∃ kept records, (∃ g, w'.store.get (.log 3) = some g ∧ g.data = tornPair.take kept) ∧
        Record.decodeEach Crates.uncompressed records.length (tornPair.take kept) =
          .ok (records, []) ∧
        log.nextOffset = 3 + records.length ∧
        ∀ offsets : List Nat, (∀ o ∈ offsets, 3 ≤ o ∧ o < log.nextOffset) →
          (readEach Crates.uncompressed offsets Env.quiet log w').1 =
            .ok (offsets.map fun o => records[o - 3]?) := by
  have hStored := stored_soleSegment 3 tornPair
  have hLen : tornPair.length < 2 ^ 32 := by decide +kernel
  have hSalvage : salvageOf Crates.uncompressed LogConfig.default.indexInterval
      (Env.quiet : Env FileName) 0 3 [] tornPair ≠ none := by
    decide +kernel
  obtain ⟨log, st', w', hOpen⟩ := opens (w := ⟨soleSegment 3 tornPair, 0⟩)
    (f := ⟨tornPair, tornPair.length, [], 0⟩) Env.quiet_quiet.smooth hStored LogConfig.default ()
    hSalvage
  exact ⟨log, st', w', hOpen, open_vouches (f := ⟨tornPair, tornPair.length, [], 0⟩)
    Env.quiet_quiet.fullReads hStored hLen hOpen Env.quiet_quiet⟩

end Log

end Kafko
