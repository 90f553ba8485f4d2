import Kafko.Storage.Vouched
import Kafko.Storage.Shortened

/-!
# Reads that return less than they were asked for

The scan and the replay read a whole file with one call into a zeroed buffer and ignore how much
the call returned; a search decodes what its one call returned as if it were everything. How the
reads are split therefore shows, unless the calls return what the loops need: `Unharmed` says so
of the directory and of the counts the calls return, and `split_reads` proves it enough and, for
the files a log really has, necessary.
-/

namespace Kafko

open Disk

namespace Log

variable {X : Crates} {σ : Type} {st : σ} {env : Env FileName} {w : World FileName}

/-! ## What a caller sees -/

/-- The next offset, and base offset and size of every segment. -/
def view (log : Log) : Nat × List (Nat × Nat) :=
  (log.nextOffset, log.segments.map fun p => (p.segment.baseOffset, p.segment.size))

def openedView (run : Res KafkoError Log × σ × World FileName) :
    Option (Nat × List (Nat × Nat)) :=
  match run.1 with
  | .ok log => some log.view
  | _ => none

/-- What a read makes of the bytes in the files, when a call of `n p` delivers them. -/
def readOf (X : Crates) (log : Log) (d : Store FileName) (n : IndexedSegment → Nat → Nat)
    (offset : Nat) : Res KafkoError (Option Record) :=
  if log.nextOffset ≤ offset then .ok none
  else match log.segments[log.findSegmentIndex offset]? with
    | some p => searchOf X p (n p) (((d.get p.segment.path).map File.data).getD []) offset
    | none => .panic "index out of bounds"

/-- The bytes a read of `offset` that begins in `w` is given by its read call. -/
def deliveredTo (env : Env FileName) (w : World FileName) (offset : Nat) (p : IndexedSegment) :
    Nat → Nat :=
  env.delivered (searchTick p w.tick offset) p.segment.path

/-- Opening the directory and reading from the log give what they would give if every read
filled its buffer. -/
structure SplitBlind (X : Crates) (config : LogConfig) (env : Env FileName) (st : σ)
    (w : World FileName) : Prop where
  opens : openedView (open_ X config env st w) = openedView (open_ X config Env.quiet st w)
  reads : ∀ log st₁ w₁ log₀ st₀ w₀, open_ X config env st w = (.ok log, st₁, w₁) →
    open_ X config Env.quiet st w = (.ok log₀, st₀, w₀) → ∀ offset,
      (readRecordAt X offset env log w₁).1 = (readRecordAt X offset Env.quiet log₀ w₀).1

/-! ## What the read calls have to return -/

/-- The sizes of the records in the newest file, up to the first one that is torn. -/
def newestSizes (X : Crates) (bytes : Bytes) : List Nat :=
  (scanned X bytes.length bytes 0).map Scanned.size

/-- How much of the newest file its whole records take. -/
def keptLength (X : Crates) (bytes : Bytes) : Nat := (newestSizes X bytes).sum

/-- A segment of the log in a directory: its base offset, the bytes of its records and the index
that a search of it starts from. -/
structure StoredSegment where
  base : Nat
  bytes : Bytes
  index : SparseIndex

namespace StoredSegment

/-- A sealed segment is taken from its two files. -/
def sealed (d : Store FileName) (interval b : Nat) : StoredSegment :=
  ⟨b, ((d.get (.log b)).map File.data).getD [],
    ⟨b, SparseIndex.decodeEntries (((d.get (.index b)).map File.data).getD []), 0, interval⟩⟩

/-- The index of the newest segment is built anew, over the records that are kept. -/
def newest (X : Crates) (interval base : Nat) (bytes : Bytes) : StoredSegment :=
  ⟨base, bytes.take (keptLength X bytes),
    (freshIndex base interval).trackAll base 0 (newestSizes X bytes)⟩

/-- What a search for `offset` asks for: everything from its index entry on. -/
def slice (s : StoredSegment) (offset : Nat) : Bytes := s.bytes.drop (s.index.lookup offset).1

/-- What the search makes of the first `n` bytes. -/
def search (X : Crates) (s : StoredSegment) (n offset : Nat) : Res KafkoError (Option Record) :=
  let bytes := (s.slice offset).take n
  findRecord X offset bytes.length bytes (s.index.lookup offset).2

/-- How many bytes it needs. -/
def need (X : Crates) (s : StoredSegment) (offset : Nat) : Nat :=
  searchNeed X offset (s.slice offset).length (s.slice offset) (s.index.lookup offset).2

end StoredSegment

def storedSegments (X : Crates) (d : Store FileName) (interval : Nat) (bases : List Nat)
    (base : Nat) (bytes : Bytes) : List StoredSegment :=
  bases.map (StoredSegment.sealed d interval) ++ [StoredSegment.newest X interval base bytes]

/-- The segment in which an offset is looked for. -/
def segmentFor (segments : List StoredSegment) (offset : Nat) : Option StoredSegment :=
  match binarySearchByKey segments offset StoredSegment.base with
  | .ok i => segments[i]?
  | .error 0 => segments[0]?
  | .error (i + 1) => segments[i]?

/-- The buffers of scan and replay hold the records of the file. -/
structure SameSalvage (X : Crates) (env : Env FileName) (tick base : Nat) (bases : List Nat)
    (bytes : Bytes) : Prop where
  scan : SameRecords X bytes
    (zeroFilled (env.delivered (scanTick tick bases.length) (.log base) bytes.length) bytes)
  replay : Stops X (bytes.drop (keptLength X bytes)) →
    SameRecords X (bytes.take (keptLength X bytes))
      (zeroFilled (env.delivered (replayTick (scanTick tick bases.length) bytes.length
        (keptLength X bytes)) (.log base) (keptLength X bytes))
        (bytes.take (keptLength X bytes)))

/-- The read calls return what the loops need, and the offsets are `u64`s. The scan and the
replay find in their zeroed buffers records of the sizes that the file has, and every search is
given the bytes up to the end of the record it is for. -/
structure Unharmed (X : Crates) (config : LogConfig) (env : Env FileName) (w : World FileName)
    (bases : List Nat) (base : Nat) (bytes : Bytes) : Prop where
  offsets : base + (newestSizes X bytes).length < 2 ^ 64
  recovery : SameSalvage X env w.tick base bases bytes
  reads : ∀ offset < base + (newestSizes X bytes).length, ∀ s,
    segmentFor (storedSegments X w.store config.indexInterval bases base bytes) offset = some s →
      ∀ tick, s.need X offset ≤ env.delivered tick (.log s.base) (s.slice offset).length

/-! ## Runs as functions of the delivered bytes -/

/-- A read answers what the search over the delivered bytes answers. -/
theorem readRecordAt_result (hSmooth : env.Smooth) {log : Log}
    (hHandles : ∀ p ∈ log.segments, ∃ g, SegmentOk w.store p.segment g) (offset : Nat) :
    (readRecordAt X offset env log w).1 =
      readOf X log w.store (deliveredTo env w offset) offset := by
  rw [readOf]
  by_cases hPast : log.nextOffset ≤ offset
  · have hRun : readRecordAt X offset env log w = (.ok none, log, w) := by
      change (if log.nextOffset ≤ offset then pure none
        else onSegmentAt (log.findSegmentIndex offset) (readFrom X offset) : LogIO Log _) env log w = _
      rw [if_pos hPast]
      rfl
    rw [hRun, if_pos hPast]
  have hRun : readRecordAt X offset env log w =
      onSegmentAt (log.findSegmentIndex offset) (readFrom X offset) env log w := by
    change (if log.nextOffset ≤ offset then pure none
      else onSegmentAt (log.findSegmentIndex offset) (readFrom X offset) : LogIO Log _) env log w = _
    rw [if_neg hPast]
  rw [hRun, if_neg hPast, onSegmentAt]
  cases hFound : log.segments[log.findSegmentIndex offset]? with
  | none => rfl
  | some p =>
    obtain ⟨g, hg⟩ := hHandles p (List.mem_of_getElem? hFound)
    have hRead : wp env (readFrom X offset) _ p w := readFrom_run hg offset
    have hBytes : ((w.store.get p.segment.path).map File.data).getD [] = g.data := by
      rw [hg.file]
      rfl
    unfold wp at hRead
    dsimp only
    rw [hBytes, deliveredTo]
    rcases hResult : readFrom X offset env p w with ⟨r, p', w'⟩
    rw [hResult] at hRead
    cases r with
    | ok r => exact hRead.2.symm
    | err e => exact (hRead hSmooth).symm
    | panic m => exact (hRead hSmooth).symm
    | crash => exact (hRead hSmooth).symm

/-- A sealed segment's base and size. -/
def sealedSize (d : Store FileName) (interval b : Nat) : Nat × Nat :=
  ((sealedContent d interval b).1, (sealedContent d interval b).2.1)

/-- What opening a directory shows is what recovery makes of the delivered bytes. -/
theorem openedView_eq (hSmooth : env.Smooth) {bases : List Nat} {base : Nat} {f : File}
    (h : Stored w.store bases base f) (config : LogConfig) :
    openedView (open_ X config env st w) =
      (salvageOf X config.indexInterval env w.tick base bases f.data).map fun s =>
        (base + s.2.length,
          bases.map (sealedSize w.store config.indexInterval) ++ [(base, s.1)]) := by
  have hOpen : wp env (open_ X config) _ st w := open_run h config
  unfold wp at hOpen
  rcases hResult : open_ X config env st w with ⟨r, st', w'⟩
  rw [hResult] at hOpen
  cases r with
  | ok log =>
    obtain ⟨-, kept, ns, hSalvage, hOpened⟩ := hOpen
    have hScan := (salvage_eq_some.mp hSalvage).1
    have hKept : (f.data.take kept).length = kept := by
      have hLe := lastValid_le (by rw [zeroFilled_length]; exact hScan)
      rw [zeroFilled_length] at hLe
      rw [List.length_take]
      exact Nat.min_eq_left hLe
    have hSegments : log.segments.map (fun p => (p.segment.baseOffset, p.segment.size)) =
        (log.segments.map IndexedSegment.content).map fun c => (c.1, c.2.1) := by
      rw [List.map_map]
      rfl
    rw [hSalvage, Option.map_some, openedView]
    simp only [view]
    rw [hSegments, hOpened.segments, hOpened.nextOffset, hKept, List.map_append, List.map_map]
    rfl
  | err e =>
    rw [show salvageOf X config.indexInterval env w.tick base bases f.data = none from hOpen hSmooth]
    rfl
  | panic m =>
    rw [show salvageOf X config.indexInterval env w.tick base bases f.data = none from hOpen hSmooth]
    rfl
  | crash =>
    rw [show salvageOf X config.indexInterval env w.tick base bases f.data = none from hOpen hSmooth]
    rfl

/-- The handles of an opened log stand where it believes. -/
theorem handles_of_open {bases : List Nat} {base : Nat} {f : File}
    (h : Stored w.store bases base f) {config : LogConfig} {log : Log} {st' : σ}
    {w' : World FileName} (hOpen : open_ X config env st w = (.ok log, st', w')) :
    ∀ p ∈ log.segments, ∃ g, SegmentOk w'.store p.segment g := by
  obtain ⟨-, kept, ns, -, hOpened⟩ := ok_of_wp (open_run h config) hOpen
  exact hOpened.handles

theorem deliveredTo_quiet (w : World FileName) (offset : Nat) :
    deliveredTo Env.quiet w offset = fun _ n => n := by
  funext p n
  exact Env.quiet_quiet.fullReads.delivered _ _ n

/-! ## The bytes a directory is opened from -/

theorem sizes_of_lastValid {bytes : Bytes} {kept : Nat}
    (h : lastValid X bytes.length bytes 0 = .ok kept) :
    keptLength X bytes = kept ∧ Stops X (bytes.drop kept) ∧
      ∀ ns, recordSizes X kept (bytes.take kept) = .ok ns → ns = newestSizes X bytes := by
  obtain ⟨fs, tail, hBytes, hFrames, hStops, hLast, -, hSizes, -⟩ := lastValid_ok (Nat.le_refl _) h
  rw [Nat.zero_add] at hLast
  have hTake : bytes.take kept = flat fs := by
    rw [hBytes, hLast]
    exact List.take_left' rfl
  have hDrop : bytes.drop kept = tail := by
    rw [hBytes, hLast]
    exact List.drop_left' rfl
  refine ⟨?_, hDrop.symm ▸ hStops, ?_⟩
  · rw [keptLength, newestSizes, hSizes, SparseIndex.sum_sizes, hLast]
  · intro ns hReplay
    rw [hTake] at hReplay
    have hFuel : fs.length ≤ kept := hLast ▸ length_le_span fs
    have hAlone := decodes_of_recordSizes hFrames hFuel hReplay
    rw [recordSizes_flat hAlone hFuel] at hReplay
    rw [newestSizes, hSizes, Res.ok.inj hReplay]

/-- Full reads show recovery the bytes of the file. -/
theorem salvageOf_quiet {interval tick base kept : Nat} {bases : List Nat} {bytes : Bytes}
    {ns : List Nat} :
    salvageOf X interval Env.quiet tick base bases bytes = some (kept, ns) ↔
      lastValid X bytes.length bytes 0 = .ok kept ∧
        recordSizes X kept (bytes.take kept) = .ok ns ∧
        (freshIndex base interval).fitsAll (freshIndex base interval).baseOffset 0 ns = true := by
  have hFull := (Env.quiet_quiet (ν := FileName)).fullReads
  rw [salvageOf, salvage_eq_some, hFull.delivered, zeroFilled_full]
  apply and_congr_right
  intro hScan
  have hLen : (bytes.take kept).length = kept := by
    rw [List.length_take]
    exact Nat.min_eq_left (lastValid_le hScan)
  rw [hFull.delivered, zeroFilled_of_le (Nat.le_of_eq hLen)]

/-- With the same records in the buffers, recovery is the same. -/
theorem SameSalvage.salvageOf_eq {tick base : Nat} {bases : List Nat} {bytes : Bytes}
    (h : SameSalvage X env tick base bases bytes) (interval : Nat) :
    salvageOf X interval env tick base bases bytes =
      salvageOf X interval Env.quiet tick base bases bytes := by
  apply Option.ext
  rintro ⟨kept, ns⟩
  rw [salvageOf_quiet, salvageOf, salvage_eq_some,
    ← h.scan.lastValid (zeroFilled_length _ _) (Nat.le_refl _) 0 kept]
  apply and_congr_right
  intro hScan
  obtain ⟨hKept, hStops, -⟩ := sizes_of_lastValid hScan
  have hReplay := h.replay (hKept.symm ▸ hStops)
  rw [hKept] at hReplay
  rw [← hReplay.recordSizes (zeroFilled_length _ _) (List.length_take_le _ _) ns]

/-- Recovery that keeps as many bytes as full reads do has read the same records. -/
theorem sameSalvage_of_kept {interval tick base kept : Nat} {bases : List Nat} {bytes : Bytes}
    {ns ns' : List Nat} (hSmall : bytes.length ≤ 2 ^ 32 - 2 ^ 24)
    (hGiven : salvageOf X interval env tick base bases bytes = some (kept, ns))
    (hWhole : salvageOf X interval Env.quiet tick base bases bytes = some (kept, ns')) :
    SameSalvage X env tick base bases bytes := by
  obtain ⟨hScan, hReplay, -⟩ := salvageOf_quiet.mp hWhole
  obtain ⟨hScan', hReplay', -⟩ := salvage_eq_some.mp hGiven
  obtain ⟨hKept, -, -⟩ := sizes_of_lastValid hScan
  have hLen := List.length_take_le kept bytes
  refine ⟨sameRecords_of_lastValid hSmall (Nat.le_refl _) hScan hScan', fun _ => ?_⟩
  rw [hKept]
  refine sameRecords_of_recordSizes ?_ hLen hReplay hReplay'
  exact Nat.le_trans (List.length_take_le' _ _) hSmall

/-- A position of the log is a position of the stored segments. -/
theorem Opened.at {d d' : Store FileName} {config : LogConfig} {bases : List Nat} {base : Nat}
    {bytes : Bytes} {log : Log} (hBase : base ∉ bases)
    (h : Opened d d' config bases base (bytes.take (keptLength X bytes)) (newestSizes X bytes) log)
    (i : Nat) :
    (log.segments[i]? = none ∧
      (storedSegments X d config.indexInterval bases base bytes)[i]? = none) ∨
    ∃ p s, log.segments[i]? = some p ∧
      (storedSegments X d config.indexInterval bases base bytes)[i]? = some s ∧
      p.segment.baseOffset = s.base ∧ p.segment.size = s.bytes.length ∧ p.index = s.index ∧
      ((d'.get p.segment.path).map File.data).getD [] = s.bytes := by
  have hContent : log.segments.map IndexedSegment.content =
      (storedSegments X d config.indexInterval bases base bytes).map
        fun s => (s.base, s.bytes.length, s.index) := by
    rw [h.segments, storedSegments, List.map_append, List.map_map, List.map_singleton]
    congr 1
    apply List.map_congr_left
    intro b _
    rw [sealedContent, Function.comp_apply, StoredSegment.sealed]
    cases d.get (.log b) <;> rfl
  have hBytes : ∀ s ∈ storedSegments X d config.indexInterval bases base bytes,
      ((d'.get (.log s.base)).map File.data).getD [] = s.bytes := by
    intro s hs
    rcases List.mem_append.mp hs with hs | hs
    · obtain ⟨b, hb, rfl⟩ := List.mem_map.mp hs
      have hNe : b ≠ base := fun hEq => hBase (hEq ▸ hb)
      rw [StoredSegment.sealed, h.others _ (by simp [hNe]) (by simp)]
    · obtain rfl := List.mem_singleton.mp hs
      obtain ⟨g, hg, hData⟩ := h.active
      rw [StoredSegment.newest, hg]
      exact hData
  have hAt := congrArg (fun l => l[i]?) hContent
  simp only [List.getElem?_map] at hAt
  cases hp : log.segments[i]? with
  | none =>
    rw [hp] at hAt
    exact Or.inl ⟨rfl, Option.map_eq_none_iff.mp hAt.symm⟩
  | some p =>
    rw [hp, Option.map_some] at hAt
    obtain ⟨s, hs, hEq⟩ := Option.map_eq_some_iff.mp hAt.symm
    obtain ⟨hFirst, hRest⟩ := Prod.mk.inj hEq
    obtain ⟨hSize, hIndex⟩ := Prod.mk.inj hRest
    refine Or.inr ⟨p, s, rfl, hs, hFirst.symm, hSize.symm, hIndex.symm, ?_⟩
    rw [Segment.path, ← hFirst]
    exact hBytes s (List.mem_of_getElem? hs)

/-- What a read of the opened log answers, in terms of the directory and of the call's count. -/
theorem Opened.readOf {d d' : Store FileName} {config : LogConfig} {bases : List Nat} {base : Nat}
    {bytes : Bytes} {log : Log} (hBase : base ∉ bases)
    (h : Opened d d' config bases base (bytes.take (keptLength X bytes)) (newestSizes X bytes) log)
    (n : IndexedSegment → Nat → Nat) {offset : Nat} (hNext : offset < log.nextOffset) :
    (segmentFor (storedSegments X d config.indexInterval bases base bytes) offset = none ∧
      Log.readOf X log d' n offset = .panic "index out of bounds") ∨
    ∃ p ∈ log.segments, ∃ s,
      segmentFor (storedSegments X d config.indexInterval bases base bytes) offset = some s ∧
      p.segment.baseOffset = s.base ∧
      Log.readOf X log d' n offset = s.search X (n p (s.slice offset).length) offset := by
  have hIndex : segmentFor (storedSegments X d config.indexInterval bases base bytes) offset =
      (storedSegments X d config.indexInterval bases base bytes)[log.findSegmentIndex offset]? := by
    have hKeys : log.segments.map (fun p => p.segment.baseOffset) =
        (storedSegments X d config.indexInterval bases base bytes).map StoredSegment.base := by
      apply List.ext_getElem?
      intro i
      rw [List.getElem?_map, List.getElem?_map]
      rcases h.at hBase i with ⟨hNone, hNone'⟩ | ⟨p, s, hp, hs, hEq, -⟩
      · rw [hNone, hNone']
        rfl
      · rw [hp, hs, Option.map_some, Option.map_some, hEq]
    rw [segmentFor, findSegmentIndex, ← binarySearchByKey_map, ← hKeys, binarySearchByKey_map]
    split <;> simp_all
  rw [hIndex, Log.readOf, if_neg (by omega)]
  rcases h.at hBase (log.findSegmentIndex offset) with
    ⟨hNone, hNone'⟩ | ⟨p, s, hp, hs, hEq, hSize, hSameIndex, hData⟩
  · left
    rw [hNone, hNone']
    exact ⟨rfl, rfl⟩
  · right
    refine ⟨p, List.mem_of_getElem? hp, s, hs, hEq, ?_⟩
    rw [hp]
    dsimp only
    rw [hData, searchOf, hSameIndex, hSize, StoredSegment.search, StoredSegment.slice,
      List.length_drop]
    dsimp only
    split
    · next hEmpty =>
      rw [List.drop_of_length_le (by omega), List.take_nil,
        findRecord_torn (Record.decode_nil X)]
    · rfl

/-! ## When a split does not show -/

/-- The log that opening such a directory returns, in terms of its bytes alone. -/
theorem opened_of_open {bases : List Nat} {base : Nat} {f : File} {config : LogConfig}
    {log : Log} {st' : σ} {w' : World FileName} (h : Stored w.store bases base f)
    (hSame : salvageOf X config.indexInterval env w.tick base bases f.data =
      salvageOf X config.indexInterval Env.quiet w.tick base bases f.data)
    (hOpen : open_ X config env st w = (.ok log, st', w')) :
    Opened w.store w'.store config bases base (f.data.take (keptLength X f.data))
      (newestSizes X f.data) log := by
  obtain ⟨-, kept, ns, hSalvage, hOpened⟩ := ok_of_wp (open_run h config) hOpen
  obtain ⟨hScan, hReplay, -⟩ := salvageOf_quiet.mp (hSame ▸ hSalvage)
  obtain ⟨hKept, -, hSizes⟩ := sizes_of_lastValid hScan
  rw [hKept, ← hSizes ns hReplay]
  exact hOpened

/-- Where the read calls return what the loops need, no split shows. -/
theorem splitBlind_of_unharmed (hSmooth : env.Smooth) {bases : List Nat} {base : Nat} {f : File}
    {config : LogConfig} (h : Stored w.store bases base f)
    (hUnharmed : Unharmed X config env w bases base f.data) :
    SplitBlind X config env st w := by
  have hQuiet := (Env.quiet_quiet (ν := FileName)).smooth
  have hSame := hUnharmed.recovery.salvageOf_eq config.indexInterval
  refine ⟨by rw [openedView_eq hSmooth h, openedView_eq hQuiet h, hSame], ?_⟩
  intro log st₁ w₁ log₀ st₀ w₀ hOpen hOpen₀ offset
  have hOpened := opened_of_open h hSame hOpen
  have hOpened₀ := opened_of_open h rfl hOpen₀
  rw [readRecordAt_result hSmooth (handles_of_open h hOpen),
    readRecordAt_result hQuiet (handles_of_open h hOpen₀), deliveredTo_quiet]
  by_cases hPast : base + (newestSizes X f.data).length ≤ offset
  · rw [readOf, readOf, if_pos (by rw [hOpened.nextOffset]; exact hPast),
      if_pos (by rw [hOpened₀.nextOffset]; exact hPast)]
  have hNext : offset < log.nextOffset := by
    rw [hOpened.nextOffset]
    omega
  have hNext₀ : offset < log₀.nextOffset := by
    rw [hOpened₀.nextOffset]
    omega
  rcases hOpened.readOf h.base_fresh (deliveredTo env w₁ offset) hNext with
    ⟨hNone, hRead⟩ | ⟨p, -, s, hs, hBase, hRead⟩
  · rcases hOpened₀.readOf h.base_fresh (fun _ n => n) hNext₀ with
      ⟨-, hRead₀⟩ | ⟨p₀, -, s₀, hs₀, -, -⟩
    · rw [hRead, hRead₀]
    · rw [hNone] at hs₀
      cases hs₀
  · rcases hOpened₀.readOf h.base_fresh (fun _ n => n) hNext₀ with
      ⟨hNone₀, -⟩ | ⟨p₀, -, s₀, hs₀, -, hRead₀⟩
    · rw [hNone₀] at hs
      cases hs
    · obtain rfl : s = s₀ := Option.some.inj (hs.symm.trans hs₀)
      have hNeed := hUnharmed.reads offset (by omega) s hs (searchTick p w₁.tick offset)
      rw [hRead, hRead₀, StoredSegment.search, StoredSegment.search, deliveredTo, Segment.path,
        hBase]
      rw [List.take_length]
      exact findRecord_take (Nat.le_refl _) (Nat.le_refl _) hNeed

/-- What the calls must have returned where no split shows: the buffers of scan and replay hold
the records of the file, and each search that is to find a record is given the bytes up to its
end. -/
structure Given (X : Crates) (config : LogConfig) (env : Env FileName) (st : σ)
    (w : World FileName) (bases : List Nat) (base : Nat) (bytes : Bytes) : Prop where
  recovery : SameSalvage X env w.tick base bases bytes
  reads : ∀ log st₁ w₁, open_ X config env st w = (.ok log, st₁, w₁) →
    ∀ offset < log.nextOffset, ∀ s,
      segmentFor (storedSegments X w.store config.indexInterval bases base bytes) offset = some s →
      ∀ r, s.search X (s.slice offset).length offset = .ok (some r) →
        ∃ p ∈ log.segments, p.segment.baseOffset = s.base ∧
          s.need X offset ≤ deliveredTo env w₁ offset p (s.slice offset).length

theorem given_of_splitBlind (hSmooth : env.Smooth) {bases : List Nat} {base : Nat} {f : File}
    {config : LogConfig} (h : Stored w.store bases base f)
    (hSmall : f.data.length ≤ 2 ^ 32 - 2 ^ 24)
    (hOpens : openedView (open_ X config Env.quiet st w) ≠ none)
    (hBlind : SplitBlind X config env st w) : Given X config env st w bases base f.data := by
  have hQuiet := (Env.quiet_quiet (ν := FileName)).smooth
  have hViews := hBlind.opens
  rw [openedView_eq hSmooth h, openedView_eq hQuiet h] at hViews
  rw [openedView_eq hQuiet h] at hOpens
  -- both runs keep the same bytes of the newest file
  have hRecovery : SameSalvage X env w.tick base bases f.data := by
    cases hWhole : salvageOf X config.indexInterval Env.quiet w.tick base bases f.data with
    | none =>
      rw [hWhole] at hOpens
      exact absurd rfl hOpens
    | some s =>
      obtain ⟨kept, ns⟩ := s
      rw [hWhole, Option.map_some] at hViews
      obtain ⟨⟨kept', ns'⟩, hGiven, hEq⟩ := Option.map_eq_some_iff.mp hViews
      have hLast := List.append_cancel_left (Prod.mk.inj hEq).2
      obtain rfl : kept' = kept := (Prod.mk.inj (List.cons.inj hLast).1).2
      exact sameSalvage_of_kept hSmall hGiven hWhole
  refine ⟨hRecovery, ?_⟩
  have hSame := hRecovery.salvageOf_eq config.indexInterval
  intro log st₁ w₁ hOpen offset hNext s hs r hFound
  have hOpened := opened_of_open h hSame hOpen
  obtain ⟨log₀, st₀, w₀, hOpen₀⟩ := opens hQuiet h config st (by
    intro hNone
    rw [hNone] at hOpens
    exact hOpens rfl)
  have hOpened₀ := opened_of_open h rfl hOpen₀
  have hRead := hBlind.reads log st₁ w₁ log₀ st₀ w₀ hOpen hOpen₀ offset
  rw [readRecordAt_result hSmooth (handles_of_open h hOpen),
    readRecordAt_result hQuiet (handles_of_open h hOpen₀), deliveredTo_quiet] at hRead
  have hNext₀ : offset < log₀.nextOffset := by
    rw [hOpened₀.nextOffset, ← hOpened.nextOffset]
    exact hNext
  rcases hOpened.readOf h.base_fresh (deliveredTo env w₁ offset) hNext with
    ⟨hNone, -⟩ | ⟨p, hp, s₁, hs₁, hBase, hShort⟩
  · rw [hNone] at hs
    cases hs
  rcases hOpened₀.readOf h.base_fresh (fun _ n => n) hNext₀ with
    ⟨hNone, -⟩ | ⟨p₀, -, s₀, hs₀, -, hFull⟩
  · rw [hNone] at hs
    cases hs
  obtain rfl : s = s₁ := Option.some.inj (hs.symm.trans hs₁)
  obtain rfl : s = s₀ := Option.some.inj (hs.symm.trans hs₀)
  rw [hShort, hFull, hFound, StoredSegment.search] at hRead
  exact ⟨p, hp, hBase, searchNeed_le (Nat.le_refl _) hRead⟩

/-- Two records of 26 bytes each. -/
def twoRecords : Bytes :=
  Record.frameBytes Crates.uncompressed ⟨1, none, [7]⟩ .none [7] ++
    Record.frameBytes Crates.uncompressed ⟨2, none, [8]⟩ .none [8]

/-- No read call returns more than 52 bytes. -/
def readsOfFiftyTwo : Env FileName where
  outcome _ call := match call with
    | .read _ _ => .short 52
    | _ => .ok
  clock _ := 0
  mtime _ _ := 0

theorem smooth_readsOfFiftyTwo : readsOfFiftyTwo.Smooth := by
  intro tick call
  cases call with
  | read name len => exact Or.inr ⟨52, rfl⟩
  | _ => exact Or.inl rfl

/-- The scan misses three torn bytes behind two records, and nothing else is short. -/
theorem unharmed_tornRecords :
    Unharmed Crates.uncompressed LogConfig.default readsOfFiftyTwo
      ⟨soleSegment 0 (twoRecords ++ [0, 0, 1]), 0⟩ [] 0 (twoRecords ++ [0, 0, 1]) := by
  have hKept : keptLength Crates.uncompressed (twoRecords ++ [0, 0, 1]) = 52 := by decide +kernel
  have hTake : (twoRecords ++ [0, 0, 1]).take 52 = twoRecords := by decide +kernel
  have hLen : twoRecords.length = 52 := by decide +kernel
  refine ⟨by decide +kernel, ⟨?_, fun _ => ?_⟩, ?_⟩
  · have hLast : lastValid Crates.uncompressed (twoRecords ++ [0, 0, 1]).length
        (twoRecords ++ [0, 0, 1]) 0 = .ok 52 := by
      decide +kernel
    apply sameRecords_of_covered hLast
    · decide +kernel
    · decide +kernel
    · exact Or.inr (Or.inl ⟨1, by decide +kernel⟩)
  · rw [hKept, hTake, zeroFilled_of_le]
    · exact SameRecords.refl _ _
    · rw [hLen]
      decide
  · intro offset _ s hs tick
    have hFound : s = StoredSegment.newest Crates.uncompressed LogConfig.default.indexInterval 0
        (twoRecords ++ [0, 0, 1]) := by
      have hMem : s ∈ storedSegments Crates.uncompressed (soleSegment 0 (twoRecords ++ [0, 0, 1]))
          LogConfig.default.indexInterval [] 0 (twoRecords ++ [0, 0, 1]) := by
        unfold segmentFor at hs
        split at hs
        all_goals exact List.mem_of_getElem? hs
      exact List.mem_singleton.mp hMem
    have hBytes : s.bytes = twoRecords := by
      rw [hFound, StoredSegment.newest, hKept, hTake]
    have hSlice : (s.slice offset).length ≤ 52 := by
      rw [StoredSegment.slice, List.length_drop, hBytes, hLen]
      exact Nat.sub_le _ _
    refine Nat.le_trans (searchNeed_le_length _ _ _ _ _) ?_
    change (s.slice offset).length ≤ min (s.slice offset).length (max 52 1)
    omega

/-- Results do not depend on how the reads are split if the calls return what the loops need. In
a directory that opens and whose newest file has less than four gigabytes, this is what the two
calls of recovery, and the calls of all searches that find a record, have to return. -/
theorem split_reads (hSmooth : env.Smooth) {bases : List Nat} {base : Nat} {f : File}
    (config : LogConfig) (h : Stored w.store bases base f) :
    (Unharmed X config env w bases base f.data → SplitBlind X config env st w) ∧
      (f.data.length ≤ 2 ^ 32 - 2 ^ 24 → openedView (open_ X config Env.quiet st w) ≠ none →
        SplitBlind X config env st w → Given X config env st w bases base f.data) :=
  ⟨splitBlind_of_unharmed hSmooth h, given_of_splitBlind hSmooth h⟩

theorem split_reads_tornRecords :
    SplitBlind Crates.uncompressed LogConfig.default readsOfFiftyTwo ()
        ⟨soleSegment 0 (twoRecords ++ [0, 0, 1]), 0⟩ ∧
      Given Crates.uncompressed LogConfig.default readsOfFiftyTwo ()
        ⟨soleSegment 0 (twoRecords ++ [0, 0, 1]), 0⟩ [] 0 (twoRecords ++ [0, 0, 1]) := by
  have hStored := stored_soleSegment 0 (twoRecords ++ [0, 0, 1])
  have hBlind : SplitBlind Crates.uncompressed LogConfig.default readsOfFiftyTwo ()
      ⟨soleSegment 0 (twoRecords ++ [0, 0, 1]), 0⟩ :=
    (split_reads smooth_readsOfFiftyTwo LogConfig.default hStored).1 unharmed_tornRecords
  refine ⟨hBlind, (split_reads smooth_readsOfFiftyTwo LogConfig.default hStored).2
    (by decide +kernel) ?_ hBlind⟩
  rw [openedView_eq (w := ⟨soleSegment 0 (twoRecords ++ [0, 0, 1]), 0⟩)
    (Env.quiet_quiet (ν := FileName)).smooth hStored]
  decide +kernel

/-! ## A scan that is cut short -/

/-- The read call of the scan returns 30 bytes. -/
def scanOfThirty : Env FileName where
  outcome tick _ := if tick = scanTick 0 0 then .short 30 else .ok
  clock _ := 0
  mtime _ _ := 0

theorem smooth_scanOfThirty : scanOfThirty.Smooth := by
  intro tick call
  unfold scanOfThirty
  dsimp only
  split
  · exact Or.inr ⟨30, rfl⟩
  · exact Or.inl rfl

/-- The second record is complete and valid, and opening the log destroys it. -/
theorem scanOfThirty_not_splitBlind :
    ¬ SplitBlind Crates.uncompressed LogConfig.default scanOfThirty ()
      ⟨soleSegment 0 twoRecords, 0⟩ := by
  intro hBlind
  have hStored := stored_soleSegment 0 twoRecords
  have hOpens := hBlind.opens
  rw [openedView_eq (w := ⟨soleSegment 0 twoRecords, 0⟩)
      (f := ⟨twoRecords, twoRecords.length, [], 0⟩) smooth_scanOfThirty hStored,
    openedView_eq (w := ⟨soleSegment 0 twoRecords, 0⟩)
      (f := ⟨twoRecords, twoRecords.length, [], 0⟩) Env.quiet_quiet.smooth hStored] at hOpens
  revert hOpens
  decide +kernel

end Log

end Kafko
