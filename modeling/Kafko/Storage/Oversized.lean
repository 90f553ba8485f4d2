import Kafko.Storage.Contents

/-!
# Values above the decompression cap

`compress` accepts every value, `decompress` refuses the output for a value above 16 MiB, and
the recovery scan passes that refusal on instead of treating it as a torn tail. A record with
such a value is acknowledged, can not be read, and while it lies in the active segment the
directory can not be opened. Whether an acknowledged record comes back is decided by what its
segment was given.
-/

namespace Kafko

open Disk

/-! ## Positions of index entries -/

namespace SparseIndex

theorem entries_track (x : SparseIndex) (offset pos size : Nat) :
    x.entries <+: (x.track offset pos size).entries := by
  unfold track
  split
  · exact List.prefix_append _ _
  · exact List.prefix_rfl

theorem entries_tracked_append (base interval : Nat) (fs gs : List LogFrame) :
    (tracked base interval fs).entries <+: (tracked base interval (fs ++ gs)).entries := by
  induction gs generalizing fs with
  | nil => rw [List.append_nil]
  | cons g gs ih =>
    have hOne := entries_track (tracked base interval fs) (base + fs.length) (span fs)
      g.bytes.length
    rw [← tracked_snoc] at hOne
    have hRest := ih (fs ++ [g])
    rw [List.append_assoc, List.singleton_append] at hRest
    exact hOne.trans hRest

/-- Which frames get an entry does not depend on the base offset. -/
theorem tracked_base (base base' interval : Nat) (fs : List LogFrame) :
    (tracked base interval fs).entries.isEmpty = (tracked base' interval fs).entries.isEmpty ∧
      (tracked base interval fs).bytesSinceLastEntry =
        (tracked base' interval fs).bytesSinceLastEntry ∧
      (tracked base interval fs).interval = (tracked base' interval fs).interval := by
  induction fs using List.reverseRecOn with
  | nil => exact ⟨rfl, rfl, rfl⟩
  | append_singleton fs f ih =>
    obtain ⟨hEmpty, hBytes, hInterval⟩ := ih
    have hNeed : (tracked base interval fs).needEntry = (tracked base' interval fs).needEntry := by
      rw [needEntry, needEntry, hEmpty, hBytes, hInterval]
    rw [tracked_snoc, tracked_snoc, track, track, hNeed]
    split
    · have hSome : ∀ (es : List IndexEntry) e, (es ++ [e]).isEmpty = false := by
        intro es e
        cases es <;> rfl
      exact ⟨(hSome _ _).trans (hSome _ _).symm, rfl, hInterval⟩
    · exact ⟨hEmpty, by rw [hBytes], hInterval⟩

theorem needEntry_tracked_base (base base' interval : Nat) (fs : List LogFrame) :
    (tracked base interval fs).needEntry = (tracked base' interval fs).needEntry := by
  obtain ⟨hEmpty, hBytes, hInterval⟩ := tracked_base base base' interval fs
  rw [needEntry, needEntry, hEmpty, hBytes, hInterval]

end SparseIndex

theorem trackable_base (base base' : Nat) {interval : Nat} {fs : List LogFrame} :
    Trackable base interval fs ↔ Trackable base' interval fs := by
  unfold Trackable
  constructor
  · intro h i hi hNeed
    rw [SparseIndex.needEntry_tracked_base base' base] at hNeed
    exact h i hi hNeed
  · intro h i hi hNeed
    rw [SparseIndex.needEntry_tracked_base base base'] at hNeed
    exact h i hi hNeed

/-- An index that exists has entries for all frames that need one. -/
theorem trackable_of_indexFor {base interval : Nat} {fs : List LogFrame}
    (h : IndexFor (SparseIndex.tracked base interval fs).entries fs) :
    Trackable base interval fs := by
  intro i hi hNeed
  have hSplit : fs = fs.take i ++ [fs.get ⟨i, hi⟩] ++ fs.drop (i + 1) := by
    rw [List.append_assoc, List.singleton_append, List.get_eq_getElem, List.cons_getElem_drop_succ,
      List.take_append_drop]
  have hMem : ⟨base + (fs.take i).length - base, span (fs.take i)⟩ ∈
      (SparseIndex.tracked base interval (fs.take i ++ [fs.get ⟨i, hi⟩])).entries := by
    rw [SparseIndex.tracked_snoc, SparseIndex.track, if_pos hNeed,
      SparseIndex.tracked_baseOffset]
    simp
  have hPrefix := SparseIndex.entries_tracked_append base interval
    (fs.take i ++ [fs.get ⟨i, hi⟩]) (fs.drop (i + 1))
  rw [← hSplit] at hPrefix
  exact (h.small _ (hPrefix.subset hMem)).2

theorem Live.trackable {log : Log} {d : Store FileName} {L : Layout} (h : Live log d L)
    (base : Nat) : Trackable base log.config.indexInterval L.active.frames := by
  obtain ⟨init, active, f, hParts⟩ := h.parts
  have hEntries := hParts.entries
  rw [hParts.tracked, List.take_length] at hEntries
  rw [trackable_base base L.active.base]
  exact trackable_of_indexFor hEntries

section

variable {X : Crates} {env : Env FileName} {log : Log} {w : World FileName} {L : Layout}
  {held : List (Compression × Record)}

/-- The last record of the active segment is its last frame. -/
theorem Live.last_frame {d : Store FileName} (hLive : Live log d L)
    {init : List (Compression × Record)} {c : Compression} {r : Record}
    (hFrames : L.active.frames = heldFrames X (init ++ [(c, r)])) (hc : c.isAvailable X = true) :
    ∃ f : LogFrame, f.record = r ∧ f.record.wire X c = .ok f.bytes ∧
      L.active.frames = heldFrames X init ++ [f] ∧
      log.nextOffset = L.active.base + (heldFrames X init).length + 1 := by
  obtain ⟨bytes, hWire⟩ := Record.wire_isAvailable hc r
  have hSplit : L.active.frames = heldFrames X init ++ [⟨r, bytes, Record.wire_ne_nil hWire⟩] := by
    have hAppend := heldFrames_append X init c [r]
    rw [framesOf_cons hWire] at hAppend
    exact hFrames.trans hAppend
  refine ⟨⟨r, bytes, Record.wire_ne_nil hWire⟩, rfl, hWire, hSplit, ?_⟩
  rw [hLive.nextOffset, Layout.next, Chunk.next, hSplit, List.length_append,
    List.length_singleton]
  omega

/-- Without failures an append is accepted if its codec is linked and the segment it goes to has
not outgrown 32 bits. -/
theorem Filled.accepts (h : Filled X log w.store held) (hEnv : env.Quiet) (r : Record)
    (hc : log.config.compression.isAvailable X = true)
    (hSmall : log.rotatesFor r.wireSize = true ∨ span (heldFrames X held) < 2 ^ 32) :
    ∃ log' w', Log.append X r env log w = (.ok log.nextOffset, log', w') ∧
      log'.config = log.config ∧
      log'.segments.length = log.segments.length + (log.rotatesFor r.wireSize).toNat := by
  obtain ⟨-, L, hLive, -, hFrames⟩ := h
  have hSpec := Log.append_spec (clean_of_quiet hEnv) hLive X r (hLive.rotatesFor _).symm
  rcases hRun : Log.append X r env log w with ⟨res, log', w'⟩
  rw [wp, hRun] at hSpec
  cases res with
  | ok offset =>
    obtain ⟨rfl, hConfig, -, hCount, -⟩ := hSpec
    exact ⟨log', w', by rw [hLive.nextOffset], hConfig, hCount⟩
  | err e =>
    obtain ⟨-, -, ⟨-, hMissing⟩ | hNoisy⟩ := hSpec
    · rw [hc] at hMissing
      cases hMissing
    · exact absurd hEnv.steady hNoisy
  | panic m =>
    refine absurd ?_ hSpec.1
    have hOne : (framesOf X log.config.compression [r]).length = 1 := length_framesOf hc [r]
    intro i hi
    obtain rfl : i = 0 := by omega
    rw [List.take_zero, span_nil, Nat.add_zero]
    cases hRotates : log.rotatesFor r.wireSize with
    | true => exact Nat.two_pow_pos 32
    | false =>
      rw [hRotates] at hSmall
      change span L.active.frames < 2 ^ 32
      rw [hFrames]
      exact hSmall.resolve_left (by simp)
  | crash => exact absurd hEnv.alive hSpec.1

/-- What an acknowledged append has done to the active segment. -/
theorem Filled.append (hX : X.Lawful) (h : Filled X log w.store held) (hEnv : CleanFailures env)
    {r : Record} (hLen : r.LengthsFit X log.config.compression) {offset : Nat} {log' : Log}
    {w' : World FileName} (hRun : Log.append X r env log w = (.ok offset, log', w')) :
    offset = log'.nextOffset - 1 ∧ Filled X log' w'.store
      ((if log.rotatesFor r.wireSize then [] else held) ++ [(log.config.compression, r)]) := by
  obtain ⟨L, hLive, -, -⟩ := h.2
  have hSpec := Log.append_spec hEnv.clean hLive X r rfl
  rw [wp, hRun] at hSpec
  obtain ⟨rfl, -, hc, hCount, hLive'⟩ := hSpec
  have hNext := hLive'.nextOffset
  rw [Layout.next_step, length_framesOf hc] at hNext
  refine ⟨?_, ?_⟩
  · rw [hNext]
    rfl
  · have hRotated : (log.segments.length < log'.segments.length) ↔
        log.rotatesFor r.wireSize = true := by
      rw [hLive.rotatesFor, hCount]
      cases L.overflows r.wireSize log.config.segmentSizeThreshold <;> simp
    have hGains := h.gains hX [r] (by simpa using hLen)
      (fun _ => hc) (fun L' hLive₁ => by
        have hFills := exec_fills (X := X) hEnv.clean hLive₁ (.append r)
        have hExec : LogOp.exec X (.append r) env log w = (.ok (.offset L.next), log', w') := by
          change Fx.bind (Log.append X r) _ env log w = _
          rw [Fx.bind, hRun]
          rfl
        rw [wp, hExec] at hFills
        exact hFills.2)
    simpa only [hRotated, List.map_cons, List.map_nil] using hGains

end

/-! ## A record that comes back and one that is lost -/

/-- A value one byte above the cap. -/
def oversizedRecord : Record := ⟨0, none, List.replicate (decompressMaxSize + 1) 0⟩

theorem length_literalBlock (raw : Bytes) : (literalBlock raw).length ≤ 2 * raw.length + 2 := by
  unfold literalBlock
  split
  · rw [List.length_cons]
    omega
  · rw [List.length_cons, List.length_append, List.length_replicate, List.length_cons]
    omega

theorem wire_literalLz4 (r : Record) : r.wire Crates.literalLz4 .lz4 =
    .ok (r.frameBytes Crates.literalLz4 .lz4 (leBytes 4 r.value.length ++ literalBlock r.value)) :=
  rfl

theorem oversizedRecord_lengthsFit : oversizedRecord.LengthsFit Crates.literalLz4 .lz4 := by
  have hValue : oversizedRecord.value.length = decompressMaxSize + 1 := List.length_replicate
  have hBlock := length_literalBlock oversizedRecord.value
  have hKey : oversizedRecord.keyLen = 4 := rfl
  refine ⟨?_, ?_⟩
  · rw [Record.encodedSize, wire_literalLz4]
    dsimp only
    rw [Record.length_frameBytes, List.length_append, length_leBytes, hKey]
    rw [hValue] at hBlock
    unfold decompressMaxSize at hBlock
    omega
  · intro _
    rw [hValue]
    decide

theorem oversizedRecord_not_fits : ¬ Compression.lz4.Fits oversizedRecord.value := by
  have hValue : oversizedRecord.value.length = decompressMaxSize + 1 := List.length_replicate
  rintro (hNone | hLe)
  · cases hNone
  · omega

end Kafko
