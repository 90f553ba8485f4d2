import Kafko.Storage.Rebuilt

/-!
# The two passes of recovery against each other

Recovery is meant to settle a directory: the replay finds the records the scan found, and opening
the log again changes nothing. This holds for a file exactly if every frame the scan decodes ends
in front of the position the file is cut to (`settles_iff`). The decoder accepts a frame whose
fields end before the announced end, and if such a frame is among the last ones the truncation
cuts off bytes its checksum covers.
-/

namespace Kafko

open Disk

namespace Log

variable {X : Crates} {σ : Type} {st : σ} {env : Env FileName} {w : World FileName}
  {bases : List Nat} {base last : Nat} {f : File} {config : LogConfig}

/-- Opening the log succeeds and counts the records of the scan, and opening the directory it
leaves returns the same log and changes no byte. The next offset has to be a `u64`: where
`active_base + active_record_count` overflows, `Log::open` panics or wraps around. -/
def Settles (X : Crates) (config : LogConfig) (env : Env FileName) (st : σ) (w : World FileName)
    (base : Nat) (bytes : Bytes) (last : Nat) : Prop :=
  ∃ log w', open_ X config env st w = (.ok log, st, w') ∧
    log.nextOffset = base + (scanned X bytes.length bytes 0).length ∧
    log.nextOffset < 2 ^ 64 ∧
    (∃ g, w'.store.get (.log base) = some g ∧ g.data = bytes.take last) ∧
    ∃ log' w'', open_ X config env st w' = (.ok log', st, w'') ∧
      (∀ name, (w''.store.get name).map File.data = (w'.store.get name).map File.data) ∧
      log'.nextOffset = log.nextOffset ∧
      log'.segments.map IndexedSegment.content = log.segments.map IndexedSegment.content

/-- What an opened log and its directory look like is a function of the bytes alone. -/
theorem Opened.same {d d' d'' : Store FileName} {kept : Bytes} {ns : List Nat} {log log' : Log}
    (h : Opened d d' config bases base kept ns log)
    (h' : Opened d' d'' config bases base kept ns log') (hBase : base ∉ bases) :
    (∀ name, (d''.get name).map File.data = (d'.get name).map File.data) ∧
      log'.nextOffset = log.nextOffset ∧
      log'.segments.map IndexedSegment.content = log.segments.map IndexedSegment.content := by
  have hSealed : ∀ name, name ≠ .log base → name ≠ .index base →
      (d'.get name).map File.data = (d.get name).map File.data := h.others
  refine ⟨?_, h'.nextOffset.trans h.nextOffset.symm, ?_⟩
  · intro name
    by_cases hLog : name = .log base
    · obtain ⟨g, hg, hData⟩ := h.active
      obtain ⟨g', hg', hData'⟩ := h'.active
      rw [hLog, hg, hg', Option.map_some, Option.map_some, hData, hData']
    by_cases hIndex : name = .index base
    · obtain ⟨x, hx, hData⟩ := h.index
      obtain ⟨x', hx', hData'⟩ := h'.index
      rw [hIndex, hx, hx', Option.map_some, Option.map_some, hData, hData']
    · exact h'.others name hLog hIndex
  · rw [h'.segments, h.segments]
    congr 1
    apply List.map_congr_left
    intro b hb
    have hne : b ≠ base := fun hEq => hBase (hEq ▸ hb)
    exact sealedContent_congr _ b (hSealed _ (by simp [hne]) (by simp))
      (hSealed _ (by simp) (by simp [hne]))

/-- Where the frames are contained, recovery settles the directory. -/
theorem settles_of_contained (hQuiet : env.Quiet) (h : Stored w.store bases base f)
    (hLen : f.data.length < 2 ^ 32) (hScan : lastValid X f.data.length f.data 0 = .ok last)
    (hContained : Contained X f.data last)
    (hNext : base + (scanned X f.data.length f.data 0).length < 2 ^ 64) :
    Settles X config env st w base f.data last := by
  obtain ⟨fs, tail, hBytes, -, -, hLast, hRecords, -, hEnds⟩ := lastValid_ok (Nat.le_refl _) hScan
  have hAlone := hEnds.mp hContained
  rw [Nat.zero_add] at hLast
  have hTake : f.data.take last = flat fs := by
    rw [hBytes, hLast]
    exact List.take_left' rfl
  have hKeptLen : (flat fs).length = last := hLast.symm
  have hLe := lastValid_le hScan
  have hReplay : recordSizes X last (flat fs) = .ok (sizes fs) :=
    recordSizes_flat hAlone (hLast ▸ length_le_span fs)
  have hCount : (sizes fs).length = (scanned X f.data.length f.data 0).length := by
    have hLengths := congrArg List.length hRecords
    rw [List.length_map, List.length_map] at hLengths
    rw [hLengths, sizes, List.length_map]
  -- the first open
  have hSalvage : salvageOf X config.indexInterval env w.tick base bases f.data =
      some (last, sizes fs) :=
    (salvageOf_full hQuiet.fullReads hLen).mpr ⟨hScan, by rw [hTake]; exact hReplay⟩
  have hOpens : salvageOf X config.indexInterval env w.tick base bases f.data ≠ none := by
    simp [hSalvage]
  obtain ⟨log, st', w', hOpen, rfl, kept, ns, hKept, hOpened⟩ :=
    run_of_orStuck (open_run h config) hQuiet.smooth hOpens
  obtain ⟨rfl, rfl⟩ := Prod.mk.inj (Option.some.inj (hSalvage.symm.trans hKept))
  rw [hTake] at hOpened
  obtain ⟨g, hStored, hData⟩ := hOpened.stored h
  -- the second open scans frames that decode on their own up to the end of the file
  have hScan₂ : lastValid X g.data.length g.data 0 = .ok last := by
    have hFlat := lastValid_flat hAlone (Or.inl rfl) (length_le_span fs) 0
    rw [List.append_nil, Nat.zero_add] at hFlat
    rw [hData, hLast]
    exact hFlat
  have hTake₂ : g.data.take last = flat fs := by
    rw [hData, ← hKeptLen, List.take_length]
  have hSalvage₂ : salvageOf X config.indexInterval env w'.tick base bases g.data =
      some (last, sizes fs) :=
    (salvageOf_full hQuiet.fullReads (by rw [hData]; omega)).mpr
      ⟨hScan₂, by rw [hTake₂]; exact hReplay⟩
  have hOpens₂ : salvageOf X config.indexInterval env w'.tick base bases g.data ≠ none := by
    simp [hSalvage₂]
  obtain ⟨log', st'', w'', hOpen₂, rfl, kept', ns', hKept₂, hOpened₂⟩ :=
    run_of_orStuck (open_run hStored config) hQuiet.smooth hOpens₂
  obtain ⟨rfl, rfl⟩ := Prod.mk.inj (Option.some.inj (hSalvage₂.symm.trans hKept₂))
  rw [hTake₂] at hOpened₂
  have hOffset : log.nextOffset = base + (scanned X f.data.length f.data 0).length := by
    rw [hOpened.nextOffset, hCount]
  refine ⟨log, w', hOpen, hOffset, by rw [hOffset]; exact hNext, ?_, log', w'', hOpen₂,
    hOpened.same hOpened₂ h.base_fresh⟩
  obtain ⟨g', hg', hData'⟩ := hOpened.active
  exact ⟨g', hg', by rw [hData', hTake]⟩

/-- If the log opens at all, the replay has decoded every frame inside the kept bytes. -/
theorem contained_of_open (hQuiet : env.Quiet) (h : Stored w.store bases base f)
    (hLen : f.data.length < 2 ^ 32) (hScan : lastValid X f.data.length f.data 0 = .ok last)
    {log : Log} {st' : σ} {w' : World FileName}
    (hOpen : open_ X config env st w = (.ok log, st', w')) : Contained X f.data last := by
  obtain ⟨-, kept, ns, hSalvage, -⟩ := ok_of_wp (open_run h config) hOpen
  obtain ⟨hScan', hReplay⟩ := (salvageOf_full hQuiet.fullReads hLen).mp hSalvage
  obtain rfl : last = kept := Res.ok.inj (hScan.symm.trans hScan')
  exact (replay_iff_contained hScan).mp ⟨ns, hReplay⟩

/-- A record and the first bytes of a second one. -/
def tornFile : Bytes := Record.frameBytes Crates.uncompressed ⟨0, none, [7]⟩ .none [7] ++ [0, 0, 0]

/-- Recovery settles a directory exactly if no frame that the scan decodes in its newest file
announces an end behind the last valid position, and the offsets of the records are `u64`s. -/
theorem settles_iff (hQuiet : env.Quiet) (h : Stored w.store bases base f)
    (hLen : f.data.length < 2 ^ 32) (hScan : lastValid X f.data.length f.data 0 = .ok last) :
    Settles X config env st w base f.data last ↔
      Contained X f.data last ∧
        base + (scanned X f.data.length f.data 0).length < 2 ^ 64 := by
  constructor
  · rintro ⟨log, w', hOpen, hOffset, hNext, -⟩
    rw [hOffset] at hNext
    exact ⟨contained_of_open hQuiet h hLen hScan hOpen, hNext⟩
  · rintro ⟨hContained, hNext⟩
    exact settles_of_contained hQuiet h hLen hScan hContained hNext

/-- The torn bytes go, the record stays, and a second open finds nothing to do. -/
theorem settles_tornFile :
    Settles Crates.uncompressed LogConfig.default Env.quiet () ⟨soleSegment 3 tornFile, 0⟩ 3
      tornFile 26 :=
  (settles_iff (f := ⟨tornFile, tornFile.length, [], 0⟩) Env.quiet_quiet
    (stored_soleSegment 3 tornFile) (by decide +kernel) (by decide +kernel)).mpr
    ⟨by decide +kernel, by decide +kernel⟩

/-! ## A file that no longer opens -/

/-- The frame of an empty record that announces one byte more than its fields take, with that
byte behind it. -/
def overhanging : Bytes :=
  let payload := [0] ++ beBytes 8 0 ++ beBytes 4 keyNullSentinel ++ beBytes 4 0
  beBytes 4 22 ++ beBytes 4 (Kafko.crc32 (payload ++ [42])).toNat ++ payload ++ [42]

/-- The scan accepts the record and keeps 25 bytes, and the replay then misses a byte. -/
theorem overhanging_not_settles :
    lastValid Crates.uncompressed overhanging.length overhanging 0 = .ok 25 ∧
      ¬ Settles Crates.uncompressed LogConfig.default Env.quiet ()
        ⟨soleSegment 0 overhanging, 0⟩ 0 overhanging 25 := by
  have hScan : lastValid Crates.uncompressed overhanging.length overhanging 0 = .ok 25 := by
    decide +kernel
  refine ⟨hScan, ?_⟩
  rintro ⟨log, w', hOpen, -⟩
  have hContained := contained_of_open (w := ⟨soleSegment 0 overhanging, 0⟩) Env.quiet_quiet
    (stored_soleSegment 0 overhanging) (by decide) hScan hOpen
  revert hContained
  decide +kernel

end Log

end Kafko
