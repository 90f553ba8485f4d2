import Kafko.Storage.Salvage
import Kafko.Disk.Reads

/-!
# Opening a directory whose active file holds arbitrary bytes

`salvage` is recovery as a function of the bytes: what the scan keeps of the bytes its read
delivered, and the sizes of the records the replay decodes from what was kept. `open_run` shows
that `Log.open_` computes exactly this, read splits included, and describes the log and the
directory it leaves.
-/

namespace Kafko

open Disk

/-! ## Steps of the segment and index operations, without faults -/

namespace Segment

variable {σ : Type} {st : σ} {env : Env FileName} {s : Segment} {w : World FileName} {f : File}

theorem open_run {base : Nat} (hf : w.store.get (.log base) = some f) :
    wp env (open_ base) (Post.orStuck env
      (fun s st' w' => st' = st ∧ s = ⟨base, f.data.length, some 0⟩ ∧
        w.store.Updates w'.store (.log base) (f.seek 0) ∧ w'.tick = w.tick + 2) False) st w := by
  have hUpd := Store.updates_put w.store (.log base) f
  refine wp_orStuck_bind (P := fun len st' w' => len = f.data.length ∧ st' = st ∧
    w' = ⟨w.store.put (.log base) f, w.tick + 1⟩) (wp_orStuck_onFile hf ⟨rfl, rfl, rfl⟩) id ?_
  rintro len st' w' ⟨rfl, rfl, rfl⟩
  refine wp_orStuck_bind (P := fun _ st₂ w₂ => st₂ = st' ∧
    w.store.Updates w₂.store (.log base) (f.seek 0) ∧ w₂.tick = w.tick + 2)
    (wp_orStuck_onFile hUpd.self ⟨rfl, hUpd.trans (Store.updates_put _ _ _), rfl⟩) id ?_
  rintro - st₂ w₂ ⟨rfl, hOpened, hTick⟩
  exact ⟨rfl, rfl, hOpened, hTick⟩

/-- The seek in front of a read or a write, if the handle stands elsewhere. -/
def seekTicks (s : Segment) (pos : Nat) : Nat := if s.cursor = some pos then 0 else 1

theorem ensureCursor_run (hs : SegmentOk w.store s f) (pos : Nat) :
    wp env (ensureCursor pos) (Post.orStuck env
      (fun _ s' w' => s' = { s with cursor := some pos } ∧
        w.store.Updates w'.store s.path (f.seek pos) ∧ w'.tick = w.tick + s.seekTicks pos)
      False) s w := by
  rw [ensureCursor, wp_get_bind, seekTicks]
  by_cases hCursor : s.cursor = some pos
  · rw [if_pos hCursor, if_pos hCursor, wp_pure]
    have hPos : f.seek pos = f := by
      rw [File.seek, ← hs.cursor pos hCursor]
    rw [hPos]
    refine ⟨?_, Store.Updates.refl hs.file, rfl⟩
    rw [← hCursor]
  · rw [if_neg hCursor, if_neg hCursor]
    refine wp_orStuck_bind (P := fun _ s' w' => s' = s ∧
      w.store.Updates w'.store s.path (f.seek pos) ∧ w'.tick = w.tick + 1)
      (wp_orStuck_onFile hs.file ⟨rfl, Store.updates_put _ _ _, rfl⟩) id ?_
    rintro - s' w' ⟨rfl, hUpd, hTick⟩
    exact ⟨rfl, hUpd, hTick⟩

/-- A read returns what the call delivers of the bytes behind the position. -/
theorem readAt_run (hs : SegmentOk w.store s f) (pos len : Nat) :
    wp env (readAt pos len) (Post.orStuck env
      (fun bytes s' w' =>
        bytes = (f.data.drop pos).take (env.delivered (w.tick + s.seekTicks pos) s.path len) ∧
        s' = { s with cursor := some (pos + bytes.length) } ∧
        w.store.Updates w'.store s.path (f.seek (pos + bytes.length)) ∧
        w'.tick = w.tick + s.seekTicks pos + 1) False) s w := by
  rw [readAt, wp_get_bind]
  apply wp_orStuck_bind (ensureCursor_run hs pos) id
  rintro - s₁ w₁ ⟨rfl, hUpd, hTick⟩
  refine wp_orStuck_bind (P := fun bytes s₂ w₂ =>
    bytes = (f.data.drop pos).take (env.delivered (w.tick + s.seekTicks pos) s.path len) ∧
      s₂ = { s with cursor := some pos } ∧
      w.store.Updates w₂.store s.path (f.seek (pos + bytes.length)) ∧
      w₂.tick = w.tick + s.seekTicks pos + 1) ?_ id ?_
  · apply wp_orStuck_read hUpd.self
    rintro bytes rfl
    rw [← hTick]
    exact ⟨rfl, rfl, hUpd.trans (Store.updates_put _ _ _), rfl⟩
  · rintro bytes s₂ w₂ ⟨hBytes, rfl, hUpd₂, hTick₂⟩
    rw [wp_modify_bind, wp_pure]
    exact ⟨hBytes, rfl, hUpd₂, hTick₂⟩

theorem moved {d d' : Store FileName} (hs : SegmentOk d s f) {pos : Nat}
    (hUpd : d.Updates d' s.path (f.seek pos)) :
    SegmentOk d' { s with cursor := some pos } (f.seek pos) := by
  refine ⟨hUpd.self, hs.size, ?_⟩
  intro p hp
  exact Option.some.inj hp

end Segment

namespace SparseIndex

variable {σ : Type} {st : σ} {env : Env FileName} {x : SparseIndex} {w : World FileName} {f : File}

theorem open_run {base : Nat} (interval : Nat) (hf : w.store.get (.index base) = some f) :
    wp env (open_ base interval) (Post.orStuck env
      (fun x st' w' => st' = st ∧ x = ⟨base, decodeEntries f.data, 0, interval⟩ ∧
        w.store.Updates w'.store (.index base) (f.seek 0) ∧ w'.tick = w.tick + 2) False) st w := by
  have hUpd := Store.updates_put w.store (.index base) f
  refine wp_orStuck_bind (P := fun bytes st' w' => bytes = f.data ∧ st' = st ∧
    w' = ⟨w.store.put (.index base) f, w.tick + 1⟩) (wp_orStuck_onFile hf ⟨rfl, rfl, rfl⟩) id ?_
  rintro bytes st' w' ⟨rfl, rfl, rfl⟩
  refine wp_orStuck_bind (P := fun _ st₂ w₂ => st₂ = st' ∧
    w.store.Updates w₂.store (.index base) (f.seek 0) ∧ w₂.tick = w.tick + 2)
    (wp_orStuck_onFile hUpd.self ⟨rfl, hUpd.trans (Store.updates_put _ _ _), rfl⟩) id ?_
  rintro - st₂ w₂ ⟨rfl, hOpened, hTick⟩
  exact ⟨rfl, rfl, hOpened, hTick⟩

/-- Whether the entry for a record, if it gets one, fits into two `u32` fields. -/
def fitsEntry (x : SparseIndex) (offset filePosition : Nat) : Bool :=
  !x.needEntry || (decide (offset - x.baseOffset < 2 ^ 32) && decide (filePosition < 2 ^ 32))

theorem fitsEntry_iff {offset filePosition : Nat} : x.fitsEntry offset filePosition = true ↔
    (x.needEntry = true → offset - x.baseOffset < 2 ^ 32 ∧ filePosition < 2 ^ 32) := by
  unfold fitsEntry
  cases x.needEntry <;> simp

/-- Tracking a record panics if its entry does not fit. -/
theorem trackAppend_run (hx : IndexOk w.store x) (offset filePosition size : Nat) :
    wp env (trackAppend offset filePosition size) (Post.orStuck env
      (fun _ x' w' => x.fitsEntry offset filePosition = true ∧
        x' = x.track offset filePosition size ∧ IndexOk w'.store x' ∧
        ∃ g, w.store.Updates w'.store x.path g) (x.fitsEntry offset filePosition = false)) x w := by
  obtain ⟨f, hf, hData⟩ := hx.file
  rw [trackAppend, wp_get_bind]
  by_cases hNeed : x.needEntry
  · rw [if_pos hNeed, wp_bind, addEntry, wp_get_bind]
    dsimp only
    by_cases hRel : 2 ^ 32 ≤ offset - x.baseOffset
    · rw [if_pos hRel]
      intro _
      rw [← Bool.not_eq_true, fitsEntry_iff]
      intro hFits
      exact absurd (hFits hNeed).1 (Nat.not_lt.mpr hRel)
    by_cases hPos : 2 ^ 32 ≤ filePosition
    · rw [if_neg hRel, if_pos hPos]
      intro _
      rw [← Bool.not_eq_true, fitsEntry_iff]
      intro hFits
      exact absurd (hFits hNeed).2 (Nat.not_lt.mpr hPos)
    rw [if_neg hRel, if_neg hPos, wp_bind, writeEntry, wp_get_bind]
    refine wp_writing hf ?_ ?_ ?_
    · simp only [wp_modify]
      refine ⟨?_, ?_, ⟨_, Store.get_put_self _ _ _, ?_⟩, ⟨_, Store.updates_put _ _ _⟩⟩
      · exact fitsEntry_iff.mpr fun _ => ⟨Nat.not_le.mp hRel, Nat.not_le.mp hPos⟩
      · simp [track, hNeed]
      · simp [File.append, hData, encodeEntries]
    · intro kind k hFail hSmooth
      exact (hSmooth.not_fail hFail).elim
    · intro k hCrash hSmooth
      exact (hSmooth.not_crash hCrash).elim
  · rw [if_neg hNeed]
    refine ⟨?_, ?_, ⟨f, hf, hData⟩, ⟨f, Store.Updates.refl hf⟩⟩
    · simp [fitsEntry, hNeed]
    · simp [track, hNeed]

/-- Whether every entry made while tracking records of the given sizes fits. -/
def fitsAll : SparseIndex → Nat → Nat → List Nat → Bool
  | _, _, _, [] => true
  | x, offset, filePosition, size :: sizes =>
    x.fitsEntry offset filePosition &&
      fitsAll (x.track offset filePosition size) (offset + 1) (filePosition + size) sizes

theorem fitsAll_of_lt {x : SparseIndex} {base count filePosition : Nat} {ns : List Nat}
    (hBase : x.baseOffset = base) (hCount : count ≤ filePosition) (hPos : ∀ n ∈ ns, 0 < n)
    (hRoom : filePosition + ns.sum < 2 ^ 32) :
    x.fitsAll (base + count) filePosition ns = true := by
  induction ns generalizing x count filePosition with
  | nil => rfl
  | cons n ns ih =>
    have hn := hPos n List.mem_cons_self
    rw [List.sum_cons] at hRoom
    have hRest : (x.track (base + count) filePosition n).fitsAll (base + (count + 1))
        (filePosition + n) ns = true := by
      apply ih
      · rw [track_baseOffset, hBase]
      · omega
      · exact fun m hm => hPos m (List.mem_cons_of_mem _ hm)
      · omega
    have hHere : x.fitsEntry (base + count) filePosition = true :=
      fitsEntry_iff.mpr fun _ => by omega
    rw [fitsAll, hHere, Bool.true_and]
    exact hRest

end SparseIndex

/-! ## The two passes -/

namespace Log

open IndexedSegment

variable {X : Crates} {env : Env FileName} {w : World FileName}

theorem readWhole_run {s : Segment} {f : File} (hs : SegmentOk w.store s f) :
    wp env readWhole (Post.orStuck env
      (fun bytes s' w' =>
        bytes = zeroFilled (env.delivered (w.tick + s.seekTicks 0) s.path s.size) f.data ∧
        (∃ p, s' = { s with cursor := some p } ∧ (0 < s.size → 0 < p) ∧
          w.store.Updates w'.store s.path (f.seek p)) ∧
        w'.tick = w.tick + s.seekTicks 0 + 1) False) s w := by
  rw [readWhole, wp_get_bind]
  apply wp_orStuck_bind (Segment.readAt_run hs 0 s.size) id
  rintro bytes s' w' ⟨hBytes, rfl, hUpd, hTick⟩
  rw [List.drop_zero] at hBytes
  refine ⟨?_, ⟨_, rfl, ?_, hUpd⟩, hTick⟩
  · rw [zeroFilled, ← hBytes, hs.size]
  · intro hSize
    have hSome := env.delivered_pos (w.tick + s.seekTicks 0) s.path hSize
    have hLe := hs.size
    rw [hBytes, List.length_take]
    omega

/-- The replay of a buffer: it tracks every record it decodes and stops with an error at the
first one that does not decode. -/
theorem replayLoop_run {base fuel : Nat} {x : SparseIndex} {slice : Bytes} {filePos count : Nat}
    (hx : IndexOk w.store x) (hFuel : slice.length ≤ fuel) :
    wp env (replayLoop X base fuel slice filePos count) (Post.orStuck env
      (fun n x' w' => ∃ ns, recordSizes X fuel slice = .ok ns ∧
        x.fitsAll (base + count) filePos ns = true ∧ n = count + ns.length ∧
        x' = x.trackAll (base + count) filePos ns ∧ IndexOk w'.store x' ∧
        ∃ g, w.store.Updates w'.store x.path g)
      (∀ ns, recordSizes X fuel slice = .ok ns →
        x.fitsAll (base + count) filePos ns = false)) x w := by
  induction fuel generalizing x w slice filePos count with
  | zero =>
    obtain ⟨g, hg, -⟩ := hx.file
    exact ⟨[], rfl, rfl, rfl, rfl, hx, g, Store.Updates.refl hg⟩
  | succ fuel ih =>
    rw [replayLoop, recordSizes]
    by_cases hEmpty : slice.isEmpty
    · rw [if_pos hEmpty, if_pos hEmpty]
      obtain ⟨g, hg, -⟩ := hx.file
      exact ⟨[], rfl, rfl, rfl, rfl, hx, g, Store.Updates.refl hg⟩
    rw [if_neg hEmpty, if_neg hEmpty]
    cases hDecode : Record.decode X slice with
    | ok p =>
      obtain ⟨r, rest⟩ := p
      obtain ⟨f, -, rfl⟩ := exists_frame hDecode
      have hPos := f.length_pos
      have hSize : (f.bytes ++ rest).length - rest.length = f.bytes.length := by simp
      rw [List.length_append] at hFuel
      rw [wp_lift_bind, Res.ok_bind]
      dsimp only
      rw [hSize]
      -- a replay whose next entry does not fit does not get further
      have hSplit : ∀ ns, (do
          let sizes ← recordSizes X fuel rest
          pure (f.bytes.length :: sizes) : Res KafkoError (List Nat)) = .ok ns →
          ∃ ms, recordSizes X fuel rest = .ok ms ∧ ns = f.bytes.length :: ms := by
        intro ns hOk
        obtain ⟨ms, hRest, hEq⟩ := Res.bind_eq_ok.mp hOk
        exact ⟨ms, hRest, (Res.ok.inj hEq).symm⟩
      refine wp_orStuck_bind (SparseIndex.trackAppend_run hx (base + count) filePos f.bytes.length)
        ?_ ?_
      · intro hUnfit ns hOk
        obtain ⟨ms, -, rfl⟩ := hSplit ns hOk
        rw [SparseIndex.fitsAll, hUnfit, Bool.false_and]
      rintro - x' w' ⟨hFits, rfl, hx', g, hUpd⟩
      have hPath : (x.track (base + count) filePos f.bytes.length).path = x.path := by
        rw [SparseIndex.path, SparseIndex.path, SparseIndex.track_baseOffset]
      refine wp_orStuck_mono (ih hx' (by omega)) ?_ ?_
      · rintro n x'' w'' ⟨ns, hRest, hAll, hn, hx'', hOk, g', hUpd'⟩
        rw [hPath] at hUpd'
        refine ⟨f.bytes.length :: ns, ?_, ?_, ?_, hx'', hOk, g', hUpd.trans hUpd'⟩
        · rw [hRest]
          rfl
        · rw [SparseIndex.fitsAll, hFits, Bool.true_and]
          exact hAll
        · rw [hn, List.length_cons]
          omega
      · intro hStuck ns hOk
        obtain ⟨ms, hRest, rfl⟩ := hSplit ns hOk
        rw [SparseIndex.fitsAll, hFits, Bool.true_and]
        exact hStuck ms hRest
    | err e =>
      intro _ ns hOk
      cases hOk
    | panic m =>
      intro _ ns hOk
      cases hOk
    | crash =>
      intro _ ns hOk
      cases hOk

/-! ## Recovery of the active segment -/

/-- The number of the replay's read call, if the scan's was number `tick`: a seek, the removal
and the creation of the index and perhaps a truncation with its sync lie between them. -/
def replayTick (tick size kept : Nat) : Nat := tick + if kept < size then 6 else 4

/-- An index without entries. -/
def freshIndex (base interval : Nat) : SparseIndex := ⟨base, [], 0, interval⟩

/-- What recovery makes of the bytes of the active file when the scan's read delivers `n` of
them and the replay's read delivers `m kept` of the ones that are kept. -/
def salvage (X : Crates) (fresh : SparseIndex) (n : Nat) (m : Nat → Nat) (bytes : Bytes) :
    Option (Nat × List Nat) :=
  match lastValid X bytes.length (zeroFilled n bytes) 0 with
  | .ok kept =>
    match recordSizes X kept (zeroFilled (m kept) (bytes.take kept)) with
    | .ok ns => if fresh.fitsAll fresh.baseOffset 0 ns then some (kept, ns) else none
    | _ => none
  | _ => none

theorem salvage_eq_some {fresh : SparseIndex} {n : Nat} {m : Nat → Nat} {bytes : Bytes}
    {kept : Nat} {ns : List Nat} : salvage X fresh n m bytes = some (kept, ns) ↔
      lastValid X bytes.length (zeroFilled n bytes) 0 = .ok kept ∧
        recordSizes X kept (zeroFilled (m kept) (bytes.take kept)) = .ok ns ∧
        fresh.fitsAll fresh.baseOffset 0 ns = true := by
  unfold salvage
  constructor
  · intro h
    split at h
    · next kept' hScan =>
      split at h
      · next ns' hReplay =>
        split at h
        · next hFits =>
          cases h
          exact ⟨hScan, hReplay, hFits⟩
        · cases h
      · cases h
    · cases h
  · rintro ⟨hScan, hReplay, hFits⟩
    simp only [hScan, hReplay, hFits, if_true]

theorem salvage_eq_none {fresh : SparseIndex} {n : Nat} {m : Nat → Nat} {bytes : Bytes}
    (h : ∀ kept, lastValid X bytes.length (zeroFilled n bytes) 0 = .ok kept →
      ∀ ns, recordSizes X kept (zeroFilled (m kept) (bytes.take kept)) = .ok ns →
        fresh.fitsAll fresh.baseOffset 0 ns = false) :
    salvage X fresh n m bytes = none := by
  cases hSalvage : salvage X fresh n m bytes with
  | none => rfl
  | some p =>
    obtain ⟨kept, ns⟩ := p
    obtain ⟨hScan, hReplay, hFits⟩ := salvage_eq_some.mp hSalvage
    rw [h kept hScan ns hReplay] at hFits
    cases hFits

theorem lastValid_le {bytes : Bytes} {kept : Nat} (h : lastValid X bytes.length bytes 0 = .ok kept) :
    kept ≤ bytes.length := by
  obtain ⟨fs, tail, rfl, -, -, hKept, -⟩ := lastValid_ok (Nat.le_refl _) h
  rw [List.length_append, hKept, span]
  omega

theorem truncate_run {s : Segment} {f : File} {d : Store FileName} (hs : SegmentOk w.store s f)
    (hUpd : d.Updates w.store s.path f) {kept : Nat} (hKept : kept ≤ f.data.length) :
    wp env (Segment.truncate kept) (Post.orStuck env
      (fun _ s' w' => s' = { s with size := kept, cursor := none } ∧
        (∃ g, SegmentOk w'.store s' g ∧ g.data = f.data.take kept ∧
          d.Updates w'.store s.path g) ∧
        w'.tick = w.tick + 2) False) s w := by
  have hUpd₁ := Store.updates_put w.store s.path (f.setLen kept)
  have hUpd₂ := hUpd₁.trans (Store.updates_put _ s.path (f.setLen kept).sync)
  have hData : (f.setLen kept).data = f.data.take kept := by rw [File.setLen_of_le hKept]
  rw [Segment.truncate, wp_get_bind]
  refine wp_orStuck_bind (P := fun _ s' w' => s' = s ∧
    w' = ⟨w.store.put s.path (f.setLen kept), w.tick + 1⟩)
    (wp_orStuck_onFile hs.file ⟨rfl, rfl⟩) id ?_
  rintro - s' w' ⟨rfl, rfl⟩
  refine wp_orStuck_bind (P := fun _ s₂ w₂ => s₂ = s' ∧
    w.store.Updates w₂.store s'.path (f.setLen kept).sync ∧ w₂.tick = w.tick + 2)
    (wp_orStuck_onFile hUpd₁.self ⟨rfl, hUpd₂, rfl⟩) id ?_
  rintro - s₂ w₂ ⟨rfl, hSynced, hTick⟩
  refine ⟨rfl, ⟨_, ⟨hSynced.self, ?_, by simp⟩, hData, hUpd.trans hSynced⟩, hTick⟩
  change kept = (f.setLen kept).data.length
  rw [hData, List.length_take]
  omega

/-- The scan and the truncation behind it, for a segment that was just opened. -/
theorem truncateTail_run {s : Segment} {f : File} (hs : SegmentOk w.store s f)
    (hCursor : s.cursor = some 0) :
    wp env (truncateTail X) (Post.orStuck env
      (fun _ s' w' => ∃ kept, lastValid X f.data.length
          (zeroFilled (env.delivered w.tick s.path f.data.length) f.data) 0 = .ok kept ∧
        s'.baseOffset = s.baseOffset ∧ s'.size = kept ∧ (0 < kept → s'.cursor ≠ some 0) ∧
        (∃ g, SegmentOk w'.store s' g ∧ g.data = f.data.take kept ∧
          w.store.Updates w'.store s.path g) ∧
        (0 < kept → w'.tick = w.tick + 1 + if kept < f.data.length then 2 else 0))
      (∀ kept, lastValid X f.data.length
        (zeroFilled (env.delivered w.tick s.path f.data.length) f.data) 0 ≠ .ok kept)) s w := by
  have hSeek : s.seekTicks 0 = 0 := if_pos hCursor
  rw [truncateTail]
  by_cases hEmpty : s.size = 0
  · -- nothing is read of an empty file
    have hNil : f.data = [] := List.eq_nil_of_length_eq_zero (hs.size ▸ hEmpty)
    refine wp_orStuck_bind (P := fun kept s' w' => kept = 0 ∧ s' = s ∧ w' = w) ?_ id ?_
    · rw [scanForLastValidPosition, wp_get_bind, if_pos hEmpty]
      exact ⟨rfl, rfl, rfl⟩
    · rintro kept s' w' ⟨rfl, rfl, rfl⟩
      rw [wp_get_bind, if_neg (by omega), wp_pure]
      refine ⟨0, ?_, rfl, hEmpty, by simp, ⟨f, hs, by simp [hNil], Store.Updates.refl hs.file⟩,
        by simp⟩
      rw [hNil]
      rfl
  · refine wp_orStuck_bind (P := fun kept s' w' => lastValid X f.data.length
          (zeroFilled (env.delivered w.tick s.path f.data.length) f.data) 0 = .ok kept ∧
        (∃ p, s' = { s with cursor := some p } ∧ 0 < p ∧
          w.store.Updates w'.store s.path (f.seek p)) ∧ w'.tick = w.tick + 1) ?_ id ?_
    · rw [scanForLastValidPosition, wp_get_bind, if_neg hEmpty]
      apply wp_orStuck_bind (readWhole_run hs) False.elim
      rintro bytes s' w' ⟨rfl, ⟨p, rfl, hp, hUpd⟩, hTick⟩
      rw [hSeek, Nat.add_zero, hs.size, zeroFilled_length]
      rw [hSeek, Nat.add_zero] at hTick
      cases hScan : lastValid X f.data.length
          (zeroFilled (env.delivered w.tick s.path f.data.length) f.data) 0 with
      | ok kept => exact ⟨rfl, ⟨p, rfl, hp (by omega), hUpd⟩, hTick⟩
      | err e =>
        intro _ kept hOk
        cases hOk
      | panic m =>
        intro _ kept hOk
        cases hOk
      | crash =>
        intro _ kept hOk
        cases hOk
    · rintro kept s' w' ⟨hScan, ⟨p, rfl, hp, hUpd⟩, hTick⟩
      have hs' := Segment.moved hs hUpd
      have hKept : kept ≤ f.data.length := by
        have hLe := lastValid_le (by rw [zeroFilled_length]; exact hScan)
        rwa [zeroFilled_length] at hLe
      have hSize := hs.size
      rw [wp_get_bind]
      dsimp only
      by_cases hShort : kept < s.size
      · rw [if_pos hShort]
        refine wp_orStuck_mono (truncate_run hs' hUpd hKept) ?_ False.elim
        rintro - s₂ w₂ ⟨rfl, hFile, hTick₂⟩
        refine ⟨kept, hScan, rfl, rfl, by simp, hFile, ?_⟩
        intro _
        rw [if_pos (by omega)]
        omega
      · rw [if_neg hShort, wp_pure]
        have hAll : kept = f.data.length := by omega
        refine ⟨kept, hScan, rfl, by simp only; omega, ?_, ⟨_, hs', ?_, hUpd⟩, ?_⟩
        · intro _ hZero
          obtain rfl := Option.some.inj hZero
          omega
        · rw [hAll, List.take_length]
          rfl
        · intro _
          rw [if_neg (by omega)]
          omega

theorem removeIfExists_run {σ : Type} {st : σ} (name : FileName) :
    wp env (removeIfExists name) (Post.orStuck env
      (fun _ st' w' => st' = st ∧ w'.tick = w.tick + 1 ∧
        (env.Smooth → w'.store.get name = none) ∧
        ∀ other, other ≠ name → w'.store.get other = w.store.get other) False) st w := by
  refine wp_recover (wp_remove ?_ ?_ ?_ ?_)
  · intro f hf
    refine ⟨rfl, rfl, fun _ => Store.get_erase_self _ _, ?_⟩
    intro other hne
    exact Store.get_erase_of_ne _ hne
  · intro hNone
    exact ⟨rfl, rfl, fun _ => hNone, fun _ _ => rfl⟩
  · intro kind k hFail
    dsimp only
    split
    · exact ⟨rfl, rfl, fun hSmooth => (hSmooth.not_fail hFail).elim, fun _ _ => rfl⟩
    · intro hSmooth
      exact (hSmooth.not_fail hFail).elim
  · intro k hCrash hSmooth
    exact hSmooth.not_crash hCrash

/-- The recovered segment and the directory it is in: the file holds the bytes that were kept,
and the index was rebuilt from the sizes of the records in them. -/
structure Recovered (d d' : Store FileName) (base interval : Nat) (kept : Bytes) (ns : List Nat)
    (p : IndexedSegment) : Prop where
  segmentBase : p.segment.baseOffset = base
  segment : ∃ g, SegmentOk d' p.segment g ∧ g.data = kept
  index : p.index = (freshIndex base interval).trackAll base 0 ns
  indexFile : IndexOk d' p.index
  others : ∀ name, name ≠ .log base → name ≠ .index base → d'.get name = d.get name

/-- The replay of the kept bytes into a fresh index. -/
theorem replay_run {σ : Type} {st : σ} {d : Store FileName} {s : Segment} {g : File}
    {base interval : Nat} (hBase : s.baseOffset = base) (hs : SegmentOk w.store s g)
    (hCursor : 0 < s.size → s.cursor ≠ some 0)
    (hIndex : w.store.get (.index base) = some File.empty)
    (hOthers : ∀ name, name ≠ .log base → name ≠ .index base → w.store.get name = d.get name) :
    wp env (Fx.withLocal ⟨s, freshIndex base interval⟩ (replayRecordsToIndex X base))
      (Post.orStuck env
        (fun r st' w' => st' = st ∧ ∃ ns, recordSizes X g.data.length
            (zeroFilled (env.delivered (w.tick + 1) (.log base) g.data.length) g.data) = .ok ns ∧
          (freshIndex base interval).fitsAll base 0 ns = true ∧
          r.1 = ns.length ∧ Recovered d w'.store base interval g.data ns r.2)
        (∀ ns, recordSizes X g.data.length
          (zeroFilled (env.delivered (w.tick + 1) (.log base) g.data.length) g.data) = .ok ns →
          (freshIndex base interval).fitsAll base 0 ns = false))
      st w := by
  have hPath : s.path = .log base := by rw [Segment.path, hBase]
  have hFresh : IndexOk w.store (freshIndex base interval) := ⟨File.empty, hIndex, rfl⟩
  rw [wp_withLocal, replayRecordsToIndex, wp_get_bind]
  dsimp only
  by_cases hEmpty : s.size = 0
  · have hNil : g.data = [] := List.eq_nil_of_length_eq_zero (hs.size ▸ hEmpty)
    rw [if_pos hEmpty, wp_pure]
    refine ⟨rfl, [], ?_, rfl, rfl, hBase, ⟨g, hs, rfl⟩, rfl, hFresh, hOthers⟩
    rw [hNil]
    rfl
  · have hSeek : s.seekTicks 0 = 1 := if_neg (hCursor (by omega))
    rw [if_neg hEmpty, wp_bind, onSegment, wp_zoom]
    refine wp_mono (readWhole_run hs) ?_ (fun _ _ _ hE hSmooth => (hE hSmooth).elim)
      (fun _ _ _ hE hSmooth => (hE hSmooth).elim) (fun _ _ hE hSmooth => (hE hSmooth).elim)
    rintro bytes s' w' ⟨rfl, ⟨p, rfl, -, hUpd⟩, -⟩
    have hs' := Segment.moved hs hUpd
    rw [hPath] at hUpd
    have hFresh' : IndexOk w'.store (freshIndex base interval) :=
      ⟨File.empty, (hUpd.others _ (by simp [SparseIndex.path])).trans hIndex, rfl⟩
    rw [hSeek, hPath, hs.size]
    dsimp only
    rw [onIndex, wp_zoom]
    refine wp_mono (replayLoop_run hFresh' (Nat.le_refl _)) ?_ ?_ ?_ ?_
    · rintro n x w'' ⟨ns, hReplay, hFits, hn, hx, hxOk, y, hUpd'⟩
      rw [zeroFilled_length] at hReplay
      have hUpd'' : w'.store.Updates w''.store (.index base) y := hUpd'
      refine ⟨rfl, ns, hReplay, hFits, by omega, hBase, ⟨g.seek p, ⟨?_, rfl, hs'.cursor⟩, rfl⟩,
        hx, hxOk, ?_⟩
      · rw [← hs'.file]
        exact hUpd''.others _ (by simp [Segment.path])
      · intro name hne hne'
        rw [hUpd''.others name hne', hUpd.others name hne, hOthers name hne hne']
    · intro e x w'' hStuck
      rw [zeroFilled_length] at hStuck
      exact hStuck
    · intro m x w'' hStuck
      rw [zeroFilled_length] at hStuck
      exact hStuck
    · intro x w'' hStuck
      rw [zeroFilled_length] at hStuck
      exact hStuck

/-- Where the index file was removed it is created anew, without entries. -/
theorem createIndex_run {σ : Type} {st : σ} {base : Nat} (interval : Nat)
    (hGone : env.Smooth → w.store.get (.index base) = none) :
    wp env (SparseIndex.create base interval) (Post.orStuck env
      (fun x st' w' => x = freshIndex base interval ∧ st' = st ∧
        w' = ⟨w.store.put (.index base) File.empty, w.tick + 1⟩) False) st w := by
  rw [SparseIndex.create]
  refine wp_orStuck_bind (P := fun _ st' w' => st' = st ∧
    w' = ⟨w.store.put (.index base) File.empty, w.tick + 1⟩)
    (wp_orStuck_createNew hGone ⟨rfl, rfl⟩) id ?_
  rintro - st' w' ⟨rfl, rfl⟩
  exact ⟨rfl, rfl, rfl⟩

/-- What the replay's read returns of the bytes that are kept; if there are none it does not
matter when it happens. -/
theorem replay_reads (env : Env FileName) (base : Nat) {f g : File} {kept tick tick' : Nat}
    (hData : g.data = f.data.take kept) (hLen : g.data.length = kept)
    (hTick : 0 < kept → tick' = replayTick tick f.data.length kept) :
    zeroFilled (env.delivered tick' (.log base) g.data.length) g.data =
      zeroFilled (env.delivered (replayTick tick f.data.length kept) (.log base) kept)
        (f.data.take kept) := by
  by_cases hZero : kept = 0
  · rw [hData, hZero, List.take_zero]
    simp [zeroFilled]
  · rw [hTick (Nat.pos_of_ne_zero hZero), hLen, hData]

/-- Recovery computes what `salvage` says. -/
theorem recoverActiveSegment_run {σ : Type} {st : σ} {base : Nat} (interval : Nat) {f : File}
    (hf : w.store.get (.log base) = some f) :
    wp env (recoverActiveSegment X base interval) (Post.orStuck env
      (fun r st' w' => st' = st ∧ ∃ kept ns,
        salvage X (freshIndex base interval) (env.delivered (w.tick + 2) (.log base) f.data.length)
          (fun kept => env.delivered (replayTick (w.tick + 2) f.data.length kept) (.log base) kept)
          f.data = some (kept, ns) ∧
        r.2 = ns.length ∧ Recovered w.store w'.store base interval (f.data.take kept) ns r.1)
      (salvage X (freshIndex base interval) (env.delivered (w.tick + 2) (.log base) f.data.length)
          (fun kept => env.delivered (replayTick (w.tick + 2) f.data.length kept) (.log base) kept)
          f.data = none)) st w := by
  rw [recoverActiveSegment]
  apply wp_orStuck_bind (Segment.open_run hf) False.elim
  rintro s st₁ w₁ ⟨rfl, rfl, hUpd₁, hTick₁⟩
  have hs : SegmentOk w₁.store ⟨base, f.data.length, some 0⟩ (f.seek 0) := by
    refine ⟨hUpd₁.self, rfl, ?_⟩
    intro p hp
    exact Option.some.inj hp
  have hNoScan : (∀ kept, lastValid X f.data.length
      (zeroFilled (env.delivered w₁.tick (.log base) f.data.length) f.data) 0 ≠ .ok kept) →
      salvage X (freshIndex base interval) (env.delivered (w.tick + 2) (.log base) f.data.length)
        (fun kept => env.delivered (replayTick (w.tick + 2) f.data.length kept) (.log base) kept)
        f.data = none := by
    intro hStuck
    rw [hTick₁] at hStuck
    exact salvage_eq_none fun kept hScan => absurd hScan (hStuck kept)
  rw [wp_bind, wp_withLocal]
  refine wp_mono (truncateTail_run (X := X) hs rfl) ?_ ?_ ?_ ?_
  · rintro - s₂ w₂ ⟨kept, hScan, hBase, hSize, hCursor, ⟨g, hs₂, hData, hUpd₂⟩, hTick₂⟩
    have hScan' : lastValid X f.data.length
        (zeroFilled (env.delivered (w.tick + 2) (.log base) f.data.length) f.data) 0 = .ok kept := by
      rw [← hTick₁]
      exact hScan
    have hKept : kept ≤ f.data.length := by
      have hLe := lastValid_le (by rw [zeroFilled_length]; exact hScan')
      rwa [zeroFilled_length] at hLe
    have hKeptLen : g.data.length = kept := by rw [← hs₂.size, hSize]
    have hUpd := hUpd₁.trans hUpd₂
    dsimp only
    apply wp_orStuck_bind (removeIfExists_run (.index base)) False.elim
    rintro - st₃ w₃ ⟨rfl, hTick₃, hGone, hSame₃⟩
    apply wp_orStuck_bind (createIndex_run interval hGone) False.elim
    rintro x st₄ w₄ ⟨rfl, rfl, rfl⟩
    have hUpd₄ := Store.updates_put w₃.store (.index base) File.empty
    have hOthers : ∀ name, name ≠ .log base → name ≠ .index base →
        (w₃.store.put (.index base) File.empty).get name = w.store.get name := by
      intro name hne hne'
      rw [hUpd₄.others name hne', hSame₃ name hne', hUpd.others name hne]
    have hs₄ : SegmentOk (w₃.store.put (.index base) File.empty) s₂ g := by
      refine ⟨?_, hs₂.size, hs₂.cursor⟩
      rw [← hs₂.file]
      have hne : s₂.path ≠ .index base := by simp [Segment.path]
      rw [hUpd₄.others _ hne, hSame₃ _ hne]
    -- the number of the replay's read call
    have hTicks : 0 < kept → w₃.tick + 1 + 1 = replayTick (w.tick + 2) f.data.length kept := by
      intro hSome
      have hBefore := hTick₂ hSome
      have hSame : (f.seek 0).data.length = f.data.length := rfl
      rw [hSame] at hBefore
      unfold replayTick
      by_cases hCase : kept < f.data.length
      · rw [if_pos hCase] at hBefore ⊢
        omega
      · rw [if_neg hCase] at hBefore ⊢
        omega
    have hRead := replay_reads env base hData hKeptLen hTicks
    have hReplay : wp env (Fx.withLocal ⟨_, freshIndex base interval⟩
        (replayRecordsToIndex X base)) _ st₄
        ⟨w₃.store.put (.index base) File.empty, w₃.tick + 1⟩ :=
      replay_run hBase hs₄ (fun h => hCursor (hSize ▸ h)) hUpd₄.self hOthers
    dsimp only at hReplay
    rw [hRead, hKeptLen] at hReplay
    refine wp_orStuck_bind hReplay ?_ ?_
    · intro hStuck
      apply salvage_eq_none
      intro kept' hScan₂ ns
      obtain rfl : kept = kept' := Res.ok.inj (hScan'.symm.trans hScan₂)
      exact hStuck ns
    · rintro ⟨count, pair⟩ st₅ w₅ ⟨rfl, ns, hSizes, hFits, hCount, hRecovered⟩
      rw [hData] at hRecovered
      exact ⟨rfl, kept, ns, salvage_eq_some.mpr ⟨hScan', hSizes, hFits⟩, hCount, hRecovered⟩
  · exact fun _ _ _ hStuck hSmooth => hNoScan (hStuck hSmooth)
  · exact fun _ _ _ hStuck hSmooth => hNoScan (hStuck hSmooth)
  · exact fun _ _ hStuck hSmooth => hNoScan (hStuck hSmooth)

end Log

/-! ## The whole directory -/

/-- What a reader sees of a segment in memory; the cached handle position is left out. -/
def IndexedSegment.content (p : IndexedSegment) : Nat × Nat × SparseIndex :=
  (p.segment.baseOffset, p.segment.size, p.index)

/-- A log directory with any contents: the `.log` files have the bases `bases` and `base`, oldest
first, `f` is the newest one, and the others have their index files. -/
structure Stored (d : Store FileName) (bases : List Nat) (base : Nat) (f : File) : Prop where
  sorted : (bases ++ [base]).Pairwise (· < ·)
  logs : ∀ b, (d.get (.log b)).isSome ↔ b ∈ bases ++ [base]
  indexed : ∀ b ∈ bases, (d.get (.index b)).isSome
  active : d.get (.log base) = some f

/-- The newest segment is not among the sealed ones. -/
theorem Stored.base_fresh {d : Store FileName} {bases : List Nat} {base : Nat} {f : File}
    (h : Stored d bases base f) : base ∉ bases := by
  intro hMem
  exact absurd ((List.pairwise_append.mp h.sorted).2.2 base hMem base List.mem_cons_self)
    (Nat.lt_irrefl _)

theorem Stored.discovered {d : Store FileName} {bases : List Nat} {base : Nat} {f : File}
    (h : Stored d bases base f) :
    (d.names.filterMap Log.logBase).insertionSort (· ≤ ·) = bases ++ [base] := by
  have hNodup : (d.names.filterMap Log.logBase).Nodup :=
    d.nodup_names.filterMap fun a b n ha hb => Log.logBase_injective ha hb
  have hPerm : (d.names.filterMap Log.logBase).Perm (bases ++ [base]) := by
    rw [List.perm_ext_iff_of_nodup hNodup (h.sorted.imp fun hlt => Nat.ne_of_lt hlt)]
    intro b
    rw [Log.mem_logBases, h.logs]
  exact List.Perm.eq_of_pairwise' (List.pairwise_insertionSort (· ≤ ·) _)
    (h.sorted.imp fun hlt => Nat.le_of_lt hlt) ((List.perm_insertionSort _ _).trans hPerm)

/-- What opening a sealed segment takes from its two files. -/
def sealedContent (d : Store FileName) (interval b : Nat) : Nat × Nat × SparseIndex :=
  (b, ((d.get (.log b)).map fun f => f.data.length).getD 0,
    ⟨b, SparseIndex.decodeEntries (((d.get (.index b)).map File.data).getD []), 0, interval⟩)

theorem sealedContent_congr {d d' : Store FileName} (interval b : Nat)
    (hLog : (d'.get (.log b)).map File.data = (d.get (.log b)).map File.data)
    (hIndex : (d'.get (.index b)).map File.data = (d.get (.index b)).map File.data) :
    sealedContent d' interval b = sealedContent d interval b := by
  have hLen : ∀ o : Option File,
      (o.map fun f => f.data.length) = (o.map File.data).map List.length :=
    fun o => by rw [Option.map_map]; rfl
  rw [sealedContent, sealedContent, hLen, hLen, hLog, hIndex]

namespace Log

variable {X : Crates} {env : Env FileName} {w : World FileName}

theorem openSealed_run {σ : Type} {st : σ} (interval : Nat) {bases : List Nat}
    (hNodup : bases.Nodup)
    (hFiles : ∀ b ∈ bases, (w.store.get (.log b)).isSome ∧ (w.store.get (.index b)).isSome) :
    wp env (openSealed interval bases) (Post.orStuck env
      (fun ps st' w' => st' = st ∧
        ps.map IndexedSegment.content = bases.map (sealedContent w.store interval) ∧
        (∀ p ∈ ps, ∃ g, SegmentOk w'.store p.segment g) ∧
        (∀ name, (w'.store.get name).map File.data = (w.store.get name).map File.data) ∧
        (∀ b, b ∉ bases → w'.store.get (.log b) = w.store.get (.log b)) ∧
        w'.tick = w.tick + 4 * bases.length) False) st w := by
  induction bases generalizing w st with
  | nil => exact ⟨rfl, rfl, by simp, fun _ => rfl, fun _ _ => rfl, rfl⟩
  | cons b bases ih =>
    obtain ⟨hHead, hTail⟩ := List.nodup_cons.mp hNodup
    obtain ⟨hLog, hIndex⟩ := hFiles b List.mem_cons_self
    obtain ⟨f, hf⟩ := Option.isSome_iff_exists.mp hLog
    obtain ⟨x, hx⟩ := Option.isSome_iff_exists.mp hIndex
    rw [openSealed]
    apply wp_orStuck_bind (Segment.open_run hf) id
    rintro s st₁ w₁ ⟨rfl, rfl, hUpd₁, hTick₁⟩
    have hx₁ : w₁.store.get (.index b) = some x := (hUpd₁.others _ (by simp)).trans hx
    apply wp_orStuck_bind (SparseIndex.open_run interval hx₁) id
    rintro i st₂ w₂ ⟨rfl, rfl, hUpd₂, hTick₂⟩
    have hSame : ∀ name, (w₂.store.get name).map File.data = (w.store.get name).map File.data := by
      intro name
      by_cases hIdx : name = .index b
      · rw [hIdx, hUpd₂.self, hx]
        rfl
      · rw [hUpd₂.others name hIdx]
        by_cases hLg : name = .log b
        · rw [hLg, hUpd₁.self, hf]
          rfl
        · rw [hUpd₁.others name hLg]
    have hSome : ∀ name, (w₂.store.get name).isSome = (w.store.get name).isSome := by
      intro name
      have h := congrArg Option.isSome (hSame name)
      rwa [Option.isSome_map, Option.isSome_map] at h
    have hFiles₂ : ∀ b' ∈ bases,
        (w₂.store.get (.log b')).isSome ∧ (w₂.store.get (.index b')).isSome := by
      intro b' hb'
      rw [hSome, hSome]
      exact hFiles b' (List.mem_cons_of_mem _ hb')
    apply wp_orStuck_bind (ih hTail hFiles₂) id
    rintro ps st₃ w₃ ⟨rfl, hContent, hHandles, hSame₃, hOthers, hTick₃⟩
    refine ⟨rfl, ?_, ?_, ?_, ?_, ?_⟩
    · rw [List.map_cons, List.map_cons, hContent]
      congr 1
      · rw [IndexedSegment.content, sealedContent, hf, hx]
        rfl
      · apply List.map_congr_left
        intro b' _
        exact sealedContent_congr interval b' (hSame _) (hSame _)
    · intro p hp
      rcases List.mem_cons.mp hp with rfl | hp
      · refine ⟨f.seek 0, ⟨?_, rfl, ?_⟩⟩
        · change w₃.store.get (.log b) = some (f.seek 0)
          rw [hOthers b hHead, hUpd₂.others _ (by simp)]
          exact hUpd₁.self
        · intro q hq
          exact Option.some.inj hq
      · exact hHandles p hp
    · intro name
      rw [hSame₃, hSame]
    · intro b' hb'
      have hNe : b' ≠ b := fun h => hb' (h ▸ List.mem_cons_self)
      rw [hOthers b' (fun h => hb' (List.mem_cons_of_mem _ h)), hUpd₂.others _ (by simp),
        hUpd₁.others _ (by simp [hNe])]
    · rw [hTick₃, hTick₂, hTick₁, List.length_cons]
      omega

/-- The log that opening such a directory returns, and the directory it leaves. -/
structure Opened (d d' : Store FileName) (config : LogConfig) (bases : List Nat) (base : Nat)
    (kept : Bytes) (ns : List Nat) (log : Log) : Prop where
  sameConfig : log.config = config
  nextOffset : log.nextOffset = base + ns.length
  segments : log.segments.map IndexedSegment.content =
    bases.map (sealedContent d config.indexInterval) ++
      [(base, kept.length, (freshIndex base config.indexInterval).trackAll base 0 ns)]
  handles : ∀ p ∈ log.segments, ∃ g, SegmentOk d' p.segment g
  active : ∃ g, d'.get (.log base) = some g ∧ g.data = kept
  index : ∃ x, d'.get (.index base) = some x ∧ x.data = encodeEntries
    ((freshIndex base config.indexInterval).trackAll base 0 ns).entries
  others : ∀ name, name ≠ .log base → name ≠ .index base →
    (d'.get name).map File.data = (d.get name).map File.data

/-- The number of the scan's read call: one call lists the directory, and every sealed segment
takes four. -/
def scanTick (tick sealedCount : Nat) : Nat := tick + 4 * sealedCount + 4

/-- What opening a directory makes of the bytes of its newest file, its reads split as the
environment splits them. -/
def salvageOf (X : Crates) (interval : Nat) (env : Env FileName) (tick base : Nat)
    (bases : List Nat) (bytes : Bytes) : Option (Nat × List Nat) :=
  salvage X (freshIndex base interval)
    (env.delivered (scanTick tick bases.length) (.log base) bytes.length)
    (fun kept => env.delivered (replayTick (scanTick tick bases.length) bytes.length kept)
      (.log base) kept) bytes

/-- With full reads, recovery sees the bytes themselves. -/
theorem salvageOf_full {env : Env FileName} (hFull : env.FullReads)
    {interval tick base kept : Nat} {bases : List Nat} {bytes : Bytes} {ns : List Nat}
    (hRoom : bytes.length < 2 ^ 32) :
    salvageOf X interval env tick base bases bytes = some (kept, ns) ↔
      lastValid X bytes.length bytes 0 = .ok kept ∧
        recordSizes X kept (bytes.take kept) = .ok ns := by
  rw [salvageOf, salvage_eq_some, hFull.delivered, zeroFilled_full]
  apply and_congr_right
  intro hScan
  have hLe := lastValid_le hScan
  have hLen : (bytes.take kept).length = kept := by
    rw [List.length_take]
    exact Nat.min_eq_left (lastValid_le hScan)
  have hAll := zeroFilled_full (bytes.take kept)
  rw [hLen] at hAll
  rw [hFull.delivered, hAll]
  apply and_iff_left_of_imp
  intro hReplay
  obtain ⟨fs, -, hFlat, rfl⟩ := recordSizes_ok (Nat.le_of_eq hLen) hReplay
  refine @SparseIndex.fitsAll_of_lt _ base 0 0 _ rfl (Nat.le_refl _) ?_ ?_
  · intro n hn
    obtain ⟨g, -, rfl⟩ := List.mem_map.mp hn
    exact g.length_pos
  · rw [SparseIndex.sum_sizes, span, hFlat, hLen]
    omega

theorem open_run {σ : Type} {st : σ} {bases : List Nat} {base : Nat} {f : File}
    (h : Stored w.store bases base f) (config : LogConfig) :
    wp env (open_ X config) (Post.orStuck env
      (fun log st' w' => st' = st ∧ ∃ kept ns,
        salvageOf X config.indexInterval env w.tick base bases f.data = some (kept, ns) ∧
        Opened w.store w'.store config bases base (f.data.take kept) ns log)
      (salvageOf X config.indexInterval env w.tick base bases f.data = none)) st w := by
  have hSorted := List.pairwise_append.mp h.sorted
  rw [open_]
  refine wp_orStuck_bind (P := fun _ st' w' => st' = st ∧ w' = ⟨w.store, w.tick + 1⟩) ?_ False.elim ?_
  · exact wp_mkdir ⟨rfl, rfl⟩ (fun _ _ hFail hSmooth => (hSmooth.not_fail hFail).elim)
      (fun _ hCrash hSmooth => (hSmooth.not_crash hCrash).elim)
  rintro - st₁ w₁ ⟨rfl, rfl⟩
  refine wp_orStuck_bind (P := fun bs st' w' => bs = bases ++ [base] ∧ st' = st₁ ∧
    w' = ⟨w.store, w.tick + 2⟩) ?_ False.elim ?_
  · rw [discoverSegmentOffsets, wp_bind]
    refine wp_readDir ?_ (fun _ _ hFail hSmooth => (hSmooth.not_fail hFail).elim)
      (fun _ hCrash hSmooth => (hSmooth.not_crash hCrash).elim)
    exact ⟨h.discovered, rfl, rfl⟩
  rintro bs st₂ w₂ ⟨rfl, rfl, rfl⟩
  rw [List.getLast?_append, List.getLast?_singleton, Option.some_or, List.dropLast_concat]
  dsimp only
  have hFiles : ∀ b ∈ bases,
      (w.store.get (.log b)).isSome ∧ (w.store.get (.index b)).isSome := by
    intro b hb
    exact ⟨(h.logs b).mpr (List.mem_append_left _ hb), h.indexed b hb⟩
  refine wp_orStuck_bind (openSealed_run (w := ⟨w.store, w.tick + 2⟩) config.indexInterval
    (hSorted.1.imp fun hlt => Nat.ne_of_lt hlt) hFiles) False.elim ?_
  rintro ps st₃ w₃ ⟨rfl, hContent, hHandles, hSame, hOthers, hTick⟩
  have hNotSealed := h.base_fresh
  have hf : w₃.store.get (.log base) = some f := (hOthers base hNotSealed).trans h.active
  have hTick' : w₃.tick + 2 = scanTick w.tick bases.length := by
    unfold scanTick
    dsimp only at hTick
    omega
  have hRecover : wp env (recoverActiveSegment X base config.indexInterval) _ st₃ w₃ :=
    recoverActiveSegment_run config.indexInterval hf
  rw [hTick'] at hRecover
  apply wp_orStuck_bind hRecover id
  rintro ⟨pair, count⟩ st₄ w₄ ⟨rfl, kept, ns, hSalvage, hCount, hRec⟩
  obtain ⟨g, hg, hData⟩ := hRec.segment
  obtain ⟨x, hx, hEntries⟩ := hRec.indexFile.file
  have hPath : pair.segment.path = .log base := by rw [Segment.path, hRec.segmentBase]
  have hIndexBase : pair.index.baseOffset = base := by
    rw [hRec.index, SparseIndex.trackAll_baseOffset, freshIndex]
  refine ⟨rfl, kept, ns, hSalvage, rfl, congrArg _ hCount, ?_, ?_, ⟨g, ?_, hData⟩, ⟨x, ?_, ?_⟩, ?_⟩
  · rw [List.map_append, hContent]
    congr 1
    rw [List.map_singleton, IndexedSegment.content, hRec.segmentBase, hg.size, hData, hRec.index]
  · intro p hp
    rcases List.mem_append.mp hp with hp | hp
    · obtain ⟨q, hq⟩ := hHandles p hp
      have hBase : p.segment.baseOffset ∈ bases := by
        have hMem := List.mem_map_of_mem (f := IndexedSegment.content) hp
        rw [hContent] at hMem
        obtain ⟨b, hb, hEq⟩ := List.mem_map.mp hMem
        have hFirst : b = p.segment.baseOffset := congrArg Prod.fst hEq
        exact hFirst ▸ hb
      refine ⟨q, ?_, hq.size, hq.cursor⟩
      rw [← hq.file]
      refine hRec.others _ ?_ (by simp [Segment.path])
      simp only [Segment.path, ne_eq, FileName.log.injEq]
      exact fun hEq => hNotSealed (hEq ▸ hBase)
    · obtain rfl := List.mem_singleton.mp hp
      exact ⟨g, hg⟩
  · rw [← hPath]
    exact hg.file
  · rw [← hx, SparseIndex.path, hIndexBase]
  · rw [hEntries, hRec.index]
  · intro name hne hne'
    rw [hRec.others name hne hne', hSame]

/-- The directory a log was opened in is a log directory again. -/
theorem Opened.stored {d d' : Store FileName} {config : LogConfig} {bases : List Nat} {base : Nat}
    {kept : Bytes} {ns : List Nat} {log : Log} {f : File}
    (h : Opened d d' config bases base kept ns log) (hStored : Stored d bases base f) :
    ∃ g, Stored d' bases base g ∧ g.data = kept := by
  obtain ⟨g, hg, hData⟩ := h.active
  obtain ⟨x, hx, -⟩ := h.index
  have hSome : ∀ name, name ≠ .log base → name ≠ .index base →
      (d'.get name).isSome = (d.get name).isSome := by
    intro name hne hne'
    have hSame := congrArg Option.isSome (h.others name hne hne')
    rwa [Option.isSome_map, Option.isSome_map] at hSame
  refine ⟨g, ⟨hStored.sorted, ?_, ?_, hg⟩, hData⟩
  · intro b
    rw [← hStored.logs b]
    by_cases hBase : b = base
    · rw [hBase, hg, hStored.active]
      rfl
    · rw [hSome _ (by simp [hBase]) (by simp)]
  · intro b hb
    by_cases hBase : b = base
    · rw [hBase, hx]
      rfl
    · rw [hSome _ (by simp) (by simp [hBase])]
      exact hStored.indexed b hb

/-- A smooth open whose recovery does not get stuck returns a log. -/
theorem opens {σ : Type} {bases : List Nat} {base : Nat} {f : File} (hSmooth : env.Smooth)
    (h : Stored w.store bases base f) (config : LogConfig) (st : σ)
    (hSalvage : salvageOf X config.indexInterval env w.tick base bases f.data ≠ none) :
    ∃ log st' w', open_ X config env st w = (.ok log, st', w') := by
  obtain ⟨log, st', w', hOpen, -⟩ := run_of_orStuck (open_run h config) hSmooth hSalvage
  exact ⟨log, st', w', hOpen⟩

end Log

/-- A directory with one segment file. -/
def soleSegment (base : Nat) (bytes : Bytes) : Store FileName :=
  Store.empty.put (.log base) ⟨bytes, bytes.length, [], 0⟩

theorem stored_soleSegment (base : Nat) (bytes : Bytes) :
    Stored (soleSegment base bytes) [] base ⟨bytes, bytes.length, [], 0⟩ := by
  refine ⟨List.pairwise_singleton _ _, ?_, by simp, Store.get_put_self _ _ _⟩
  intro b
  rw [List.nil_append, List.mem_singleton, soleSegment]
  by_cases hBase : b = base
  · simp [hBase]
  · rw [Store.get_put_of_ne _ _ (by simp [hBase])]
    simp [hBase]

end Kafko
