import Kafko.Storage.Layout

/-!
# Specifications of the segment and index operations

One rule for each operation, for an environment whose failures leave no trace (`Clean`):
a failing write has written nothing, index entries are written, index files are created and
files are removed without failing. Crashes may happen anywhere, a crashing write after any
number of bytes.
-/

namespace Kafko

open Disk

/-- The failures after which every operation leaves the log as it was. -/
def CleanFailure : Call FileName → Nat → Prop
  | .write _ _, written => written = 0
  | .append _ _, _ => False
  | .createNew (.index _), _ => False
  | .remove _, _ => False
  | _, _ => True

/-- Reads are full and every failure is a clean one; crashes are not restricted. -/
structure Clean (env : Env FileName) : Prop where
  fullReads : env.FullReads
  failures : ∀ tick call kind written,
    env.outcome tick call = .fail kind written → CleanFailure call written

theorem clean_of_quiet {env : Env FileName} (h : env.Quiet) : Clean env where
  fullReads := h.fullReads
  failures tick call kind written hFail := by
    rw [h tick call] at hFail
    cases hFail

namespace Segment

variable {env : Env FileName} {s : Segment} {w : World FileName} {f : File}

/-- After `ensureCursor` the handle stands where the cache says. -/
theorem ensureCursor_spec (hs : SegmentOk w.store s f) (pos : Nat) :
    wp env (ensureCursor pos)
      { ok := fun _ s' w' => s' = { s with cursor := some pos } ∧
          w.store.Updates w'.store s.path (f.seek pos)
        err := fun _ s' w' => ¬ env.Steady ∧ s' = s ∧ w'.store = w.store
        panic := fun _ _ _ => False
        crash := fun _ w' => ¬ env.Alive ∧ w'.store = w.store } s w := by
  rw [ensureCursor, wp_get_bind]
  by_cases hCursor : s.cursor = some pos
  · rw [if_pos hCursor, wp_pure]
    have hPos : f.seek pos = f := by
      rw [File.seek, ← hs.cursor pos hCursor]
    rw [hPos]
    refine ⟨?_, Store.Updates.refl hs.file⟩
    rw [← hCursor]
  · rw [if_neg hCursor, wp_bind]
    refine wp_onFile hs.file ?_ ?_ ?_
    · dsimp only
      rw [wp_modify]
      exact ⟨rfl, Store.updates_put _ _ _⟩
    · intro kind k hFail
      exact ⟨Env.not_steady_of_fail hFail, rfl, rfl⟩
    · intro k hCrash
      exact ⟨Env.not_alive_of_crash hCrash, rfl⟩

/-- A successful append lands exactly at the end. A failed one changes no byte. -/
theorem append_spec (hClean : Clean env) (hs : SegmentOk w.store s f) (hCut : f.cut = [])
    (bytes : Bytes) :
    wp env (append bytes)
      { ok := fun pos s' w' => pos = s.size ∧ s'.baseOffset = s.baseOffset ∧
          ∃ g, SegmentOk w'.store s' g ∧ w.store.Updates w'.store s.path g ∧
            g.data = f.data ++ bytes ∧ g.synced = f.synced ∧ g.cut = []
        err := fun _ s' w' => ¬ env.Steady ∧ s'.baseOffset = s.baseOffset ∧
          ∃ g, SegmentOk w'.store s' g ∧ w.store.Updates w'.store s.path g ∧
            g.rewind = f.rewind
        panic := fun _ _ _ => False
        crash := fun _ w' => ¬ env.Alive ∧ ∃ g k, w.store.Updates w'.store s.path g ∧
          g.data = f.data ++ bytes.take k ∧ g.synced = f.synced ∧ g.cut = [] } s w := by
  rw [append, wp_get_bind]
  refine wp_bind_of (ensureCursor_spec hs s.size) ?_ ?_ (fun _ _ _ h => h) ?_
  · rintro - s' w' ⟨rfl, hUpd⟩
    have hEnd : (f.seek s.size).pos = (f.seek s.size).data.length := hs.size
    have hData : ∀ bs : Bytes, ((f.seek s.size).write bs).data = f.data ++ bs :=
      fun bs => File.write_at_end hEnd bs
    have hNoCut : ∀ bs : Bytes, ((f.seek s.size).write bs).cut = [] :=
      fun bs => File.write_cut (f := f.seek s.size) hCut bs
    rw [wp_bind]
    refine wp_writing hUpd.self ?_ ?_ ?_
    · dsimp only
      rw [wp_modify_bind, wp_pure]
      refine ⟨rfl, rfl, (f.seek s.size).write bytes, ⟨Store.get_put_self _ _ _, ?_, ?_⟩,
        hUpd.trans (Store.updates_put _ _ _), hData bytes, File.write_synced _ _, hNoCut bytes⟩
      · rw [hData, List.length_append, hs.size]
      · intro p hp
        rw [File.write_pos]
        exact Option.some.inj hp
    · -- only a write that has written nothing may fail
      intro kind k hFail
      obtain rfl : k = 0 := hClean.failures _ _ _ _ hFail
      have hSame : (f.seek s.size).write (bytes.take (min 0 (bytes.length - 1))) =
          f.seek s.size := by
        rw [Nat.zero_min, List.take_zero, File.write_nil]
      rw [hSame]
      refine ⟨Env.not_steady_of_fail hFail, rfl, f.seek s.size,
        ⟨Store.get_put_self _ _ _, hs.size, ?_⟩, hUpd.trans (Store.updates_put _ _ _), rfl⟩
      intro p hp
      exact Option.some.inj hp
    · intro k hCrash
      exact ⟨Env.not_alive_of_crash hCrash, (f.seek s.size).write (bytes.take k), k,
        hUpd.trans (Store.updates_put _ _ _), hData _, File.write_synced _ _, hNoCut _⟩
  · rintro e s' w' ⟨hNoisy, rfl, hw⟩
    refine ⟨hNoisy, rfl, f, ?_, ?_, rfl⟩
    · rw [hw]
      exact hs
    · rw [hw]
      exact Store.Updates.refl hs.file
  · rintro s' w' ⟨hNoisy, hw⟩
    refine ⟨hNoisy, f, 0, ?_, by simp, rfl, hCut⟩
    rw [hw]
    exact Store.Updates.refl hs.file

/-- A read from a position inside the file returns everything behind it, up to `len`. -/
theorem readAt_spec (hFull : env.FullReads) (hs : SegmentOk w.store s f) (filePos len : Nat) :
    wp env (readAt filePos len)
      { ok := fun bytes s' w' => bytes = (f.data.drop filePos).take len ∧
          s'.baseOffset = s.baseOffset ∧
          ∃ g, SegmentOk w'.store s' g ∧ w.store.Updates w'.store s.path g ∧
            g.rewind = f.rewind
        err := fun _ s' w' => ¬ env.Steady ∧ s'.baseOffset = s.baseOffset ∧
          ∃ g, SegmentOk w'.store s' g ∧ w.store.Updates w'.store s.path g ∧
            g.rewind = f.rewind
        panic := fun _ _ _ => False
        crash := fun _ w' => ¬ env.Alive ∧ ∃ g, w.store.Updates w'.store s.path g ∧
          g.rewind = f.rewind } s w := by
  rw [readAt, wp_get_bind]
  refine wp_bind_of (ensureCursor_spec hs filePos) ?_ ?_ (fun _ _ _ h => h) ?_
  · rintro - s' w' ⟨rfl, hUpd⟩
    rw [wp_bind]
    refine wp_read hFull hUpd.self ?_ ?_ ?_
    · dsimp only
      rw [wp_modify_bind, wp_pure]
      refine ⟨rfl, rfl, _, ⟨Store.get_put_self _ _ _, hs.size, ?_⟩,
        hUpd.trans (Store.updates_put _ _ _), rfl⟩
      intro p hp
      exact Option.some.inj hp
    · intro kind k hFail
      refine ⟨Env.not_steady_of_fail hFail, rfl, _, ⟨hUpd.self, hs.size, ?_⟩, hUpd, rfl⟩
      intro p hp
      exact Option.some.inj hp
    · intro k hCrash
      exact ⟨Env.not_alive_of_crash hCrash, _, hUpd, rfl⟩
  · rintro e s' w' ⟨hNoisy, rfl, hw⟩
    refine ⟨hNoisy, rfl, f, ?_, ?_, rfl⟩
    · rw [hw]
      exact hs
    · rw [hw]
      exact Store.Updates.refl hs.file
  · rintro s' w' ⟨hNoisy, hw⟩
    refine ⟨hNoisy, f, ?_, rfl⟩
    rw [hw]
    exact Store.Updates.refl hs.file

theorem sync_spec (hs : SegmentOk w.store s f) :
    wp env sync
      { ok := fun _ s' w' => s' = s ∧ SegmentOk w'.store s f.sync ∧
          w.store.Updates w'.store s.path f.sync
        err := fun _ s' w' => env.Fails w.tick (.syncData s.path) ∧ s' = s ∧ w'.store = w.store
        panic := fun _ _ _ => False
        crash := fun s' w' => ¬ env.Alive ∧ s' = s ∧ w'.store = w.store } s w := by
  rw [sync, wp_get_bind]
  refine wp_onFile hs.file ?_ ?_ ?_
  · exact ⟨rfl, ⟨Store.get_put_self _ _ _, hs.size, hs.cursor⟩, Store.updates_put _ _ _⟩
  · intro kind k hFail
    exact ⟨⟨kind, k, hFail⟩, rfl, rfl⟩
  · intro k hCrash
    exact ⟨Env.not_alive_of_crash hCrash, rfl, rfl⟩

end Segment

namespace SparseIndex

variable {env : Env FileName} {x : SparseIndex} {w : World FileName}

theorem sync_spec {f : File} (hf : w.store.get x.path = some f) :
    wp env sync
      { ok := fun _ x' w' => x' = x ∧ w.store.Updates w'.store x.path f.sync
        err := fun _ x' w' => ¬ env.Steady ∧ x' = x ∧ w'.store = w.store
        panic := fun _ _ _ => False
        crash := fun x' w' => ¬ env.Alive ∧ x' = x ∧ w'.store = w.store } x w := by
  rw [sync, wp_get_bind]
  refine wp_onFile hf ?_ ?_ ?_
  · exact ⟨rfl, Store.updates_put _ _ _⟩
  · intro kind k hFail
    exact ⟨Env.not_steady_of_fail hFail, rfl, rfl⟩
  · intro k hCrash
    exact ⟨Env.not_alive_of_crash hCrash, rfl, rfl⟩

/-- Tracking one record: the entries in memory and in the file stay the same. It panics
only over a record that needs an entry and does not fit into one. -/
theorem trackAppend_spec (hClean : Clean env) (hx : IndexOk w.store x)
    (offset filePosition size : Nat) :
    wp env (trackAppend offset filePosition size)
      { ok := fun _ x' w' => x' = x.track offset filePosition size ∧ IndexOk w'.store x' ∧
          (∃ g, w.store.Updates w'.store x.path g) ∧
          (x.needEntry = true → offset - x.baseOffset < 2 ^ 32 ∧ filePosition < 2 ^ 32)
        err := fun _ _ _ => False
        panic := fun _ _ w' => w'.store = w.store ∧ x.needEntry = true ∧
          (2 ^ 32 ≤ offset - x.baseOffset ∨ 2 ^ 32 ≤ filePosition)
        crash := fun _ w' => ¬ env.Alive ∧ ∃ g, w.store.Updates w'.store x.path g } x w := by
  obtain ⟨f, hf, hData⟩ := hx.file
  rw [trackAppend, wp_get_bind]
  by_cases hNeed : x.needEntry
  · rw [if_pos hNeed, wp_bind, addEntry, wp_get_bind]
    dsimp only
    by_cases hRel : 2 ^ 32 ≤ offset - x.baseOffset
    · rw [if_pos hRel]
      exact ⟨rfl, hNeed, Or.inl hRel⟩
    by_cases hPos : 2 ^ 32 ≤ filePosition
    · rw [if_neg hRel, if_pos hPos]
      exact ⟨rfl, hNeed, Or.inr hPos⟩
    rw [if_neg hRel, if_neg hPos, wp_bind, writeEntry, wp_get_bind]
    refine wp_writing hf ?_ ?_ ?_
    · simp only [wp_modify]
      refine ⟨?_, ⟨_, Store.get_put_self _ _ _, ?_⟩, ⟨_, Store.updates_put _ _ _⟩, ?_⟩
      · simp [track, hNeed]
      · simp [File.append, hData, encodeEntries]
      · intro _
        omega
    · intro kind k hFail
      exact hClean.failures _ _ _ _ hFail
    · intro k hCrash
      exact ⟨Env.not_alive_of_crash hCrash, _, Store.updates_put _ _ _⟩
  · rw [if_neg hNeed]
    dsimp only
    rw [wp_modify]
    refine ⟨?_, ⟨f, hf, hData⟩, ⟨f, Store.Updates.refl hf⟩, fun h => absurd h hNeed⟩
    simp [track, hNeed]

/-- A lookup at or behind the base is answered by the last entry at or before the offset, cut
down to `u32`; without such an entry it starts at the base. -/
theorem lookup_cases
    (hSorted : x.entries.Pairwise fun a b => a.relativeOffset < b.relativeOffset) {offset : Nat}
    (hBase : x.baseOffset ≤ offset) :
    (binarySearchByKey x.entries (min (offset - x.baseOffset) (2 ^ 32 - 1))
        IndexEntry.relativeOffset = .error 0 ∧ x.lookup offset = (0, x.baseOffset)) ∨
      ∃ i e, x.entries[i]? = some e ∧
        LastAtMost x.entries (min (offset - x.baseOffset) (2 ^ 32 - 1))
          IndexEntry.relativeOffset i ∧
        x.lookup offset = (e.filePosition, x.baseOffset + e.relativeOffset) := by
  unfold lookup
  rw [if_neg (Nat.not_lt.mpr hBase)]
  dsimp only
  have hEntry : ∀ i, LastAtMost x.entries (min (offset - x.baseOffset) (2 ^ 32 - 1))
      IndexEntry.relativeOffset i → ∃ e, x.entries[i]? = some e := by
    intro i hLast
    obtain ⟨⟨e, he, -⟩, -⟩ := hLast
    exact ⟨e, he⟩
  cases hSearch : binarySearchByKey x.entries (min (offset - x.baseOffset) (2 ^ 32 - 1))
      IndexEntry.relativeOffset with
  | ok i =>
    have hLast := lastAtMost_of_found hSorted hSearch
    obtain ⟨e, he⟩ := hEntry i hLast
    refine Or.inr ⟨i, e, he, hLast, ?_⟩
    dsimp only
    rw [he]
  | error i =>
    cases i with
    | zero => exact Or.inl ⟨rfl, rfl⟩
    | succ i =>
      have hLast := lastAtMost_of_absent hSorted hSearch
      obtain ⟨e, he⟩ := hEntry i hLast
      refine Or.inr ⟨i, e, he, hLast, ?_⟩
      dsimp only
      rw [he]

end SparseIndex

end Kafko
