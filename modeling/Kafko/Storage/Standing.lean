import Kafko.Storage.Rebuilt
import Kafko.Storage.Operations
import Kafko.Disk.Directory

/-!
# Logs in an environment that fails

`Clean` environments leave no trace of a failure; this module is about all others. Very little
can then be said about the bytes of a directory, but which files exist is still in order
(`Standing`): every segment in memory has its two files, no file is newer than the active
segment, and every `.log` file has its index. A log is `exact` as long as no call has failed;
its cached sizes and positions are then those of the files.

A rotation creates two files named after the next offset. What it must not meet is an active
segment that already has this name and is not empty (`StandsStill.behind`). Two failures produce
one: the creation of the `.index` file of a new segment, and the first entry written to it.
-/

namespace Kafko

open Disk

/-! ## Segments and indexes -/

/-- A segment after a call on its file. -/
structure Segment.After (exact : Prop) (d d' : Store FileName) (s s' : Segment) : Prop where
  base : s'.baseOffset = s.baseOffset
  file : ∃ g, d.Updates d' s.path g ∧ (exact → SegmentOk d' s' g)

/-- The file of a segment exists, and an exact segment knows its size and position. -/
def Segment.Backed (exact : Prop) (d : Store FileName) (s : Segment) : Prop :=
  ∃ f, d.get s.path = some f ∧ (exact → SegmentOk d s f)

namespace Segment

variable {exact : Prop} {env : Env FileName} {s s' : Segment} {w : World FileName}
  {d d' : Store FileName}

theorem Backed.isSome (h : Backed exact d s) : (d.get s.path).isSome := by
  obtain ⟨f, hf, -⟩ := h
  rw [hf]
  rfl

theorem Backed.after (h : Backed exact d s) : After exact d d s s := by
  obtain ⟨f, hf, hExact⟩ := h
  exact ⟨rfl, f, Store.Updates.refl hf, hExact⟩

theorem After.path (h : After exact d d' s s') : s'.path = s.path := by
  rw [Segment.path, h.base, Segment.path]

theorem After.backed (h : After exact d d' s s') : Backed exact d' s' := by
  obtain ⟨g, hUpd, hExact⟩ := h.file
  refine ⟨g, ?_, hExact⟩
  rw [h.path]
  exact hUpd.self

theorem Backed.congr (h : Backed exact d s) (hSame : d'.get s.path = d.get s.path) :
    Backed exact d' s := by
  obtain ⟨f, hf, hExact⟩ := h
  refine ⟨f, hSame.trans hf, ?_⟩
  intro hTrue
  exact ⟨hSame.trans hf, (hExact hTrue).size, (hExact hTrue).cursor⟩

theorem sync_after (hs : Backed exact w.store s) :
    wp env sync
      { ok := fun _ s' w' => s' = s ∧ After exact w.store w'.store s s
        err := fun _ s' w' => ¬ env.Smooth ∧ s' = s ∧ w'.store = w.store
        panic := fun _ _ _ => False
        crash := fun s' w' => ¬ env.Smooth ∧ s' = s ∧ w'.store = w.store } s w := by
  obtain ⟨f, hf, hExact⟩ := hs
  rw [sync, wp_get_bind]
  refine wp_onFile hf ?_ ?_ ?_
  · refine ⟨rfl, rfl, f.sync, Store.updates_put _ _ _, ?_⟩
    intro hTrue
    exact ⟨Store.get_put_self _ _ _, (hExact hTrue).size, (hExact hTrue).cursor⟩
  · intro kind k hFail
    exact ⟨fun hSmooth => hSmooth.not_fail hFail, rfl, rfl⟩
  · intro k hCrash
    exact ⟨fun hSmooth => hSmooth.not_crash hCrash, rfl, rfl⟩

theorem ensureCursor_after (hs : Backed exact w.store s) (pos : Nat) :
    wp env (ensureCursor pos)
      { ok := fun _ s' w' => s' = { s with cursor := some pos } ∧
          After exact w.store w'.store s s'
        err := fun _ s' w' => ¬ env.Smooth ∧ s' = s ∧ w'.store = w.store
        panic := fun _ _ _ => False
        crash := fun s' w' => ¬ env.Smooth ∧ s' = s ∧ w'.store = w.store } s w := by
  obtain ⟨f, hf, hExact⟩ := hs
  rw [ensureCursor, wp_get_bind]
  by_cases hCursor : s.cursor = some pos
  · rw [if_pos hCursor, wp_pure]
    have hSelf : { s with cursor := some pos } = s := by
      rw [← hCursor]
    rw [hSelf]
    exact ⟨rfl, rfl, f, Store.Updates.refl hf, hExact⟩
  · rw [if_neg hCursor, wp_bind]
    refine wp_onFile hf ?_ ?_ ?_
    · dsimp only
      rw [wp_modify]
      refine ⟨rfl, rfl, f.seek pos, Store.updates_put _ _ _, ?_⟩
      intro hTrue
      refine ⟨Store.get_put_self _ _ _, (hExact hTrue).size, ?_⟩
      intro p hp
      exact Option.some.inj hp
    · intro kind k hFail
      exact ⟨fun hSmooth => hSmooth.not_fail hFail, rfl, rfl⟩
    · intro k hCrash
      exact ⟨fun hSmooth => hSmooth.not_crash hCrash, rfl, rfl⟩

/-- A write that fails may leave bytes behind the cached end, which the next write overwrites. -/
theorem append_after (hExact : exact → env.Smooth) (hs : Backed exact w.store s) (bytes : Bytes) :
    wp env (append bytes)
      { ok := fun pos s' w' => pos = s.size ∧ s'.size = s.size + bytes.length ∧
          After exact w.store w'.store s s'
        err := fun _ s' w' => ¬ env.Smooth ∧ s'.size = s.size ∧ After exact w.store w'.store s s'
        panic := fun _ _ _ => False
        crash := fun s' w' => ¬ env.Smooth ∧ After exact w.store w'.store s s' } s w := by
  have hNot : ¬ env.Smooth → ¬ exact := fun hRough hTrue => hRough (hExact hTrue)
  rw [append, wp_get_bind]
  refine wp_bind_of (ensureCursor_after hs s.size) ?_ ?_ (fun _ _ _ hF => hF) ?_
  · rintro - s' w' ⟨rfl, hMoved⟩
    obtain ⟨f, hUpd, hOk⟩ := hMoved.file
    rw [wp_bind]
    refine wp_writing hUpd.self ?_ ?_ ?_
    · dsimp only
      rw [wp_modify_bind, wp_pure]
      refine ⟨rfl, rfl, rfl, f.write bytes, hUpd.trans (Store.updates_put _ _ _), ?_⟩
      intro hTrue
      have hSize : s.size = f.data.length := (hOk hTrue).size
      have hPos : f.pos = f.data.length := ((hOk hTrue).cursor s.size rfl).trans hSize
      refine ⟨Store.get_put_self _ _ _, ?_, ?_⟩
      · rw [File.write_at_end hPos, List.length_append, hSize]
      · intro p hp
        obtain rfl := Option.some.inj hp
        rw [File.write_pos, hPos, hSize]
    · intro kind k hFail
      have hRough : ¬ env.Smooth := fun hSmooth => hSmooth.not_fail hFail
      exact ⟨hRough, rfl, rfl, _, hUpd.trans (Store.updates_put _ _ _),
        fun hTrue => absurd hTrue (hNot hRough)⟩
    · intro k hCrash
      have hRough : ¬ env.Smooth := fun hSmooth => hSmooth.not_crash hCrash
      exact ⟨hRough, rfl, _, hUpd.trans (Store.updates_put _ _ _),
        fun hTrue => absurd hTrue (hNot hRough)⟩
  · rintro e s' w' ⟨hRough, rfl, hw⟩
    refine ⟨hRough, rfl, ?_⟩
    rw [hw]
    exact hs.after
  · rintro s' w' ⟨hRough, rfl, hw⟩
    refine ⟨hRough, ?_⟩
    rw [hw]
    exact hs.after

theorem readAt_after (hs : Backed exact w.store s) (filePos len : Nat) :
    wp env (readAt filePos len)
      (Post.always fun s' w' => s'.size = s.size ∧ After exact w.store w'.store s s') s w := by
  rw [readAt, wp_get_bind]
  refine wp_bind_of (ensureCursor_after hs filePos) ?_ ?_ (fun _ _ _ hF => hF.elim) ?_
  · rintro - s' w' ⟨rfl, hMoved⟩
    obtain ⟨f, hUpd, hOk⟩ := hMoved.file
    rw [wp_bind]
    change wp env (Fx.onFile (.read s.path len) s.path
      (fun f => f.peek (env.delivered w'.tick s.path len))
      (fun f => f.seek (f.pos + (f.peek (env.delivered w'.tick s.path len)).length))) _ _ w'
    refine wp_onFile hUpd.self ?_ ?_ ?_
    · dsimp only
      rw [wp_modify_bind, wp_pure]
      refine ⟨rfl, rfl, _, hUpd.trans (Store.updates_put _ _ _), ?_⟩
      intro hTrue
      refine ⟨Store.get_put_self _ _ _, (hOk hTrue).size, ?_⟩
      intro p hp
      obtain rfl := Option.some.inj hp
      have hPos : f.pos = filePos := (hOk hTrue).cursor filePos rfl
      rw [← hPos]
      rfl
    · intro kind k hFail
      exact ⟨rfl, hMoved⟩
    · intro k hCrash
      exact ⟨rfl, hMoved⟩
  · rintro e s' w' ⟨-, rfl, hw⟩
    refine ⟨rfl, ?_⟩
    rw [hw]
    exact hs.after
  · rintro s' w' ⟨-, rfl, hw⟩
    refine ⟨rfl, ?_⟩
    rw [hw]
    exact hs.after

end Segment

namespace SparseIndex

variable {env : Env FileName} {x : SparseIndex} {w : World FileName}

/-- Tracking a record: it panics over an entry that does not fit, and it fails only if the write
of an entry does. -/
theorem trackAppend_after (hx : (w.store.get x.path).isSome) (offset filePosition size : Nat) :
    wp env (trackAppend offset filePosition size)
      { ok := fun _ x' w' => x.fitsEntry offset filePosition = true ∧
          x' = x.track offset filePosition size ∧ ∃ g, w.store.Updates w'.store x.path g
        err := fun _ x' w' => ¬ env.Smooth ∧ (∃ tick bytes, env.Fails tick (.append x.path bytes)) ∧
          x' = x ∧ ∃ g, w.store.Updates w'.store x.path g
        panic := fun _ _ w' => x.fitsEntry offset filePosition = false ∧ w'.store = w.store
        crash := fun _ w' => ¬ env.Smooth ∧ ∃ g, w.store.Updates w'.store x.path g } x w := by
  obtain ⟨f, hf⟩ := Option.isSome_iff_exists.mp hx
  rw [trackAppend, wp_get_bind]
  by_cases hNeed : x.needEntry
  · have hUnfit : 2 ^ 32 ≤ offset - x.baseOffset ∨ 2 ^ 32 ≤ filePosition →
        x.fitsEntry offset filePosition = false := by
      intro hBig
      rw [← Bool.not_eq_true, fitsEntry_iff]
      intro hFits
      have := hFits hNeed
      omega
    rw [if_pos hNeed, wp_bind, addEntry, wp_get_bind]
    dsimp only
    by_cases hRel : 2 ^ 32 ≤ offset - x.baseOffset
    · rw [if_pos hRel]
      exact ⟨hUnfit (Or.inl hRel), rfl⟩
    by_cases hPos : 2 ^ 32 ≤ filePosition
    · rw [if_neg hRel, if_pos hPos]
      exact ⟨hUnfit (Or.inr hPos), rfl⟩
    rw [if_neg hRel, if_neg hPos, wp_bind, writeEntry, wp_get_bind]
    refine wp_writing hf ?_ ?_ ?_
    · simp only [wp_modify]
      refine ⟨fitsEntry_iff.mpr fun _ => by omega, ?_, _, Store.updates_put _ _ _⟩
      simp [track, hNeed]
    · intro kind k hFail
      exact ⟨fun hSmooth => hSmooth.not_fail hFail, ⟨_, _, _, _, hFail⟩, rfl, _,
        Store.updates_put _ _ _⟩
    · intro k hCrash
      exact ⟨fun hSmooth => hSmooth.not_crash hCrash, _, Store.updates_put _ _ _⟩
  · rw [if_neg hNeed]
    refine ⟨?_, ?_, f, Store.Updates.refl hf⟩
    · simp [fitsEntry, hNeed]
    · simp [track, hNeed]

theorem sync_after (hx : (w.store.get x.path).isSome) :
    wp env sync
      { ok := fun _ x' w' => x' = x ∧ ∃ g, w.store.Updates w'.store x.path g
        err := fun _ x' w' => ¬ env.Smooth ∧ x' = x ∧ w'.store = w.store
        panic := fun _ _ _ => False
        crash := fun x' w' => ¬ env.Smooth ∧ x' = x ∧ w'.store = w.store } x w := by
  obtain ⟨f, hf⟩ := Option.isSome_iff_exists.mp hx
  rw [sync, wp_get_bind]
  refine wp_onFile hf ?_ ?_ ?_
  · exact ⟨rfl, _, Store.updates_put _ _ _⟩
  · intro kind k hFail
    exact ⟨fun hSmooth => hSmooth.not_fail hFail, rfl, rfl⟩
  · intro k hCrash
    exact ⟨fun hSmooth => hSmooth.not_crash hCrash, rfl, rfl⟩

end SparseIndex

/-! ## The invariant -/

/-- What no failure disturbs: the segments in memory have their files, no file is newer than all
of them, and every `.log` file has its index. -/
structure Standing (exact : Prop) (log : Log) (d : Store FileName) : Prop where
  nonempty : log.segments ≠ []
  sorted : (log.segments.map fun p => p.segment.baseOffset).Pairwise (· < ·)
  indexBase : ∀ p ∈ log.segments, p.index.baseOffset = p.segment.baseOffset
  backed : ∀ p ∈ log.segments, p.segment.Backed exact d
  upTo : ∀ p ∈ log.segments, p.segment.baseOffset ≤ log.nextOffset
  newest : ∀ b, (d.get (.log b)).isSome ∨ (d.get (.index b)).isSome →
    ∃ p ∈ log.segments, b ≤ p.segment.baseOffset
  paired : ∀ b, (d.get (.log b)).isSome → (d.get (.index b)).isSome

/-- A standing log between two operations: a segment named after the next offset is empty. -/
structure StandsStill (exact : Prop) (log : Log) (d : Store FileName) : Prop where
  standing : Standing exact log d
  behind : ∀ p ∈ log.segments, p.segment.baseOffset = log.nextOffset → p.segment.size = 0

/-- The newest `.log` file of a directory; only this one may lack its index. -/
structure Newest (d : Store FileName) (base : Nat) : Prop where
  log : (d.get (.log base)).isSome
  logs : ∀ b, (d.get (.log b)).isSome → b ≤ base
  paired : ∀ b, (d.get (.log b)).isSome → b ≠ base → (d.get (.index b)).isSome
  indexes : ∀ b, (d.get (.index b)).isSome → b ≤ base

/-- A directory without a session, whatever has failed in it. -/
def Orderly (d : Store FileName) : Prop := Fresh d ∨ ∃ base, Newest d base

/-- Whether the newest index exists does not matter. -/
theorem Newest.congr {d d' : Store FileName} {base : Nat} (h : Newest d base)
    (hNames : ∀ name, name ≠ .index base → (d'.get name).isSome = (d.get name).isSome) :
    Newest d' base := by
  have hLog : ∀ b, (d'.get (.log b)).isSome = (d.get (.log b)).isSome :=
    fun b => hNames _ (by simp)
  refine ⟨?_, ?_, ?_, ?_⟩
  · rw [hLog]
    exact h.log
  · intro b hb
    rw [hLog] at hb
    exact h.logs b hb
  · intro b hb hNe
    rw [hLog] at hb
    rw [hNames _ (by simp [hNe])]
    exact h.paired b hb hNe
  · intro b hb
    by_cases hBase : b = base
    · exact Nat.le_of_eq hBase
    · rw [hNames _ (by simp [hBase])] at hb
      exact h.indexes b hb

theorem Orderly.congr {d d' : Store FileName} (h : Orderly d) (hNames : d.SameNames d') :
    Orderly d' := by
  rcases h with hFresh | ⟨base, hNewest⟩
  · refine Or.inl fun name => ?_
    have hName := hNames name
    rw [hFresh name] at hName
    simpa using hName
  · exact Or.inr ⟨base, hNewest.congr fun name _ => hNames name⟩

namespace Standing

variable {exact : Prop} {log : Log} {d d' : Store FileName} {init : List IndexedSegment}
  {active p p' : IndexedSegment}

theorem indexPath (h : Standing exact log d) (hp : p ∈ log.segments) :
    p.index.path = .index p.segment.baseOffset := by
  rw [SparseIndex.path, h.indexBase p hp]

theorem indexed (h : Standing exact log d) (hp : p ∈ log.segments) :
    (d.get p.index.path).isSome := by
  rw [h.indexPath hp]
  exact h.paired _ (h.backed p hp).isSome

theorem exists_active (h : Standing exact log d) :
    ∃ init active, log.segments = init ++ [active] :=
  ⟨_, _, (List.dropLast_concat_getLast h.nonempty).symm⟩

theorem le_active (h : Standing exact log d) (hSplit : log.segments = init ++ [active])
    (hp : p ∈ log.segments) : p.segment.baseOffset ≤ active.segment.baseOffset := by
  have hSorted := h.sorted
  rw [hSplit, List.map_append, List.pairwise_append] at hSorted
  rw [hSplit] at hp
  rcases List.mem_append.mp hp with hp | hp
  · exact Nat.le_of_lt (hSorted.2.2 _ (List.mem_map_of_mem hp) _ List.mem_cons_self)
  · rw [List.mem_singleton.mp hp]

/-- No file is newer than the active segment. -/
theorem file_le (h : Standing exact log d) (hSplit : log.segments = init ++ [active]) {b : Nat}
    (hb : (d.get (.log b)).isSome ∨ (d.get (.index b)).isSome) :
    b ≤ active.segment.baseOffset := by
  obtain ⟨p, hp, hLe⟩ := h.newest b hb
  exact hLe.trans (h.le_active hSplit hp)

theorem orderly (h : Standing exact log d) : Orderly d := by
  obtain ⟨init, active, hSplit⟩ := h.exists_active
  have hMem : active ∈ log.segments := by simp [hSplit]
  refine Or.inr ⟨active.segment.baseOffset, (h.backed active hMem).isSome, ?_, ?_, ?_⟩
  · exact fun b hb => h.file_le hSplit (Or.inl hb)
  · exact fun b hb _ => h.paired b hb
  · exact fun b hb => h.file_le hSplit (Or.inr hb)

/-- Two segments with one base offset are the same. -/
theorem eq_of_base (h : Standing exact log d) {i j : Nat} {q : IndexedSegment}
    (hp : log.segments[i]? = some p) (hq : log.segments[j]? = some q)
    (hBase : p.segment.baseOffset = q.segment.baseOffset) : i = j := by
  have hNodup : (log.segments.map fun p => p.segment.baseOffset).Nodup :=
    h.sorted.imp fun hlt => Nat.ne_of_lt hlt
  have hEq : (log.segments.map fun p => p.segment.baseOffset)[i]? =
      (log.segments.map fun p => p.segment.baseOffset)[j]? := by
    rw [List.getElem?_map, List.getElem?_map, hp, hq, Option.map_some, Option.map_some, hBase]
  have hi : i < log.segments.length := (List.getElem?_eq_some_iff.mp hp).1
  have hj : j < log.segments.length := (List.getElem?_eq_some_iff.mp hq).1
  by_contra hNe
  rcases Nat.lt_or_gt_of_ne hNe with hLt | hLt
  · exact List.nodup_iff_getElem?_ne_getElem?.mp hNodup i j hLt (by simpa using hj) hEq
  · exact List.nodup_iff_getElem?_ne_getElem?.mp hNodup j i hLt (by simpa using hi) hEq.symm

/-- One segment was replaced by another one of the same name. -/
theorem replace (h : Standing exact log d) {i : Nat} (hp : log.segments[i]? = some p)
    (hBase : p'.segment.baseOffset = p.segment.baseOffset)
    (hIndex : p'.index.baseOffset = p.index.baseOffset) (hBacked : p'.segment.Backed exact d')
    (hNames : d.SameNames d')
    (hOthers : ∀ b, b ≠ p.segment.baseOffset → d'.get (.log b) = d.get (.log b)) :
    Standing exact { log with segments := log.segments.set i p' } d' := by
  have hMem := List.mem_of_getElem? hp
  have hBases : (log.segments.set i p').map (fun q => q.segment.baseOffset) =
      log.segments.map fun q => q.segment.baseOffset := by
    rw [List.map_set, hBase]
    apply List.ext_getElem?
    intro j
    rw [List.getElem?_set]
    split
    · next hij =>
      rw [← hij, List.getElem?_map, hp]
      obtain ⟨hi, -⟩ := List.getElem?_eq_some_iff.mp hp
      simp [hi]
    · rfl
  -- a segment is the new one or an old one of another name
  have hCases : ∀ q ∈ log.segments.set i p', q = p' ∨
      q ∈ log.segments ∧ q.segment.baseOffset ≠ p.segment.baseOffset := by
    intro q hq
    obtain ⟨j, hj⟩ := List.getElem?_of_mem hq
    rw [List.getElem?_set] at hj
    split at hj
    · split at hj
      · exact Or.inl (Option.some.inj hj).symm
      · cases hj
    · next hij =>
      exact Or.inr ⟨List.mem_of_getElem? hj, fun hEq => hij (h.eq_of_base hp hj hEq.symm)⟩
  refine ⟨?_, ?_, ?_, ?_, ?_, ?_, ?_⟩
  · dsimp only
    intro hNil
    have hLen := congrArg List.length hNil
    rw [List.length_set] at hLen
    exact h.nonempty (List.eq_nil_of_length_eq_zero hLen)
  · dsimp only
    rw [hBases]
    exact h.sorted
  · intro q hq
    rcases hCases q hq with rfl | ⟨hq, -⟩
    · rw [hIndex, h.indexBase p hMem, hBase]
    · exact h.indexBase q hq
  · intro q hq
    rcases hCases q hq with rfl | ⟨hq, hNe⟩
    · exact hBacked
    · exact (h.backed q hq).congr (hOthers _ hNe)
  · intro q hq
    rcases hCases q hq with rfl | ⟨hq, -⟩
    · rw [hBase]
      exact h.upTo p hMem
    · exact h.upTo q hq
  · intro b hb
    rw [hNames, hNames] at hb
    obtain ⟨q, hq, hLe⟩ := h.newest b hb
    have hIn : q.segment.baseOffset ∈ (log.segments.set i p').map fun q => q.segment.baseOffset := by
      rw [hBases]
      exact List.mem_map_of_mem hq
    obtain ⟨q', hq', hEq⟩ := List.mem_map.mp hIn
    exact ⟨q', hq', hEq ▸ hLe⟩
  · intro b
    rw [hNames, hNames]
    exact h.paired b

/-- A call on the file of one segment. -/
theorem segment_after (h : Standing exact log d) {i : Nat} (hp : log.segments[i]? = some p)
    {s' : Segment} (hAfter : p.segment.After exact d d' s') :
    Standing exact { log with segments := log.segments.set i { p with segment := s' } } d' := by
  obtain ⟨g, hUpd, -⟩ := hAfter.file
  refine h.replace hp hAfter.base rfl hAfter.backed
    (hUpd.sameNames (h.backed p (List.mem_of_getElem? hp)).isSome) ?_
  intro b hb
  exact hUpd.others _ (by simp [Segment.path, hb])

/-- A call on the index file of one segment. -/
theorem index_after (h : Standing exact log d) {i : Nat} (hp : log.segments[i]? = some p)
    {x' : SparseIndex} {g : File} (hBase : x'.baseOffset = p.index.baseOffset)
    (hUpd : d.Updates d' p.index.path g) :
    Standing exact { log with segments := log.segments.set i { p with index := x' } } d' := by
  have hMem := List.mem_of_getElem? hp
  refine h.replace hp rfl hBase ((h.backed p hMem).congr (hUpd.others _ ?_))
    (hUpd.sameNames (h.indexed hMem)) ?_
  · simp [Segment.path, SparseIndex.path]
  · intro b hb
    exact hUpd.others _ (by simp [SparseIndex.path])

/-- A call on the file of the active segment. -/
theorem active_segment (h : Standing exact log d) (hSplit : log.segments = init ++ [active])
    {s' : Segment} (hAfter : active.segment.After exact d d' s') :
    Standing exact { log with segments := init ++ [{ active with segment := s' }] } d' := by
  have hp : log.segments[init.length]? = some active := by simp [hSplit]
  have hSet : log.segments.set init.length { active with segment := s' } =
      init ++ [{ active with segment := s' }] := by simp [hSplit]
  rw [← hSet]
  exact h.segment_after hp hAfter

theorem active_index (h : Standing exact log d) (hSplit : log.segments = init ++ [active])
    {x' : SparseIndex} {g : File} (hBase : x'.baseOffset = active.index.baseOffset)
    (hUpd : d.Updates d' active.index.path g) :
    Standing exact { log with segments := init ++ [{ active with index := x' }] } d' := by
  have hp : log.segments[init.length]? = some active := by simp [hSplit]
  have hSet : log.segments.set init.length { active with index := x' } =
      init ++ [{ active with index := x' }] := by simp [hSplit]
  rw [← hSet]
  exact h.index_after hp hBase hUpd

end Standing

namespace StandsStill

variable {exact : Prop} {log : Log} {d d' : Store FileName} {init : List IndexedSegment}
  {active : IndexedSegment}

/-- Only the active segment can be named after the next offset. -/
theorem of_active (h : Standing exact log d) (hSplit : log.segments = init ++ [active])
    (hActive : active.segment.baseOffset = log.nextOffset → active.segment.size = 0) :
    StandsStill exact log d := by
  refine ⟨h, ?_⟩
  intro p hp hBase
  have hLe := h.le_active hSplit hp
  have hMem : active ∈ log.segments := by simp [hSplit]
  have hUp := h.upTo active hMem
  obtain ⟨i, hi⟩ := List.getElem?_of_mem hp
  obtain ⟨j, hj⟩ := List.getElem?_of_mem hMem
  have hSame : p.segment.baseOffset = active.segment.baseOffset := by omega
  obtain rfl := h.eq_of_base hi hj hSame
  obtain rfl := Option.some.inj (hi.symm.trans hj)
  exact hActive hBase

/-- A rotating log has all its segments below the next offset. -/
theorem below (h : StandsStill exact log d) (hSplit : log.segments = init ++ [active])
    (hFull : active.segment.size ≠ 0) {p : IndexedSegment} (hp : p ∈ log.segments) :
    p.segment.baseOffset < log.nextOffset := by
  have hMem : active ∈ log.segments := by simp [hSplit]
  have hLe := h.standing.le_active hSplit hp
  have hUp := h.standing.upTo active hMem
  have hNe : active.segment.baseOffset ≠ log.nextOffset := fun hEq => hFull (h.behind _ hMem hEq)
  omega

end StandsStill

/-! ## A new segment -/

/-- The segment that a rotation adds. -/
def Log.freshSegment (log : Log) : IndexedSegment :=
  ⟨⟨log.nextOffset, 0, some 0⟩, freshIndex log.nextOffset log.config.indexInterval⟩

section

variable {exact : Prop} {log : Log} {d : Store FileName}

theorem Standing.free (h : Standing exact log d)
    (hBelow : ∀ p ∈ log.segments, p.segment.baseOffset < log.nextOffset) :
    d.get (.log log.nextOffset) = none ∧ d.get (.index log.nextOffset) = none := by
  have hNone : ¬ ((d.get (.log log.nextOffset)).isSome ∨
      (d.get (.index log.nextOffset)).isSome) := by
    intro hSome
    obtain ⟨p, hp, hLe⟩ := h.newest _ hSome
    have := hBelow p hp
    omega
  rw [not_or] at hNone
  exact ⟨by simpa using hNone.1, by simpa using hNone.2⟩

/-- The directory with the `.log` file of the new segment only. -/
theorem Standing.orderly_put (h : Standing exact log d)
    (hBelow : ∀ p ∈ log.segments, p.segment.baseOffset < log.nextOffset) :
    Orderly (d.put (.log log.nextOffset) File.empty) := by
  have hOld : ∀ b, (d.get (.log b)).isSome ∨ (d.get (.index b)).isSome → b ≤ log.nextOffset := by
    intro b hb
    obtain ⟨p, hp, hLe⟩ := h.newest b hb
    have := hBelow p hp
    omega
  refine Or.inr ⟨log.nextOffset, ?_, ?_, ?_, ?_⟩
  · rw [Store.isSome_put]
    exact Or.inl rfl
  · intro b hb
    rw [Store.isSome_put] at hb
    rcases hb with hEq | hb
    · exact Nat.le_of_eq (FileName.log.inj hEq)
    · exact hOld b (Or.inl hb)
  · intro b hb hNe
    rw [Store.isSome_put] at hb ⊢
    rcases hb with hEq | hb
    · exact absurd (FileName.log.inj hEq) hNe
    · exact Or.inr (h.paired b hb)
  · intro b hb
    rw [Store.isSome_put] at hb
    rcases hb with hEq | hb
    · cases hEq
    · exact hOld b (Or.inr hb)

theorem Standing.rotated (h : Standing exact log d)
    (hBelow : ∀ p ∈ log.segments, p.segment.baseOffset < log.nextOffset) :
    StandsStill exact { log with segments := log.segments ++ [log.freshSegment] }
      ((d.put (.log log.nextOffset) File.empty).put (.index log.nextOffset) File.empty) := by
  have hNew : log.freshSegment ∈ log.segments ++ [log.freshSegment] := by simp
  refine StandsStill.of_active ⟨by simp, ?_, ?_, ?_, ?_, ?_, ?_⟩ rfl (fun _ => rfl)
  · dsimp only
    rw [List.map_append, List.pairwise_append]
    refine ⟨h.sorted, List.pairwise_singleton _ _, ?_⟩
    intro a ha b hb
    obtain ⟨p, hp, rfl⟩ := List.mem_map.mp ha
    obtain rfl : b = log.nextOffset := by simpa [Log.freshSegment] using hb
    exact hBelow p hp
  · intro p hp
    rcases List.mem_append.mp hp with hp | hp
    · exact h.indexBase p hp
    · rw [List.mem_singleton.mp hp]
      rfl
  · intro p hp
    rcases List.mem_append.mp hp with hp | hp
    · apply (h.backed p hp).congr
      have hNe : p.segment.baseOffset ≠ log.nextOffset := Nat.ne_of_lt (hBelow p hp)
      rw [Store.get_put_of_ne _ _ (by simp [Segment.path]),
        Store.get_put_of_ne _ _ (by simp [Segment.path, hNe])]
    · rw [List.mem_singleton.mp hp]
      have hFile : ((d.put (.log log.nextOffset) File.empty).put (.index log.nextOffset)
          File.empty).get (.log log.nextOffset) = some File.empty := by
        rw [Store.get_put_of_ne _ _ (by simp), Store.get_put_self]
      refine ⟨File.empty, hFile, fun _ => ⟨hFile, rfl, ?_⟩⟩
      intro pos hPos
      exact Option.some.inj hPos
  · intro p hp
    rcases List.mem_append.mp hp with hp | hp
    · exact h.upTo p hp
    · rw [List.mem_singleton.mp hp]
      exact Nat.le_refl _
  · intro b hb
    rw [Store.isSome_put, Store.isSome_put, Store.isSome_put, Store.isSome_put] at hb
    have hSplit : b = log.nextOffset ∨ (d.get (.log b)).isSome ∨ (d.get (.index b)).isSome := by
      simp only [FileName.log.injEq, FileName.index.injEq, reduceCtorEq, false_or] at hb
      rcases hb with (hb | hb) | hb | hb
      · exact Or.inl hb
      · exact Or.inr (Or.inl hb)
      · exact Or.inl hb
      · exact Or.inr (Or.inr hb)
    rcases hSplit with rfl | hb
    · exact ⟨_, hNew, Nat.le_refl _⟩
    · obtain ⟨p, hp, hLe⟩ := h.newest b hb
      exact ⟨p, List.mem_append_left _ hp, hLe⟩
  · intro b hb
    rw [Store.isSome_put, Store.isSome_put] at hb ⊢
    simp only [FileName.log.injEq, FileName.index.injEq, reduceCtorEq, false_or] at hb ⊢
    rcases hb with hb | hb
    · exact Or.inl hb
    · exact Or.inr (h.paired b hb)

end

end Kafko
