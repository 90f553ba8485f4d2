import Kafko.Storage.Weathered
import Kafko.Storage.Failures

/-!
# Appends after failures

A run in which any calls may fail: sessions are opened, also on what a failed open or a crash has
left, and operations return values or errors, panic, or stop the machine. If every operation of
the run has spared the index file named after the next offset (`Spares`), no rotation ever meets
a file of the name it needs, and an append during which no call fails is accepted.
-/

namespace Kafko

open Disk

/-! ## Opening -/

section

variable {σ : Type} {X : Crates} {name : FileName}

theorem Segment.keeps_open (base : Nat) : Fx.Keeps name (Segment.open_ base : LogIO σ Segment) :=
  (Fx.Keeps.onFile _ _ _ _).bind fun _ => (Fx.Keeps.onFile _ _ _ _).bind fun _ => Fx.Keeps.pure _

theorem SparseIndex.keeps_open (base interval : Nat) :
    Fx.Keeps name (SparseIndex.open_ base interval : LogIO σ SparseIndex) :=
  (Fx.Keeps.onFile _ _ _ _).bind fun _ => (Fx.Keeps.onFile _ _ _ _).bind fun _ => Fx.Keeps.pure _

theorem Segment.keeps_ensureCursor (pos : Nat) : Fx.Keeps name (Segment.ensureCursor pos) := by
  refine Fx.Keeps.get.bind fun s => ?_
  split
  · exact Fx.Keeps.pure _
  · exact (Fx.Keeps.onFile _ _ _ _).bind fun _ => Fx.Keeps.modify _

theorem Segment.keeps_readAt (filePos len : Nat) : Fx.Keeps name (Segment.readAt filePos len) :=
  Fx.Keeps.get.bind fun _ => (Segment.keeps_ensureCursor _).bind fun _ =>
    (Fx.Keeps.read _ _).bind fun _ => (Fx.Keeps.modify _).bind fun _ => Fx.Keeps.pure _

theorem SparseIndex.keeps_trackAppend (offset filePosition size : Nat) :
    Fx.Keeps name (SparseIndex.trackAppend offset filePosition size) := by
  refine Fx.Keeps.get.bind fun x => ?_
  have hEntry : Fx.Keeps name (SparseIndex.addEntry offset filePosition) := by
    refine Fx.Keeps.get.bind fun x => ?_
    dsimp only
    split
    · exact Fx.Keeps.panic _
    · split
      · exact Fx.Keeps.panic _
      · exact (Fx.Keeps.get.bind fun _ => Fx.Keeps.writing _ _ _ _).bind fun _ => Fx.Keeps.modify _
  split
  · exact hEntry.bind fun _ => Fx.Keeps.modify _
  · exact (Fx.Keeps.pure _).bind fun _ => Fx.Keeps.modify _

namespace Log

theorem keeps_openSealed (interval : Nat) (bases : List Nat) :
    Fx.Keeps name (openSealed interval bases : LogIO σ (List IndexedSegment)) := by
  induction bases with
  | nil => exact Fx.Keeps.pure _
  | cons base bases ih =>
    exact (Segment.keeps_open base).bind fun _ => (SparseIndex.keeps_open base interval).bind
      fun _ => ih.bind fun _ => Fx.Keeps.pure _

theorem keeps_readWhole : Fx.Keeps name readWhole :=
  Fx.Keeps.get.bind fun _ => (Segment.keeps_readAt _ _).bind fun _ => Fx.Keeps.pure _

theorem keeps_truncateTail : Fx.Keeps name (truncateTail X) := by
  have hScan : Fx.Keeps name (scanForLastValidPosition X) := by
    refine Fx.Keeps.get.bind fun s => ?_
    split
    · exact Fx.Keeps.pure _
    · exact keeps_readWhole.bind fun _ => Fx.Keeps.lift _
  refine hScan.bind fun last => Fx.Keeps.get.bind fun s => ?_
  split
  · exact Fx.Keeps.get.bind fun _ => (Fx.Keeps.onFile _ _ _ _).bind fun _ =>
      (Fx.Keeps.onFile _ _ _ _).bind fun _ => Fx.Keeps.modify _
  · exact Fx.Keeps.pure _

theorem keeps_replayLoop (base fuel : Nat) (slice : Bytes) (filePos count : Nat) :
    Fx.Keeps name (replayLoop X base fuel slice filePos count) := by
  induction fuel generalizing slice filePos count with
  | zero => exact Fx.Keeps.pure _
  | succ fuel ih =>
    rw [replayLoop]
    split
    · exact Fx.Keeps.pure _
    · refine (Fx.Keeps.lift _).bind fun p => ?_
      exact (SparseIndex.keeps_trackAppend _ _ _).bind fun _ => ih _ _ _

theorem keeps_replayRecordsToIndex (base : Nat) :
    Fx.Keeps name (replayRecordsToIndex X base) := by
  refine Fx.Keeps.get.bind fun p => ?_
  split
  · exact Fx.Keeps.pure _
  · exact keeps_readWhole.zoom.bind fun _ => (keeps_replayLoop _ _ _ _ _).zoom

/-- Recovery creates and removes no file but the newest index. -/
theorem keeps_recoverActiveSegment {base : Nat} (hNe : name ≠ .index base) (interval : Nat) :
    Fx.Keeps name (recoverActiveSegment X base interval : LogIO σ (IndexedSegment × Nat)) := by
  have hRemove : Fx.Keeps name (removeIfExists (.index base) : LogIO σ Unit) :=
    (Fx.Keeps.remove hNe).recover
  have hCreate : Fx.Keeps name (SparseIndex.create base interval : LogIO σ SparseIndex) :=
    (Fx.Keeps.createNew hNe).bind fun _ => Fx.Keeps.pure _
  refine (Segment.keeps_open base).bind fun s => keeps_truncateTail.withLocal.bind fun r => ?_
  exact hRemove.bind fun _ => hCreate.bind fun _ =>
    (keeps_replayRecordsToIndex base).withLocal.bind fun _ => Fx.Keeps.pure _

end Log

end

/-- The `.log` files in order, the newest one last. -/
theorem Newest.stored {d : Store FileName} {base : Nat} (h : Newest d base) :
    ∃ bases f, Stored d bases base f := by
  obtain ⟨f, hf⟩ := Option.isSome_iff_exists.mp h.log
  have hMem : ∀ b, b ∈ (d.names.filterMap Log.logBase).insertionSort (· ≤ ·) ↔
      (d.get (.log b)).isSome := by
    intro b
    rw [List.mem_insertionSort, Log.mem_logBases]
  have hNodup : ((d.names.filterMap Log.logBase).insertionSort (· ≤ ·)).Nodup :=
    (List.perm_insertionSort _ _).nodup_iff.mpr
      (d.nodup_names.filterMap fun a b n ha hb => Log.logBase_injective ha hb)
  have hSorted : ((d.names.filterMap Log.logBase).insertionSort (· ≤ ·)).Pairwise (· < ·) := by
    apply ((List.pairwise_insertionSort (· ≤ ·) _).and hNodup).imp
    rintro a b ⟨hLe, hNe⟩
    exact Nat.lt_of_le_of_ne hLe hNe
  obtain ⟨bases, last, hSplit⟩ : ∃ bases last,
      (d.names.filterMap Log.logBase).insertionSort (· ≤ ·) = bases ++ [last] :=
    ⟨_, _, (List.dropLast_concat_getLast (List.ne_nil_of_mem ((hMem base).mpr h.log))).symm⟩
  rw [hSplit] at hMem hSorted
  have hLast : last = base := by
    have hBelow := h.logs last ((hMem last).mp (by simp))
    rcases List.mem_append.mp ((hMem base).mpr h.log) with hBase | hBase
    · have := (List.pairwise_append.mp hSorted).2.2 base hBase last (by simp)
      omega
    · exact (List.mem_singleton.mp hBase).symm
  rw [hLast] at hMem hSorted
  refine ⟨bases, f, hSorted, fun b => (hMem b).symm, ?_, hf⟩
  intro b hb
  have hLt := (List.pairwise_append.mp hSorted).2.2 b hb base (by simp)
  exact h.paired b ((hMem b).mp (List.mem_append_left _ hb)) (Nat.ne_of_lt hLt)

namespace Log

variable {σ : Type} {st : σ} {exact : Prop} {env : Env FileName} {w : World FileName} {X : Crates}
  {log : Log}

theorem create_orderly (h : Fresh w.store) (config : LogConfig) :
    wp env (create config) (Post.always fun (_ : σ) w' => Orderly w'.store) st w := by
  have hHalf : Newest (w.store.put (.log 0) File.empty) 0 := by
    refine ⟨by simp, ?_, ?_, ?_⟩
    · intro b hb
      rw [Store.isSome_put, h] at hb
      simp only [FileName.log.injEq, Option.isSome_none, Bool.false_eq_true, or_false] at hb
      omega
    · intro b hb hNe
      rw [Store.isSome_put, h] at hb
      simp [hNe] at hb
    · intro b hb
      rw [Store.isSome_put, h] at hb
      simp at hb
  rw [create, wp_bind]
  refine wp_mkdir ?_ (fun _ _ _ => Or.inl h) (fun _ _ => Or.inl h)
  dsimp only
  rw [wp_bind, Segment.create, wp_bind]
  refine wp_createNew (h _) ?_ (fun _ _ _ => Or.inl h) (fun _ _ => Or.inl h)
  dsimp only
  rw [wp_pure]
  dsimp only
  rw [wp_bind, SparseIndex.create, wp_bind]
  refine wp_createNew ?_ ?_ (fun _ _ _ => Or.inr ⟨0, hHalf⟩) (fun _ _ => Or.inr ⟨0, hHalf⟩)
  · rw [Store.get_put_of_ne _ _ (by simp)]
    exact h _
  · refine Or.inr ⟨0, hHalf.congr ?_⟩
    intro name hNe
    dsimp only
    rw [Store.get_put_of_ne _ _ hNe]

/-- However opening a directory ends, it leaves it in order. -/
theorem open_orderly (h : Orderly w.store) (config : LogConfig) :
    wp env (open_ X config) (Post.always fun (_ : σ) w' => Orderly w'.store) st w := by
  rw [open_, wp_bind]
  refine wp_mkdir ?_ (fun _ _ _ => h) (fun _ _ => h)
  dsimp only
  rw [wp_bind, discoverSegmentOffsets, wp_bind]
  refine wp_readDir ?_ (fun _ _ _ => h) (fun _ _ => h)
  dsimp only
  rw [wp_pure]
  rcases h with hFresh | ⟨base, hNewest⟩
  · have hNone : w.store.names.filterMap logBase = [] := by
      rw [List.eq_nil_iff_forall_not_mem]
      intro b hb
      rw [mem_logBases, hFresh] at hb
      cases hb
    simp only [hNone, List.insertionSort_nil, List.getLast?_nil]
    exact create_orderly (w := ⟨w.store, w.tick + 1 + 1⟩) hFresh config
  · obtain ⟨bases, f, hStored⟩ := hNewest.stored
    simp only [hStored.discovered, List.getLast?_concat, List.dropLast_concat]
    have hKeeps : ∀ name, name ≠ .index base → Fx.Keeps name (do
        let ps ← openSealed config.indexInterval bases
        let r ← recoverActiveSegment X base config.indexInterval
        pure ⟨config, ps ++ [r.1], base + r.2⟩ : LogIO σ Log) := by
      intro name hNe
      exact (keeps_openSealed _ _).bind fun _ =>
        (keeps_recoverActiveSegment hNe _).bind fun _ => Fx.Keeps.pure _
    apply wp_always_mono (Fx.Keeps.always hKeeps)
    intro st' w' hEnd
    exact Or.inr ⟨base, hNewest.congr hEnd⟩

end Log

/-- A log that agrees with its directory stands. -/
theorem Live.stands {exact : Prop} {log : Log} {d : Store FileName} {L : Layout}
    (h : Live log d L) : StandsStill exact log d := by
  obtain ⟨init, active, f, hParts⟩ := h.parts
  have hDisk := h.disk
  have hBases := Log.baseOffsets_eq h.loaded
  have hLoaded : ∀ p ∈ log.segments, ∃ c ∈ L.allChunks, Loaded d p c := by
    intro p hp
    obtain ⟨i, hi⟩ := List.getElem?_of_mem hp
    obtain ⟨c, hc, hLoad⟩ := loaded_at h.loaded hi
    exact ⟨c, List.mem_of_getElem? hc, hLoad⟩
  have hLe : ∀ c ∈ L.allChunks, c.base ≤ L.active.base := by
    intro c hc
    rcases List.mem_append.mp hc with hc | hc
    · have hBounds := hDisk.chain.mem_bounds hc
      omega
    · rw [List.mem_singleton.mp hc]
  have hMem : active ∈ log.segments := by simp [hParts.split]
  refine StandsStill.of_active ⟨?_, ?_, ?_, ?_, ?_, ?_, ?_⟩ hParts.split ?_
  · simp [hParts.split]
  · rw [hBases]
    exact List.pairwise_map.mpr (Layout.allChunks_sorted hDisk.chain)
  · intro p hp
    obtain ⟨c, -, hLoad⟩ := hLoaded p hp
    rw [hLoad.indexBase, hLoad.segmentBase]
  · intro p hp
    obtain ⟨c, -, hLoad⟩ := hLoaded p hp
    obtain ⟨g, hg, -⟩ := hLoad.segment
    exact ⟨g, hg.file, fun _ => hg⟩
  · intro p hp
    obtain ⟨c, hc, hLoad⟩ := hLoaded p hp
    have := hLe c hc
    rw [hLoad.segmentBase, h.nextOffset, Layout.next, Chunk.next]
    omega
  · intro b hb
    refine ⟨active, hMem, ?_⟩
    rw [hParts.base]
    rcases hb with hb | hb
    · obtain ⟨c, hc, rfl⟩ := List.mem_map.mp ((hDisk.isSome_log b).mp hb)
      exact hLe c hc
    · exact hDisk.indexes b hb
  · intro b hb
    have hIn := (hDisk.isSome_log b).mp hb
    rw [← hBases] at hIn
    obtain ⟨p, hp, rfl⟩ := List.mem_map.mp hIn
    obtain ⟨c, -, hLoad⟩ := hLoaded p hp
    obtain ⟨x, hx, -⟩ := hLoad.index.file
    rw [SparseIndex.path, hLoad.indexBase, ← hLoad.segmentBase] at hx
    rw [hx]
    rfl
  · intro hBase
    rw [hParts.base, h.nextOffset, Layout.next, Chunk.next] at hBase
    have hNil : L.active.frames = [] := List.eq_nil_of_length_eq_zero (by omega)
    rw [hParts.segment.size, hParts.data, hNil]
    rfl

namespace Log

variable {exact : Prop} {env : Env FileName} {w : World FileName} {X : Crates} {log : Log}

theorem Opened.stands {d d' : Store FileName} {config : LogConfig} {bases : List Nat} {base : Nat}
    {kept : Bytes} {ns : List Nat} {f : File} (h : Opened d d' config bases base kept ns log)
    (hStored : Stored d bases base f) (hNewest : Newest d base) (hCount : ns = [] → kept = []) :
    StandsStill exact log d' := by
  have hNames : ∀ name, name ≠ .index base → (d'.get name).isSome = (d.get name).isSome := by
    intro name hNe
    by_cases hLog : name = .log base
    · obtain ⟨g, hg, -⟩ := h.active
      rw [hLog, hg, hStored.active]
      rfl
    · have hSame := congrArg Option.isSome (h.others name hLog hNe)
      rwa [Option.isSome_map, Option.isSome_map] at hSame
  have hNewest' := hNewest.congr hNames
  obtain ⟨init, active, hSplit⟩ : ∃ init active, log.segments = init ++ [active] := by
    have hNe : log.segments ≠ [] := by
      intro hNil
      have hContent := h.segments
      rw [hNil] at hContent
      simp at hContent
    exact ⟨_, _, (List.dropLast_concat_getLast hNe).symm⟩
  have hContents := h.segments
  rw [hSplit, List.map_append, List.map_singleton] at hContents
  obtain ⟨hInit, hActive⟩ := List.append_inj' hContents rfl
  have hLast : active.content = (base, kept.length, _) := List.cons.inj hActive |>.1
  have hBase : active.segment.baseOffset = base := congrArg Prod.fst hLast
  have hSize : active.segment.size = kept.length := congrArg (fun c => c.2.1) hLast
  have hIndexBase : active.index.baseOffset = base := by
    have hIndex : active.index = _ := congrArg (fun c => c.2.2) hLast
    rw [hIndex, SparseIndex.trackAll_baseOffset]
    rfl
  have hInitBases : init.map (fun p => p.segment.baseOffset) = bases := by
    have hFirst := congrArg (List.map Prod.fst) hInit
    rw [List.map_map, List.map_map] at hFirst
    have hIds : bases.map (Prod.fst ∘ sealedContent d config.indexInterval) = bases.map id := rfl
    rw [hIds, List.map_id] at hFirst
    exact hFirst
  have hBases : log.segments.map (fun p => p.segment.baseOffset) = bases ++ [base] := by
    rw [hSplit, List.map_append, hInitBases, List.map_singleton, hBase]
  have hLe : ∀ p ∈ log.segments, p.segment.baseOffset ≤ base := by
    intro p hp
    have hIn : p.segment.baseOffset ∈ bases ++ [base] := by
      rw [← hBases]
      exact List.mem_map_of_mem hp
    exact hNewest.logs _ ((hStored.logs _).mpr hIn)
  have hMem : active ∈ log.segments := by simp [hSplit]
  refine StandsStill.of_active ⟨by simp [hSplit], ?_, ?_, ?_, ?_, ?_, ?_⟩ hSplit ?_
  · rw [hBases]
    exact hStored.sorted
  · intro p hp
    rw [hSplit] at hp
    rcases List.mem_append.mp hp with hp | hp
    · have hIn := List.mem_map_of_mem (f := IndexedSegment.content) hp
      rw [hInit] at hIn
      obtain ⟨b, -, hEq⟩ := List.mem_map.mp hIn
      have hFirst : b = p.segment.baseOffset := congrArg Prod.fst hEq
      have hIndex : _ = p.index := congrArg (fun c => c.2.2) hEq
      rw [← hIndex, ← hFirst]
      rfl
    · rw [List.mem_singleton.mp hp, hIndexBase, hBase]
  · intro p hp
    obtain ⟨g, hg⟩ := h.handles p hp
    exact ⟨g, hg.file, fun _ => hg⟩
  · intro p hp
    rw [h.nextOffset]
    exact (hLe p hp).trans (Nat.le_add_right _ _)
  · intro b hb
    refine ⟨active, hMem, ?_⟩
    rw [hBase]
    rcases hb with hb | hb
    · exact hNewest'.logs b hb
    · exact hNewest'.indexes b hb
  · intro b hb
    by_cases hNe : b = base
    · obtain ⟨x, hx, -⟩ := h.index
      rw [hNe, hx]
      rfl
    · exact hNewest'.paired b hb hNe
  · intro hNext
    rw [hBase, h.nextOffset] at hNext
    rw [hSize, hCount (List.eq_nil_of_length_eq_zero (by omega))]
    rfl

theorem open_stands (h : Orderly w.store) {config : LogConfig} {w' : World FileName}
    (hRun : open_ X config env () w = (.ok log, (), w')) : StandsStill exact log w'.store := by
  rcases h with hFresh | ⟨base, hNewest⟩
  · have hSpec : wp env (open_ X config) (createPost env config ()) () w :=
      open_fresh_spec hFresh config
    exact (ok_of_wp hSpec hRun).2.2.stands
  · obtain ⟨bases, f, hStored⟩ := hNewest.stored
    obtain ⟨-, kept, ns, hSalvage, hOpened⟩ := ok_of_wp (open_run hStored config) hRun
    obtain ⟨-, hReplay, -⟩ := salvage_eq_some.mp hSalvage
    apply hOpened.stands hStored hNewest
    intro hNil
    rw [hNil] at hReplay
    have hLen : (zeroFilled (env.delivered (replayTick (scanTick w.tick bases.length)
        f.data.length kept) (.log base) kept) (f.data.take kept)).length ≤ kept := by
      rw [zeroFilled_length]
      exact List.length_take_le _ _
    obtain ⟨fs, -, hFlat, hSizes⟩ := recordSizes_ok hLen hReplay
    obtain rfl : fs = [] := List.map_eq_nil_iff.mp hSizes
    have hZero := congrArg List.length hFlat
    rw [zeroFilled_length] at hZero
    exact List.eq_nil_of_length_eq_zero hZero.symm

end Log

/-! ## Runs -/

section

variable {exact : Prop} {X : Crates} {env : Env FileName} {log : Log} {w : World FileName}

/-- What an operation on a standing log may end in. -/
def execStandPost (exact : Prop) : Post FileName KafkoError Log Reply where
  ok := fun _ log' w' => StandsStill exact log' w'.store
  err := fun _ log' w' => StandsStill exact log' w'.store
  panic := fun _ _ w' => Orderly w'.store
  crash := fun _ w' => Orderly w'.store

theorem exec_stands (hExact : exact → env.Smooth) (h : StandsStill exact log w.store)
    (hSpares : Spares env log) (op : LogOp) :
    wp env (op.exec X) (execStandPost exact) log w := by
  cases op with
  | append r =>
    rw [LogOp.exec]
    refine wp_bind_of (Log.append_stands hExact h hSpares X r) ?_ ?_ ?_ ?_
    · exact fun _ _ _ hStands => hStands
    · exact fun _ _ _ hErr => hErr.2
    · exact fun _ _ _ hPanic => hPanic.2
    · exact fun _ _ hCrash => hCrash.2
  | appendBatch rs =>
    rw [LogOp.exec]
    refine wp_bind_of (Log.appendBatch_stands hExact h hSpares X rs) ?_ ?_ ?_ ?_
    · exact fun _ _ _ hStands => hStands
    · exact fun _ _ _ hErr => hErr.2
    · exact fun _ _ _ hPanic => hPanic.2
    · exact fun _ _ hCrash => hCrash.2
  | sync =>
    rw [LogOp.exec]
    refine wp_bind_of (Log.sync_stands h) ?_ ?_ (fun _ _ _ hF => hF.elim) ?_
    · rintro - log' w' ⟨rfl, hStands⟩
      exact hStands
    · rintro e log' w' ⟨-, rfl, hStands⟩
      exact hStands
    · exact fun _ _ hCrash => hCrash.2
  | readRecordAt offset =>
    rw [LogOp.exec]
    refine wp_bind_of (Log.readRecordAt_stands h offset) ?_ ?_ ?_ ?_
    · exact fun _ _ _ hStands => hStands
    · exact fun _ _ _ hStands => hStands
    · exact fun _ _ _ hStands => hStands.standing.orderly
    · exact fun _ _ hStands => hStands.standing.orderly
  | applyRetention =>
    rw [LogOp.exec]
    refine wp_bind_of (Log.applyRetention_stands h) ?_ ?_ (fun _ _ _ hF => hF.elim) ?_
    · exact fun _ _ _ hStands => hStands
    · exact fun _ _ _ hErr => hErr.2
    · exact fun _ _ hCrash => hCrash.2

theorem execStandPost.orderly {m : LogIO Log Reply} (h : wp env m (execStandPost exact) log w)
    {r : Res KafkoError Reply} {log' : Log} {w' : World FileName}
    (hRun : m env log w = (r, log', w')) : Orderly w'.store := by
  unfold wp at h
  rw [hRun] at h
  cases r with
  | ok reply => exact StandsStill.standing h |>.orderly
  | err e => exact StandsStill.standing h |>.orderly
  | panic p => exact h
  | crash => exact h

/-- What a process that has ended leaves: the directory as it was, or what a crash spares of it. -/
def Left (d d' : Store FileName) : Prop := d' = d ∨ d.Survives d'

theorem Left.orderly {d d' : Store FileName} (h : Left d d') (hOrderly : Orderly d) :
    Orderly d' := by
  rcases h with rfl | hSurvives
  · exact hOrderly
  · exact hOrderly.congr hSurvives.names

/-- Runs in which any call may fail and the machine may stop, on a directory that was empty at
first. Without a log nobody has the directory open. The operations are those that meet a
condition on what fails during them. -/
inductive Weathered (X : Crates) (Meets : Env FileName → Log → Prop) :
    Option Log → World FileName → Prop
  | fresh {w : World FileName} (hFresh : Fresh w.store) : Weathered X Meets none w
  | opened {env : Env FileName} {config : LogConfig} {log : Log} {w w' : World FileName}
      (hBefore : Weathered X Meets none w)
      (hRun : Log.open_ X config env () w = (.ok log, (), w')) : Weathered X Meets (some log) w'
  | notOpened {env : Env FileName} {config : LogConfig} {r : Res KafkoError Log}
      {w w' w'' : World FileName} (hBefore : Weathered X Meets none w)
      (hRun : Log.open_ X config env () w = (r, (), w')) (hLeft : Left w'.store w''.store) :
      Weathered X Meets none w''
  | answered {env : Env FileName} {op : LogOp} {reply : Reply} {log log' : Log}
      {w w' : World FileName} (hBefore : Weathered X Meets (some log) w) (hMeets : Meets env log)
      (hRun : op.exec X env log w = (.ok reply, log', w')) : Weathered X Meets (some log') w'
  | failed {env : Env FileName} {op : LogOp} {e : KafkoError} {log log' : Log}
      {w w' : World FileName} (hBefore : Weathered X Meets (some log) w) (hMeets : Meets env log)
      (hRun : op.exec X env log w = (.err e, log', w')) : Weathered X Meets (some log') w'
  | ended {env : Env FileName} {op : LogOp} {r : Res KafkoError Reply} {log log' : Log}
      {w w' w'' : World FileName} (hBefore : Weathered X Meets (some log) w)
      (hMeets : Meets env log) (hRun : op.exec X env log w = (r, log', w'))
      (hLeft : Left w'.store w''.store) : Weathered X Meets none w''
  | closed {log : Log} {w w' : World FileName} (hBefore : Weathered X Meets (some log) w)
      (hLeft : Left w.store w'.store) : Weathered X Meets none w'

/-- A directory in order, with a log that stands if it is open. -/
def StandsOrOrderly (exact : Prop) : Option Log → Store FileName → Prop
  | none, d => Orderly d
  | some log, d => StandsStill exact log d

theorem Weathered.stands {Meets : Env FileName → Log → Prop}
    (hSpares : ∀ env log, Meets env log → Spares env log)
    (hExact : ∀ env log, Meets env log → exact → env.Smooth) {state : Option Log}
    (h : Weathered X Meets state w) : StandsOrOrderly exact state w.store := by
  have hSpec : ∀ {env : Env FileName} {log : Log} {w : World FileName}, Meets env log →
      StandsStill exact log w.store → ∀ op : LogOp, wp env (op.exec X) (execStandPost exact) log w :=
    fun hMeets hStands op => exec_stands (hExact _ _ hMeets) hStands (hSpares _ _ hMeets) op
  induction h with
  | fresh hFresh => exact Or.inl hFresh
  | opened _ hRun ih => exact Log.open_stands ih hRun
  | notOpened _ hRun hLeft ih =>
    exact hLeft.orderly (end_of_always (Log.open_orderly ih _) hRun)
  | answered _ hMeets hRun ih => exact ok_of_wp (hSpec hMeets ih _) hRun
  | @failed env op e log log' w w' _ hMeets hRun ih =>
    have hStep := hSpec hMeets ih op
    rw [wp, hRun] at hStep
    exact hStep
  | ended _ hMeets hRun hLeft ih =>
    exact hLeft.orderly (execStandPost.orderly (hSpec hMeets ih _) hRun)
  | closed _ hLeft ih => exact hLeft.orderly (StandsStill.standing ih).orderly

/-- If no operation of a run has lost the index file named after the next offset, an append
during which no call fails is accepted. -/
theorem append_after_failures_accepted (hRun : Weathered X Spares (some log) w) (op : LogOp)
    (hAppend : (∃ r, op = .append r) ∨ ∃ rs, op = .appendBatch rs) (hSmooth : env.Smooth)
    (hCodec : log.config.compression.isAvailable X = true) (hFit : op.entriesFit X log = true) :
    ∃ reply log' w', op.exec X env log w = (.ok reply, log', w') := by
  have hStands : StandsStill False log w.store :=
    hRun.stands (fun _ _ hSpares => hSpares) fun _ _ _ hFalse => hFalse.elim
  have hSpares := spares_of_smooth hSmooth log
  have hSpec : wp env (op.exec X) (standPost False env X log op) log w := by
    rcases hAppend with ⟨r, rfl⟩ | ⟨rs, rfl⟩
    · rw [LogOp.exec]
      exact wp_bind_of (Log.append_stands False.elim hStands hSpares X r) (fun _ _ _ hOk => hOk)
        (fun _ _ _ hE => hE) (fun _ _ _ hP => hP) (fun _ _ hC => hC)
    · rw [LogOp.exec]
      exact wp_bind_of (Log.appendBatch_stands False.elim hStands hSpares X rs)
        (fun _ _ _ hOk => hOk) (fun _ _ _ hE => hE) (fun _ _ _ hP => hP) (fun _ _ hC => hC)
  rcases hExec : op.exec X env log w with ⟨r, log', w'⟩
  rw [wp, hExec] at hSpec
  cases r with
  | ok reply => exact ⟨reply, log', w', rfl⟩
  | err e =>
    rcases hSpec.1 with hNone | hRough
    · rw [hCodec] at hNone
      cases hNone
    · exact absurd hSmooth hRough
  | panic p =>
    have hUnfit := hSpec.1
    rw [hFit] at hUnfit
    cases hUnfit
  | crash => exact absurd hSmooth hSpec.1

end

/-- The fsync of a rotation fails; the next append rotates and is accepted. -/
theorem append_after_failures_accepted_fsync :
    ∃ log w, Weathered Crates.uncompressed Spares (some log) w ∧ log.segments.length = 1 ∧
      ∃ reply log' w', LogOp.exec Crates.uncompressed (.append (sampleRecord 3)) Env.quiet log w =
        (.ok reply, log', w') := by
  have hQuiet : ∀ log, Spares Env.quiet log := spares_of_smooth Env.quiet_quiet.smooth
  have hSynced : ∀ log, Spares fsyncFails log := by
    intro log
    refine ⟨?_, ?_⟩
    · rintro tick ⟨kind, k, hFail⟩
      cases hFail
    · rintro tick bytes ⟨kind, k, hFail⟩
      cases hFail
  have hNew := @Weathered.opened Crates.uncompressed Spares Env.quiet smallSegments _
    ⟨Store.empty, 0⟩ _ (Weathered.fresh fun name => Store.get_empty name) rfl
  have hTwo := @Weathered.answered _ _ Env.quiet (.appendBatch [sampleRecord 1, sampleRecord 2])
    _ _ _ _ _ hNew (hQuiet _) rfl
  have hFailed := @Weathered.failed _ _ fsyncFails (.append (sampleRecord 3)) _ _ _ _ _ hTwo
    (hSynced _) rfl
  exact ⟨_, _, hFailed, rfl, append_after_failures_accepted hFailed _ (Or.inl ⟨_, rfl⟩)
    Env.quiet_quiet.smooth rfl rfl⟩

/-- No `.index` file can be created, and nothing else fails. -/
def indexCreationFails : Env FileName where
  outcome _ call :=
    match call with
    | .createNew (.index _) => .fail .storageFull 0
    | _ => .ok
  clock _ := 0
  mtime _ _ := 0

/-- The rotation before the third record creates its `.log` file and fails to create the index.
The next append rotates again, to the same name, and finds the file in its way. -/
theorem append_meets_leftover_file :
    ∃ log w log' w', Weathered Crates.uncompressed (fun _ _ => True) (some log) w ∧
      log.config.compression.isAvailable Crates.uncompressed = true ∧
      LogOp.entriesFit Crates.uncompressed log (.append (sampleRecord 3)) = true ∧
      LogOp.exec Crates.uncompressed (.append (sampleRecord 3)) Env.quiet log w =
        (.err (.io .alreadyExists), log', w') := by
  have hNew := @Weathered.opened Crates.uncompressed (fun _ _ => True) Env.quiet smallSegments _
    ⟨Store.empty, 0⟩ _ (Weathered.fresh fun name => Store.get_empty name) rfl
  have hTwo := @Weathered.answered _ _ Env.quiet (.appendBatch [sampleRecord 1, sampleRecord 2])
    _ _ _ _ _ hNew trivial rfl
  have hHalf := @Weathered.failed _ _ indexCreationFails (.append (sampleRecord 3)) _ _ _ _ _ hTwo
    trivial rfl
  exact ⟨_, _, _, _, hHalf, rfl, rfl, rfl⟩

end Kafko
