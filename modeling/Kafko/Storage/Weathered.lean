import Kafko.Storage.Standing

/-!
# Operations that fail, and what they leave

One rule for each operation, for any environment. Whatever fails, the log stands afterwards, as
long as the index file that a rotation would create next, and that the first record of a segment
would write to, is spared (`Spares`). If no call fails either, an append returns a value or its
error has nothing to do with files.
-/

namespace Kafko

open Disk

/-- The creation of the index file named after the next offset does not fail, and neither does a
write to it. -/
structure Spares (env : Env FileName) (log : Log) : Prop where
  created : ∀ tick, ¬ env.Fails tick (.createNew (.index log.nextOffset))
  written : ∀ tick bytes, ¬ env.Fails tick (.append (.index log.nextOffset) bytes)

theorem spares_of_smooth {env : Env FileName} (h : env.Smooth) (log : Log) : Spares env log := by
  refine ⟨?_, ?_⟩
  · rintro tick ⟨kind, k, hFail⟩
    exact h.not_fail hFail
  · rintro tick bytes ⟨kind, k, hFail⟩
    exact h.not_fail hFail

theorem Spares.congr {env : Env FileName} {log log' : Log} (h : Spares env log)
    (hNext : log'.nextOffset = log.nextOffset) : Spares env log' := by
  refine ⟨?_, ?_⟩
  · rw [hNext]
    exact h.created
  · rw [hNext]
    exact h.written

namespace Log

open IndexedSegment

variable {exact : Prop} {env : Env FileName} {log : Log} {w : World FileName}
  {init : List IndexedSegment} {active : IndexedSegment} {X : Crates}

/-! ## Syncing and rotating -/

theorem syncSegment_stands (h : StandsStill exact log w.store) :
    wp env (onActive (onSegment Segment.sync))
      { ok := fun _ log' w' => log' = log ∧ StandsStill exact log w'.store
        err := fun _ log' w' => ¬ env.Smooth ∧ log' = log ∧ StandsStill exact log w'.store
        panic := fun _ _ _ => False
        crash := fun _ w' => ¬ env.Smooth ∧ Orderly w'.store } log w := by
  obtain ⟨init, active, hSplit⟩ := h.standing.exists_active
  have hMem : active ∈ log.segments := by simp [hSplit]
  have hSame : { log with segments := init ++ [active] } = log := set_active hSplit
  rw [wp_onActive hSplit, onSegment, wp_zoom]
  refine wp_mono (Segment.sync_after (h.standing.backed active hMem)) ?_ ?_
    (fun _ _ _ hF => hF) ?_
  · rintro - s' w' ⟨rfl, hAfter⟩
    have hStanding := h.standing.active_segment hSplit hAfter
    exact ⟨hSame, hSame ▸ hStanding, h.behind⟩
  · rintro e s' w' ⟨hRough, rfl, hw⟩
    refine ⟨hRough, hSame, ?_⟩
    rw [hw]
    exact h
  · rintro s' w' ⟨hRough, -, hw⟩
    refine ⟨hRough, ?_⟩
    rw [hw]
    exact h.standing.orderly

theorem syncIndex_stands (h : StandsStill exact log w.store) :
    wp env (onActive (onIndex SparseIndex.sync))
      { ok := fun _ log' w' => log' = log ∧ StandsStill exact log w'.store
        err := fun _ log' w' => ¬ env.Smooth ∧ log' = log ∧ StandsStill exact log w'.store
        panic := fun _ _ _ => False
        crash := fun _ w' => ¬ env.Smooth ∧ Orderly w'.store } log w := by
  obtain ⟨init, active, hSplit⟩ := h.standing.exists_active
  have hMem : active ∈ log.segments := by simp [hSplit]
  have hSame : { log with segments := init ++ [active] } = log := set_active hSplit
  rw [wp_onActive hSplit, onIndex, wp_zoom]
  refine wp_mono (SparseIndex.sync_after (h.standing.indexed hMem)) ?_ ?_ (fun _ _ _ hF => hF) ?_
  · rintro - x' w' ⟨rfl, g, hUpd⟩
    have hStanding := h.standing.active_index hSplit rfl hUpd
    exact ⟨hSame, hSame ▸ hStanding, h.behind⟩
  · rintro e x' w' ⟨hRough, rfl, hw⟩
    refine ⟨hRough, hSame, ?_⟩
    rw [hw]
    exact h
  · rintro x' w' ⟨hRough, -, hw⟩
    refine ⟨hRough, ?_⟩
    rw [hw]
    exact h.standing.orderly

theorem sync_stands (h : StandsStill exact log w.store) :
    wp env sync
      { ok := fun _ log' w' => log' = log ∧ StandsStill exact log w'.store
        err := fun _ log' w' => ¬ env.Smooth ∧ log' = log ∧ StandsStill exact log w'.store
        panic := fun _ _ _ => False
        crash := fun _ w' => ¬ env.Smooth ∧ Orderly w'.store } log w := by
  rw [sync]
  refine wp_bind_of (syncSegment_stands h) ?_ (fun _ _ _ hE => hE) (fun _ _ _ hF => hF)
    (fun _ _ hC => hC)
  rintro - log' w' ⟨rfl, hStands⟩
  exact syncIndex_stands hStands

/-- A rotation of a segment that is not empty meets no file of the new name. -/
theorem rotate_stands (h : StandsStill exact log w.store) (hSpares : Spares env log)
    (hSplit : log.segments = init ++ [active]) (hFull : active.segment.size ≠ 0) :
    wp env rotateActiveSegment
      { ok := fun _ log' w' => log' = { log with segments := log.segments ++ [log.freshSegment] } ∧
          StandsStill exact log' w'.store
        err := fun _ log' w' => ¬ env.Smooth ∧ log' = log ∧ StandsStill exact log w'.store
        panic := fun _ _ _ => False
        crash := fun _ w' => ¬ env.Smooth ∧ Orderly w'.store } log w := by
  rw [rotateActiveSegment]
  refine wp_bind_of (syncSegment_stands h) ?_ (fun _ _ _ hE => hE) (fun _ _ _ hF => hF)
    (fun _ _ hC => hC)
  rintro - log₁ w₁ ⟨rfl, h₁⟩
  refine wp_bind_of (syncIndex_stands h₁) ?_ (fun _ _ _ hE => hE) (fun _ _ _ hF => hF)
    (fun _ _ hC => hC)
  rintro - log₂ w₂ ⟨rfl, h₂⟩
  have hBelow : ∀ p ∈ log₂.segments, p.segment.baseOffset < log₂.nextOffset :=
    fun p hp => h₂.below hSplit hFull hp
  obtain ⟨hLog, hIndex⟩ := h₂.standing.free hBelow
  rw [wp_get_bind, wp_bind, Segment.create, wp_bind]
  refine wp_createNew hLog ?_ ?_ ?_
  · simp only [wp_pure]
    rw [wp_bind, SparseIndex.create, wp_bind]
    refine wp_createNew ?_ ?_ ?_ ?_
    · rw [Store.get_put_of_ne _ _ (by simp)]
      exact hIndex
    · simp only [wp_pure]
      rw [wp_modify]
      exact ⟨rfl, h₂.standing.rotated hBelow⟩
    · intro kind k hFail
      exact absurd ⟨kind, k, hFail⟩ (hSpares.created _)
    · intro k hCrash
      exact ⟨fun hSmooth => hSmooth.not_crash hCrash, h₂.standing.orderly_put hBelow⟩
  · intro kind k hFail
    exact ⟨fun hSmooth => hSmooth.not_fail hFail, rfl, h₂⟩
  · intro k hCrash
    exact ⟨fun hSmooth => hSmooth.not_crash hCrash, h₂.standing.orderly⟩

/-! ## Appending -/

/-- Tracking the records of a batch fails only if a write to the active index fails. -/
theorem trackBatch_stands (h : Standing exact log w.store)
    (hSplit : log.segments = init ++ [active]) (ns : List Nat) (offset filePos : Nat) :
    wp env (trackBatch ns offset filePos)
      { ok := fun _ log' w' =>
          ∃ x, log' = { log with segments := init ++ [{ active with index := x }] } ∧
          Standing exact log' w'.store
        err := fun _ log' w' => ¬ env.Smooth ∧
          (∃ tick bytes, env.Fails tick (.append (.index active.segment.baseOffset) bytes)) ∧
          ∃ x, log' = { log with segments := init ++ [{ active with index := x }] } ∧
            Standing exact log' w'.store
        panic := fun _ _ w' => active.index.fitsAll offset filePos ns = false ∧ Orderly w'.store
        crash := fun _ w' => ¬ env.Smooth ∧ Orderly w'.store } log w := by
  induction ns generalizing log w active offset filePos with
  | nil => exact ⟨active.index, (set_active hSplit).symm, h⟩
  | cons n ns ih =>
    have hMem : active ∈ log.segments := by simp [hSplit]
    have hBase : (active.index.track offset filePos n).baseOffset = active.index.baseOffset := by
      simp
    rw [trackBatch]
    refine wp_bind_of (P := {
      ok := fun _ log' w' => active.index.fitsEntry offset filePos = true ∧
        log' = { log with segments :=
          init ++ [{ active with index := active.index.track offset filePos n }] } ∧
        Standing exact log' w'.store
      err := fun _ log' w' => ¬ env.Smooth ∧
        (∃ tick bytes, env.Fails tick (.append (.index active.segment.baseOffset) bytes)) ∧
        log' = { log with segments := init ++ [active] } ∧ Standing exact log' w'.store
      panic := fun _ _ w' => active.index.fitsEntry offset filePos = false ∧ Orderly w'.store
      crash := fun _ w' => ¬ env.Smooth ∧ Orderly w'.store }) ?_ ?_ ?_ ?_ (fun _ _ hC => hC)
    · rw [wp_onActive hSplit, onIndex, wp_zoom]
      refine wp_mono (SparseIndex.trackAppend_after (h.indexed hMem) offset filePos n) ?_ ?_ ?_ ?_
      · rintro - x w' ⟨hFits, rfl, g, hUpd⟩
        exact ⟨hFits, rfl, h.active_index hSplit hBase hUpd⟩
      · rintro e x w' ⟨hRough, hFails, rfl, g, hUpd⟩
        rw [h.indexPath hMem] at hFails
        exact ⟨hRough, hFails, rfl, h.active_index hSplit rfl hUpd⟩
      · rintro m x w' ⟨hUnfit, hw⟩
        refine ⟨hUnfit, ?_⟩
        rw [hw]
        exact h.orderly
      · rintro x w' ⟨hRough, g, hUpd⟩
        exact ⟨hRough, (h.active_index hSplit hBase hUpd).orderly⟩
    · rintro - log' w' ⟨hFits, rfl, hStanding⟩
      refine wp_mono (ih hStanding rfl (offset + 1) (filePos + n)) ?_ ?_ ?_ (fun _ _ hC => hC)
      · rintro - log'' w'' ⟨x, rfl, hStanding'⟩
        exact ⟨x, rfl, hStanding'⟩
      · rintro e log'' w'' ⟨hRough, hFails, x, rfl, hStanding'⟩
        exact ⟨hRough, hFails, x, rfl, hStanding'⟩
      · rintro m log'' w'' ⟨hUnfit, hOrderly⟩
        refine ⟨?_, hOrderly⟩
        rw [SparseIndex.fitsAll, hUnfit, Bool.and_false]
    · rintro e log' w' ⟨hRough, hFails, rfl, hStanding⟩
      exact ⟨hRough, hFails, active.index, rfl, hStanding⟩
    · rintro m log' w' ⟨hUnfit, hOrderly⟩
      refine ⟨?_, hOrderly⟩
      rw [SparseIndex.fitsAll, hUnfit, Bool.false_and]

/-- The index an append writes to: that of the active segment, or a fresh one if it rotates. -/
def writeIndex (log : Log) (additional : Nat) : SparseIndex :=
  match log.segments.getLast? with
  | none => log.freshSegment.index
  | some active =>
    if active.segment.wouldOverflow additional log.config.segmentSizeThreshold
    then log.freshSegment.index else active.index

end Log

/-- Every index entry that an append makes fits into its two fields. -/
def LogOp.entriesFit (X : Crates) (log : Log) (op : LogOp) : Bool :=
  (log.writeIndex op.wireSize).fitsAll log.nextOffset (log.writePosition op.wireSize)
    (sizes (framesOf X log.config.compression op.records))

/-- What an append to a standing log may end in. -/
def standPost {α : Type} (exact : Prop) (env : Env FileName) (X : Crates) (log : Log)
    (op : LogOp) : Post FileName KafkoError Log α where
  ok := fun _ log' w' => StandsStill exact log' w'.store
  err := fun _ log' w' => (log.config.compression.isAvailable X = false ∨ ¬ env.Smooth) ∧
    StandsStill exact log' w'.store
  panic := fun _ _ w' => op.entriesFit X log = false ∧ Orderly w'.store
  crash := fun _ w' => ¬ env.Smooth ∧ Orderly w'.store

namespace Log

open IndexedSegment

variable {α : Type} {exact : Prop} {env : Env FileName} {log log₀ : Log} {w : World FileName}
  {init : List IndexedSegment} {active : IndexedSegment} {X : Crates} {op : LogOp}

/-- The first half of both appends. -/
theorem wp_rotating_stands (h : StandsStill exact log w.store) (hSpares : Spares env log) {n : Nat}
    {prog : LogIO Log α}
    (hProg : ∀ log' w' init active, log'.nextOffset = log.nextOffset → log'.config = log.config →
      log'.segments = init ++ [active] → active.index = log.writeIndex n →
      active.segment.size = log.writePosition n → StandsStill exact log' w'.store →
      wp env prog (standPost exact env X log op) log' w') :
    wp env (activeWouldOverflow n >>= fun b =>
        if b = true then rotateActiveSegment >>= fun _ => prog else prog)
      (standPost exact env X log op) log w := by
  obtain ⟨init, active, hSplit⟩ := h.standing.exists_active
  have hLast : log.segments.getLast? = some active := by simp [hSplit]
  rw [wp_bind, activeWouldOverflow, wp_get_bind]
  simp only [hLast, wp_pure]
  cases hOver : active.segment.wouldOverflow n log.config.segmentSizeThreshold with
  | false =>
    refine hProg log w init active rfl rfl hSplit ?_ ?_ h
    · rw [writeIndex, hLast]
      simp [hOver]
    · rw [writePosition, hLast]
      simp [hOver]
  | true =>
    have hFull : active.segment.size ≠ 0 := by
      intro hZero
      rw [Segment.wouldOverflow, if_pos hZero] at hOver
      cases hOver
    rw [if_pos rfl]
    refine wp_bind_of (rotate_stands h hSpares hSplit hFull) ?_ ?_ (fun _ _ _ hF => hF.elim) ?_
    · rintro - log' w' ⟨rfl, hStands⟩
      refine hProg _ w' log.segments log.freshSegment rfl rfl rfl ?_ ?_ hStands
      · rw [writeIndex, hLast]
        simp [hOver]
      · rw [writePosition, hLast]
        simp [hOver, freshSegment]
    · rintro e log' w' ⟨hRough, rfl, hStands⟩
      exact ⟨Or.inr hRough, hStands⟩
    · rintro log' w' ⟨hRough, hOrderly⟩
      exact ⟨hRough, hOrderly⟩

/-- The second half of both appends. A write to the index of a segment that holds nothing else
is spared, so the bytes of a failed append never lie alone in their segment. -/
theorem wp_writing_stands (hExact : exact → env.Smooth) (h : StandsStill exact log w.store)
    (hSpares : Spares env log) (hSplit : log.segments = init ++ [active]) {gs : List LogFrame}
    (hNe : gs ≠ []) (value : α)
    (hFit : active.index.fitsAll log.nextOffset active.segment.size (sizes gs) = false →
      op.entriesFit X log₀ = false) :
    wp env (do
        let filePos ← onActive (onSegment (Segment.append (flat gs)))
        trackBatch (sizes gs) log.nextOffset filePos
        Fx.modify fun log => { log with nextOffset := log.nextOffset + gs.length }
        pure value)
      (standPost exact env X log₀ op) log w := by
  have hMem : active ∈ log.segments := by simp [hSplit]
  have hLen : 0 < gs.length := List.length_pos_iff.mpr hNe
  refine wp_bind_of (P := {
    ok := fun pos log' w' => pos = active.segment.size ∧ ∃ s, log' = { log with segments :=
        init ++ [{ active with segment := s }] } ∧ s.baseOffset = active.segment.baseOffset ∧
      Standing exact log' w'.store
    err := fun _ log' w' => ¬ env.Smooth ∧ StandsStill exact log' w'.store
    panic := fun _ _ _ => False
    crash := fun _ w' => ¬ env.Smooth ∧ Orderly w'.store }) ?_ ?_ ?_ (fun _ _ _ hF => hF.elim)
    (fun _ _ hC => hC)
  · rw [wp_onActive hSplit, onSegment, wp_zoom]
    refine wp_mono (Segment.append_after hExact (h.standing.backed active hMem) (flat gs)) ?_ ?_
      (fun _ _ _ hF => hF) ?_
    · rintro pos s w' ⟨rfl, -, hAfter⟩
      exact ⟨rfl, s, rfl, hAfter.base, h.standing.active_segment hSplit hAfter⟩
    · rintro e s w' ⟨hRough, hSize, hAfter⟩
      refine ⟨hRough, StandsStill.of_active (h.standing.active_segment hSplit hAfter) rfl ?_⟩
      intro hBase
      dsimp only at hBase ⊢
      rw [hSize]
      rw [hAfter.base] at hBase
      exact h.behind active hMem hBase
    · rintro s w' ⟨hRough, hAfter⟩
      exact ⟨hRough, (h.standing.active_segment hSplit hAfter).orderly⟩
  · rintro pos log' w' ⟨rfl, s, rfl, hBase, hStanding⟩
    refine wp_bind_of (trackBatch_stands hStanding rfl (sizes gs) log.nextOffset
      active.segment.size) ?_ ?_ ?_ (fun _ _ hC => hC)
    · rintro - log'' w'' ⟨x, rfl, hStanding'⟩
      rw [wp_modify_bind, wp_pure]
      -- no segment is named after the new next offset
      refine ⟨⟨hStanding'.nonempty, hStanding'.sorted, hStanding'.indexBase, hStanding'.backed, ?_,
        hStanding'.newest, hStanding'.paired⟩, ?_⟩
      · intro p hp
        exact (hStanding'.upTo p hp).trans (Nat.le_add_right _ _)
      · intro p hp hEq
        have hUp := hStanding'.upTo p hp
        dsimp only at hUp hEq
        omega
    · rintro e log'' w'' ⟨hRough, ⟨tick, bytes, hFails⟩, x, rfl, hStanding'⟩
      refine ⟨Or.inr hRough, StandsStill.of_active hStanding' rfl ?_⟩
      intro hNext
      dsimp only at hNext hFails
      rw [hNext] at hFails
      exact absurd hFails (hSpares.written tick bytes)
    · rintro m log'' w'' ⟨hUnfit, hOrderly⟩
      exact ⟨hFit hUnfit, hOrderly⟩
  · rintro e log' w' ⟨hRough, hStands⟩
    exact ⟨Or.inr hRough, hStands⟩

theorem append_stands (hExact : exact → env.Smooth) (h : StandsStill exact log w.store)
    (hSpares : Spares env log) (X : Crates) (r : Record) :
    wp env (append X r) (standPost exact env X log (.append r)) log w := by
  have hn : (LogOp.append r).wireSize = r.wireSize := by simp [LogOp.wireSize, LogOp.records]
  rw [append]
  apply wp_rotating_stands h hSpares
  intro log' w' init active hNext hConfig hSplit hIndex hSize hStands
  rw [wp_get_bind, hConfig, Record.encodeWith_eq]
  cases hc : log.config.compression.isAvailable X with
  | true =>
    obtain ⟨bytes, hOk⟩ := Record.wire_isAvailable hc r
    have hFrames : framesOf X log.config.compression [r] =
        [⟨r, bytes, Record.wire_ne_nil hOk⟩] := framesOf_cons hOk
    have hFit : active.index.fitsAll log'.nextOffset active.segment.size
        (sizes [⟨r, bytes, Record.wire_ne_nil hOk⟩]) = false →
        LogOp.entriesFit X log (.append r) = false := by
      intro hUnfit
      rw [LogOp.entriesFit, hn, LogOp.records, hFrames, ← hIndex, ← hSize, ← hNext]
      exact hUnfit
    have hTail := wp_writing_stands hExact hStands (hSpares.congr hNext) hSplit
      (List.cons_ne_nil _ []) log'.nextOffset hFit
    rw [hOk, Res.ok_bind, Res.pure_eq, wp_lift_bind]
    simpa [sizes, trackBatch_singleton] using hTail
  | false =>
    rw [wire_unavailable hc]
    exact ⟨Or.inl hc, hStands⟩

theorem appendBatch_stands (hExact : exact → env.Smooth) (h : StandsStill exact log w.store)
    (hSpares : Spares env log) (X : Crates) (rs : List Record) :
    wp env (appendBatch X rs) (standPost exact env X log (.appendBatch rs)) log w := by
  rw [appendBatch]
  cases rs with
  | nil => exact h
  | cons r rs =>
    apply wp_rotating_stands h hSpares
    intro log' w' init active hNext hConfig hSplit hIndex hSize hStands
    rw [wp_get_bind, hConfig]
    cases hc : log.config.compression.isAvailable X with
    | true =>
      have hNe : framesOf X log.config.compression (r :: rs) ≠ [] := by
        intro hNil
        have hLen := length_framesOf hc (r :: rs)
        rw [hNil] at hLen
        cases hLen
      have hFit : active.index.fitsAll log'.nextOffset active.segment.size
          (sizes (framesOf X log.config.compression (r :: rs))) = false →
          LogOp.entriesFit X log (.appendBatch (r :: rs)) = false := by
        intro hUnfit
        rw [LogOp.entriesFit, LogOp.records, ← hNext]
        rw [hIndex, hSize] at hUnfit
        exact hUnfit
      have hTail := wp_writing_stands hExact hStands (hSpares.congr hNext) hSplit hNe
        (List.range' log'.nextOffset (r :: rs).length) hFit
      rw [length_framesOf hc] at hTail
      rw [encodeBatch_ok hc, wp_lift_bind]
      simpa using hTail
    | false =>
      rw [encodeBatch_unavailable hc]
      exact ⟨Or.inl hc, hStands⟩

/-! ## Reading and retention -/

theorem readFrom_after {p : IndexedSegment} (hp : p.segment.Backed exact w.store) (offset : Nat) :
    wp env (readFrom X offset) (Post.always fun p' w' => p'.index = p.index ∧
      p'.segment.size = p.segment.size ∧
        p.segment.After exact w.store w'.store p'.segment) p w := by
  rw [readFrom, wp_get_bind]
  dsimp only
  split
  · exact ⟨rfl, rfl, hp.after⟩
  · refine wp_bind_of (P := Post.always fun p' w' => p'.index = p.index ∧
      p'.segment.size = p.segment.size ∧ p.segment.After exact w.store w'.store p'.segment) ?_ ?_
      (fun _ _ _ hE => hE) (fun _ _ _ hP => hP) (fun _ _ hC => hC)
    · rw [onSegment, wp_zoom]
      apply wp_always_mono (Segment.readAt_after hp _ _)
      intro s' w' hEnd
      exact ⟨rfl, hEnd⟩
    · intro slice p' w' hEnd
      unfold wp Fx.lift
      cases findRecord X offset slice.length slice (p.index.lookup offset).2 with
      | ok r => exact hEnd
      | err e => exact hEnd
      | panic m => exact hEnd
      | crash => exact hEnd

/-- Reading replaces one segment by itself with another position. -/
theorem stands_read {i : Nat} {p p' : IndexedSegment} {d d' : Store FileName}
    (h : StandsStill exact log d) (hp : log.segments[i]? = some p) (hIndex : p'.index = p.index)
    (hSize : p'.segment.size = p.segment.size)
    (hAfter : p.segment.After exact d d' p'.segment) :
    StandsStill exact { log with segments := log.segments.set i p' } d' := by
  have hSelf : ({ p with segment := p'.segment } : IndexedSegment) = p' := by
    rw [← hIndex]
  have hStanding := h.standing.segment_after hp hAfter
  rw [hSelf] at hStanding
  refine ⟨hStanding, ?_⟩
  intro q hq hBase
  obtain ⟨j, hj⟩ := List.getElem?_of_mem hq
  rw [List.getElem?_set] at hj
  split at hj
  · split at hj
    · obtain rfl := Option.some.inj hj
      rw [hSize]
      rw [hAfter.base] at hBase
      exact h.behind p (List.mem_of_getElem? hp) hBase
    · cases hj
  · exact h.behind q (List.mem_of_getElem? hj) hBase

theorem readRecordAt_stands (h : StandsStill exact log w.store) (offset : Nat) :
    wp env (readRecordAt X offset) (Post.always fun log' w' => StandsStill exact log' w'.store)
      log w := by
  rw [readRecordAt, wp_get_bind]
  split
  · exact h
  · cases hp : log.segments[log.findSegmentIndex offset]? with
    | none =>
      unfold wp onSegmentAt
      rw [hp]
      exact h
    | some p =>
      have hBacked := h.standing.backed p (List.mem_of_getElem? hp)
      rw [wp_onSegmentAt hp]
      apply wp_always_mono (readFrom_after hBacked offset)
      intro p' w' hEnd
      obtain ⟨hIndex, hSize, hAfter⟩ := hEnd
      exact stands_read h hp hIndex hSize hAfter

/-- The oldest segment has left memory, and its `.log` file did not lose its index before. -/
theorem stands_dropped {d d' : Store FileName} {p : IndexedSegment} {rest : List IndexedSegment}
    (h : StandsStill exact log d) (hSegments : log.segments = p :: rest) (hRest : rest ≠ [])
    (hSame : ∀ name, name ≠ .log p.segment.baseOffset → name ≠ .index p.segment.baseOffset →
      d'.get name = d.get name)
    (hPaired : (d'.get (.log p.segment.baseOffset)).isSome →
      (d'.get (.index p.segment.baseOffset)).isSome) :
    StandsStill exact { log with segments := rest } d' := by
  have hSub : ∀ q ∈ rest, q ∈ log.segments := by
    intro q hq
    rw [hSegments]
    exact List.mem_cons_of_mem _ hq
  have hSorted := h.standing.sorted
  rw [hSegments, List.map_cons, List.pairwise_cons] at hSorted
  have hNewer : ∀ q ∈ rest, p.segment.baseOffset < q.segment.baseOffset := fun q hq =>
    hSorted.1 _ (List.mem_map_of_mem hq)
  refine ⟨⟨hRest, hSorted.2, ?_, ?_, ?_, ?_, ?_⟩, ?_⟩
  · exact fun q hq => h.standing.indexBase q (hSub q hq)
  · intro q hq
    have hNe : q.segment.baseOffset ≠ p.segment.baseOffset := Nat.ne_of_gt (hNewer q hq)
    exact (h.standing.backed q (hSub q hq)).congr
      (hSame _ (by simp [Segment.path, hNe]) (by simp [Segment.path]))
  · exact fun q hq => h.standing.upTo q (hSub q hq)
  · intro b hb
    by_cases hBase : b = p.segment.baseOffset
    · obtain ⟨q, hq⟩ := List.exists_mem_of_ne_nil rest hRest
      have := hNewer q hq
      exact ⟨q, hq, by omega⟩
    · rw [hSame _ (by simp [hBase]) (by simp), hSame _ (by simp) (by simp [hBase])] at hb
      obtain ⟨q, hq, hLe⟩ := h.standing.newest b hb
      rw [hSegments] at hq
      rcases List.mem_cons.mp hq with rfl | hq
      · obtain ⟨q', hq'⟩ := List.exists_mem_of_ne_nil rest hRest
        have := hNewer q' hq'
        exact ⟨q', hq', by omega⟩
      · exact ⟨q, hq, hLe⟩
  · intro b hb
    by_cases hBase : b = p.segment.baseOffset
    · rw [hBase] at hb ⊢
      exact hPaired hb
    · rw [hSame _ (by simp [hBase]) (by simp)] at hb
      rw [hSame _ (by simp) (by simp [hBase])]
      exact h.standing.paired b hb
  · exact fun q hq => h.behind q (hSub q hq)

/-- The files of one base offset, and only these, are gone. -/
structure Removed (d d' : Store FileName) (base : Nat) : Prop where
  log : d'.get (.log base) = none
  index : d'.get (.index base) = none
  others : ∀ name, name ≠ .log base → name ≠ .index base → d'.get name = d.get name

theorem deleteOldestSegment_stands (h : StandsStill exact log w.store) {p : IndexedSegment}
    {rest : List IndexedSegment} (hSegments : log.segments = p :: rest) (hRest : rest ≠ []) :
    wp env deleteOldestSegment
      { ok := fun _ log' w' => log' = { log with segments := rest } ∧ StandsStill exact log' w'.store ∧
          (env.Smooth → Removed w.store w'.store p.segment.baseOffset)
        err := fun _ log' w' => ¬ env.Smooth ∧ StandsStill exact log' w'.store
        panic := fun _ _ _ => False
        crash := fun _ w' => ¬ env.Smooth ∧ Orderly w'.store } log w := by
  have hMem : p ∈ log.segments := by simp [hSegments]
  have hLogSame : ∀ name, name ≠ .log p.segment.baseOffset →
      (w.store.erase (.log p.segment.baseOffset)).get name = w.store.get name :=
    fun name hne => Store.get_erase_of_ne _ hne
  -- nothing removed yet, the `.log` file removed, both files removed
  have hNone : StandsStill exact { log with segments := rest } w.store :=
    stands_dropped h hSegments hRest (fun _ _ _ => rfl) (h.standing.paired _)
  have hHalf : StandsStill exact { log with segments := rest }
      (w.store.erase (.log p.segment.baseOffset)) := by
    apply stands_dropped h hSegments hRest (fun name hne _ => hLogSame name hne)
    rw [Store.get_erase_self]
    intro hSome
    cases hSome
  have hBoth : StandsStill exact { log with segments := rest }
      ((w.store.erase (.log p.segment.baseOffset)).erase (.index p.segment.baseOffset)) := by
    refine stands_dropped h hSegments hRest ?_ ?_
    · intro name hne hne'
      rw [Store.get_erase_of_ne _ hne', hLogSame name hne]
    · rw [Store.get_erase_of_ne _ (by simp), Store.get_erase_self]
      intro hSome
      cases hSome
  rw [deleteOldestSegment, wp_get_bind]
  simp only [hSegments]
  rw [wp_modify_bind, wp_bind, Segment.path]
  refine wp_remove ?_ ?_ ?_ ?_
  · intro f hf
    dsimp only
    refine wp_recover (wp_remove ?_ ?_ ?_ ?_)
    · intro g hg
      refine ⟨rfl, hBoth, fun _ => ⟨?_, Store.get_erase_self _ _, ?_⟩⟩
      · rw [Store.get_erase_of_ne _ (by simp), Store.get_erase_self]
      · intro name hne hne'
        rw [Store.get_erase_of_ne _ hne', hLogSame name hne]
    · intro hMissing
      have hIndex := h.standing.indexed hMem
      rw [h.standing.indexPath hMem, ← hLogSame _ (by simp), hMissing] at hIndex
      cases hIndex
    · intro kind k hFail
      have hRough : ¬ env.Smooth := fun hSmooth => hSmooth.not_fail hFail
      dsimp only
      split
      · exact ⟨rfl, hHalf, fun hSmooth => absurd hSmooth hRough⟩
      · exact ⟨hRough, hHalf⟩
    · intro k hCrash
      exact ⟨fun hSmooth => hSmooth.not_crash hCrash, hHalf.standing.orderly⟩
  · intro hMissing
    have hSome := (h.standing.backed p hMem).isSome
    rw [Segment.path, hMissing] at hSome
    cases hSome
  · intro kind k hFail
    exact ⟨fun hSmooth => hSmooth.not_fail hFail, hNone⟩
  · intro k hCrash
    exact ⟨fun hSmooth => hSmooth.not_crash hCrash, hNone.standing.orderly⟩

/-- What a retention pass over a standing log may end in. -/
def retainPost {α : Type} (exact : Prop) (env : Env FileName) : Post FileName KafkoError Log α where
  ok := fun _ log' w' => StandsStill exact log' w'.store
  err := fun _ log' w' => ¬ env.Smooth ∧ StandsStill exact log' w'.store
  panic := fun _ _ _ => False
  crash := fun _ w' => ¬ env.Smooth ∧ Orderly w'.store

theorem wp_deleteThen_stands (h : StandsStill exact log w.store) (hTwo : 1 < log.segments.length)
    {loop : LogIO Log Nat}
    (hLoop : ∀ log' w', StandsStill exact log' w'.store → wp env loop (retainPost exact env) log' w') :
    wp env (do
        deleteOldestSegment
        let deleted ← loop
        pure (deleted + 1))
      (retainPost exact env) log w := by
  obtain ⟨p, rest, hSegments⟩ := List.exists_cons_of_ne_nil h.standing.nonempty
  have hRest : rest ≠ [] := by
    rintro rfl
    simp [hSegments] at hTwo
  refine wp_bind_of (deleteOldestSegment_stands h hSegments hRest) ?_ (fun _ _ _ hE => hE)
    (fun _ _ _ hF => hF) (fun _ _ hC => hC)
  rintro - log' w' ⟨-, hStands, -⟩
  refine wp_bind_of (hLoop log' w' hStands) ?_ (fun _ _ _ hE => hE) (fun _ _ _ hF => hF)
    (fun _ _ hC => hC)
  intro n log'' w'' hStands'
  exact hStands'

theorem lastModifiedMs_stands (h : StandsStill exact log w.store) {p : IndexedSegment}
    (hp : p ∈ log.segments) :
    wp env (p.segment.lastModifiedMs)
      { ok := fun t log' w' => log' = log ∧ (∀ name, w'.store.get name = w.store.get name) ∧
          t = epochMillis (env.mtime w.tick p.segment.path) ∧ StandsStill exact log w'.store
        err := fun _ log' w' => ¬ env.Smooth ∧ StandsStill exact log' w'.store
        panic := fun _ _ _ => False
        crash := fun _ w' => ¬ env.Smooth ∧ Orderly w'.store } log w := by
  obtain ⟨f, hf, hOk⟩ := h.standing.backed p hp
  obtain ⟨i, hi⟩ := List.getElem?_of_mem hp
  rw [Segment.lastModifiedMs, wp_bind]
  refine wp_metadataMtime hf ?_ ?_ ?_
  · dsimp only
    rw [wp_pure]
    have hAfter : p.segment.After exact w.store (w.store.put p.segment.path f) p.segment := by
      refine ⟨rfl, f, Store.updates_put _ _ _, fun hTrue => ?_⟩
      exact ⟨Store.get_put_self _ _ _, (hOk hTrue).size, (hOk hTrue).cursor⟩
    have hStands := stands_read h hi rfl rfl hAfter
    have hSelf : log.segments.set i p = log.segments := by
      obtain ⟨hLt, rfl⟩ := List.getElem?_eq_some_iff.mp hi
      exact List.set_getElem_self hLt
    rw [hSelf] at hStands
    refine ⟨rfl, ?_, rfl, hStands⟩
    intro name
    rw [Store.get_put]
    split
    · next hEq => rw [hEq, hf]
    · rfl
  · intro kind k hFail
    exact ⟨fun hSmooth => hSmooth.not_fail hFail, h⟩
  · intro k hCrash
    exact ⟨fun hSmooth => hSmooth.not_crash hCrash, h.standing.orderly⟩

theorem deleteByAge_stands (h : StandsStill exact log w.store) (cutoff : Int) (fuel : Nat) :
    wp env (deleteByAge cutoff fuel) (retainPost exact env) log w := by
  induction fuel generalizing log w with
  | zero => exact h
  | succ fuel ih =>
    rw [deleteByAge, wp_get_bind]
    split
    · next oldest second rest hSegments =>
      refine wp_bind_of (lastModifiedMs_stands h (by simp [hSegments])) ?_ (fun _ _ _ hE => hE)
        (fun _ _ _ hF => hF) (fun _ _ hC => hC)
      rintro t log' w' ⟨rfl, -, -, hStands⟩
      split
      · exact wp_deleteThen_stands hStands (by simp [hSegments]) fun log'' w'' hStands' => ih hStands'
      · exact hStands
    · exact h

theorem deleteBySize_stands (h : StandsStill exact log w.store) (maxBytes fuel : Nat) :
    wp env (deleteBySize maxBytes fuel) (retainPost exact env) log w := by
  induction fuel generalizing log w with
  | zero => exact h
  | succ fuel ih =>
    rw [deleteBySize, wp_get_bind]
    split
    · next hCond => exact wp_deleteThen_stands h hCond.1 fun log' w' hStands => ih hStands
    · exact h

theorem applyRetention_stands (h : StandsStill exact log w.store) :
    wp env applyRetention (retainPost exact env) log w := by
  refine wp_applyRetention (P := fun _ log' w' => StandsStill exact log' w'.store) (fun _ => h)
    (fun maxAge _ => deleteByAge_stands h _ _) (fun _ _ _ hStands _ => hStands) ?_
  intro byAge log' w' maxBytes hStands _
  refine wp_bind_of (deleteBySize_stands hStands _ _) ?_ (fun _ _ _ hE => hE)
    (fun _ _ _ hF => hF) (fun _ _ hC => hC)
  intro n log'' w'' hStands'
  exact hStands'

end Log

end Kafko
