import Kafko.Storage.Contents
import Kafko.Storage.Reopened
import Kafko.Storage.Weathered

/-!
# Runs of appends

What `append` and `appendBatch` do to a log when nothing fails. Both choose the segment before
anything is encoded, write all frames at once and tell the index of them afterwards. The only way
to go wrong is an index entry that does not fit, and then the bytes are written already
(`AppendCall.exec_settles`).
-/

namespace Kafko

open Disk

/-! ## Calls and runs -/

inductive AppendCall
  | append (record : Record)
  | appendBatch (records : List Record)
  deriving DecidableEq

namespace AppendCall

def op : AppendCall → LogOp
  | append record => .append record
  | appendBatch records => .appendBatch records

def records (call : AppendCall) : List Record := call.op.records

end AppendCall

/-- A call, the log before and after it, and how it ended. -/
structure AppendMove where
  call : AppendCall
  before : Log
  result : Res KafkoError Reply
  after : Log

/-- Calls one after the other, up to the first that panics or stops the machine. -/
def appendMoves (X : Crates) (env : Env FileName) :
    List AppendCall → Log → World FileName → List AppendMove
  | [], _, _ => []
  | call :: calls, log, w =>
    match call.op.exec X env log w with
    | (.ok reply, log', w') => ⟨call, log, .ok reply, log'⟩ :: appendMoves X env calls log' w'
    | (.err e, log', w') => ⟨call, log, .err e, log'⟩ :: appendMoves X env calls log' w'
    | (.panic m, log', _) => [⟨call, log, .panic m, log'⟩]
    | (.crash, log', _) => [⟨call, log, .crash, log'⟩]

/-- The base offset and the size of every segment. -/
def Log.segmentSizes (log : Log) : List (Nat × Nat) :=
  log.segments.map fun p => (p.segment.baseOffset, p.segment.size)

namespace Layout

def segmentSizes (L : Layout) : List (Nat × Nat) :=
  L.allChunks.map fun c => (c.base, span c.frames)

/-- The layout after the given records were appended in one call. -/
def written (X : Crates) (config : LogConfig) (L : Layout) (rs : List Record) : Layout :=
  if rs.isEmpty then L
  else L.step (L.overflows (rs.map Record.wireSize).sum config.segmentSizeThreshold)
    (framesOf X config.compression rs)

end Layout

/-! ## What one call leaves -/

section

variable {X : Crates} {env : Env FileName} {log : Log} {w : World FileName} {L : Layout}

theorem Parts.segmentSizes {m : Nat} {init : List IndexedSegment} {active : IndexedSegment}
    {f : File} {d : Store FileName} (h : Parts log d L m init active f) :
    log.segmentSizes = L.segmentSizes := by
  have hSealed := loaded_map (fun _ _ hLoaded => hLoaded.base_size) h.loaded
  have hSize : active.segment.size = span L.active.frames := by
    rw [h.segment.size, h.data, span]
  rw [Log.segmentSizes, Layout.segmentSizes, h.split, Layout.allChunks, List.map_append,
    List.map_append, hSealed, List.map_singleton, List.map_singleton, h.base, hSize]

theorem Live.segmentSizes {d : Store FileName} (h : Live log d L) :
    log.segmentSizes = L.segmentSizes := by
  obtain ⟨init, active, f, hParts⟩ := h.parts
  exact hParts.segmentSizes

/-- The index an append writes to has been told of the frames of its segment. -/
theorem Live.writeIndex {d : Store FileName} (h : Live log d L) (additional : Nat) :
    log.writeIndex additional = SparseIndex.tracked
      (L.target (L.overflows additional log.config.segmentSizeThreshold)).active.base
      log.config.indexInterval
      (L.target (L.overflows additional log.config.segmentSizeThreshold)).active.frames := by
  obtain ⟨init, active, f, hParts⟩ := h.parts
  have hLast : log.segments.getLast? = some active := by simp [hParts.split]
  have hOver : active.segment.wouldOverflow additional log.config.segmentSizeThreshold =
      L.overflows additional log.config.segmentSizeThreshold := by
    rw [← h.rotatesFor, Log.rotatesFor, hLast]
  rw [Log.writeIndex, hLast]
  dsimp only
  rw [hOver]
  cases L.overflows additional log.config.segmentSizeThreshold with
  | false => exact h.tracked hLast
  | true =>
    rw [if_pos rfl, Log.freshSegment, h.nextOffset]
    rfl

/-- The segments after a call that wrote its bytes, and whether the index took the entries. -/
def filedPost {α : Type} (after : Layout) (fits : Bool) : Post FileName KafkoError Log α where
  ok := fun _ log' _ => fits = true ∧ log'.segmentSizes = after.segmentSizes
  err := fun _ _ _ => False
  panic := fun _ log' _ => fits = false ∧ log'.segmentSizes = after.segmentSizes
  crash := fun _ _ => False

namespace Log

open IndexedSegment

variable {α : Type} {init : List IndexedSegment} {active : IndexedSegment}

/-- Tracking a batch panics at the first entry that does not fit, and leaves the segments alone
in any case. -/
theorem trackBatch_files (hEnv : env.Smooth) (hSplit : log.segments = init ++ [active])
    (hIndex : (w.store.get active.index.path).isSome) (ns : List Nat) (offset filePos : Nat) :
    wp env (trackBatch ns offset filePos)
      { ok := fun _ log' _ => active.index.fitsAll offset filePos ns = true ∧
          log'.segmentSizes = log.segmentSizes
        err := fun _ _ _ => False
        panic := fun _ log' _ => active.index.fitsAll offset filePos ns = false ∧
          log'.segmentSizes = log.segmentSizes
        crash := fun _ _ => False } log w := by
  induction ns generalizing log w active offset filePos with
  | nil => exact ⟨rfl, rfl⟩
  | cons n ns ih =>
    have hSizes : ∀ x, segmentSizes { log with segments := init ++ [{ active with index := x }] } =
        log.segmentSizes := by
      intro x
      simp [segmentSizes, hSplit]
    rw [trackBatch]
    refine wp_bind_of (P := {
      ok := fun _ log' w' => active.index.fitsEntry offset filePos = true ∧
        log' = { log with segments :=
          init ++ [{ active with index := active.index.track offset filePos n }] } ∧
        (w'.store.get active.index.path).isSome
      err := fun _ _ _ => False
      panic := fun _ log' _ => active.index.fitsEntry offset filePos = false ∧
        log'.segmentSizes = log.segmentSizes
      crash := fun _ _ => False }) ?_ ?_ (fun _ _ _ hF => hF) ?_ (fun _ _ hF => hF)
    · rw [wp_onActive hSplit, onIndex, wp_zoom]
      refine wp_mono (SparseIndex.trackAppend_after hIndex offset filePos n) ?_ ?_ ?_ ?_
      · intro _ x w' hRun
        obtain ⟨hFits, rfl, g, hUpd⟩ := hRun
        exact ⟨hFits, rfl, by rw [hUpd.self]; rfl⟩
      · exact fun e x w' hRough => absurd hEnv hRough.1
      · exact fun m x w' hStuck => ⟨hStuck.1, hSizes x⟩
      · exact fun x w' hRough => absurd hEnv hRough.1
    · intro _ log' w' hRun
      obtain ⟨hFits, rfl, hIndex'⟩ := hRun
      have hPath : (active.index.track offset filePos n).path = active.index.path := by
        simp [SparseIndex.path]
      rw [← hPath] at hIndex'
      refine wp_mono (ih rfl hIndex' (offset + 1) (filePos + n)) ?_ (fun _ _ _ hF => hF) ?_
        (fun _ _ hF => hF)
      · intro _ log'' w'' hRest
        obtain ⟨hRest, hSame⟩ := hRest
        refine ⟨?_, hSame.trans (hSizes _)⟩
        rw [SparseIndex.fitsAll, hFits, Bool.true_and]
        exact hRest
      · intro m log'' w'' hRest
        obtain ⟨hRest, hSame⟩ := hRest
        refine ⟨?_, hSame.trans (hSizes _)⟩
        rw [SparseIndex.fitsAll, hFits, Bool.true_and]
        exact hRest
    · intro m log' w' hStuck
      obtain ⟨hUnfit, hSame⟩ := hStuck
      refine ⟨?_, hSame⟩
      rw [SparseIndex.fitsAll, hUnfit, Bool.false_and]

/-- The choice of the segment, when nothing fails. -/
theorem wp_rotating_files (hEnv : env.Quiet) (h : Live log w.store L) (n : Nat)
    {prog : LogIO Log α} {Q : Post FileName KafkoError Log α}
    (hProg : ∀ log' w', log'.config = log.config → log'.nextOffset = log.nextOffset →
      Live log' w'.store (L.target (L.overflows n log.config.segmentSizeThreshold)) →
      wp env prog Q log' w') :
    wp env (activeWouldOverflow n >>= fun b =>
        if b = true then rotateActiveSegment >>= fun _ => prog else prog) Q log w := by
  rw [wp_activeWouldOverflow h]
  cases hRotates : L.overflows n log.config.segmentSizeThreshold with
  | false =>
    rw [hRotates] at hProg
    exact hProg log w rfl rfl h
  | true =>
    rw [hRotates] at hProg
    have hNe : L.active.frames ≠ [] := by
      intro hNil
      simp [Layout.overflows, hNil] at hRotates
    rw [if_pos rfl]
    refine wp_bind_of (rotateActiveSegment_spec (clean_of_quiet hEnv) h hNe) ?_ ?_
      (fun _ _ _ hF => hF.elim) ?_
    · intro _ log' w' hRun
      obtain ⟨hConfig, -, hLive⟩ := hRun
      refine hProg log' w' hConfig ?_ hLive
      rw [hLive.nextOffset, h.nextOffset, Layout.next_rotate]
    · exact fun e log' w' hFails => absurd hEnv.steady hFails.1
    · exact fun log' w' hCrash => absurd hEnv.alive hCrash.1

/-- One write of all frames, and the entries for them. -/
theorem wp_writing_files (hEnv : env.Quiet) (h : Live log w.store L) (gs : List LogFrame)
    (value : α) {fits : Bool}
    (hFits : (SparseIndex.tracked L.active.base log.config.indexInterval
      L.active.frames).fitsAll log.nextOffset (span L.active.frames) (sizes gs) = fits) :
    wp env (do
        let filePos ← onActive (onSegment (Segment.append (flat gs)))
        trackBatch (sizes gs) log.nextOffset filePos
        Fx.modify fun log => { log with nextOffset := log.nextOffset + gs.length }
        pure value)
      (filedPost (L.push gs) fits) log w := by
  obtain ⟨init, active, f, hParts⟩ := h.parts
  refine wp_bind_of (segmentAppend_spec (clean_of_quiet hEnv) gs hParts) ?_ ?_
    (fun _ _ _ hF => hF.elim) ?_
  · intro pos log' w' hRun
    obtain ⟨rfl, hShape, active', f', hParts'⟩ := hRun
    have hIndex : active'.index = SparseIndex.tracked L.active.base log.config.indexInterval
        L.active.frames := by
      rw [hParts'.tracked, hShape.config]
      simp [Layout.push]
    obtain ⟨x, hx, -⟩ := hParts'.index.file
    have hTrack := trackBatch_files hEnv.smooth hParts'.split (by rw [hx]; rfl) (sizes gs)
      log.nextOffset (span L.active.frames)
    rw [hIndex, hFits, hParts'.segmentSizes] at hTrack
    refine wp_bind_of hTrack ?_ (fun _ _ _ hF => hF) (fun _ _ _ hP => hP) (fun _ _ hF => hF)
    intro _ log'' w'' hTracked
    exact hTracked
  · exact fun e log' w' hFails => absurd hEnv.steady hFails.1
  · exact fun log' w' hCrash => absurd hEnv.alive hCrash.1

theorem append_files (hEnv : env.Quiet) (h : Live log w.store L)
    (hCodec : log.config.compression.isAvailable X = true) (r : Record) :
    wp env (append X r)
      (filedPost (L.written X log.config [r]) (LogOp.entriesFit X log (.append r))) log w := by
  obtain ⟨bytes, hOk⟩ := Record.wire_isAvailable hCodec r
  have hFrames : framesOf X log.config.compression [r] =
      [⟨r, bytes, Record.wire_ne_nil hOk⟩] := framesOf_cons hOk
  have hn : (LogOp.append r).wireSize = r.wireSize := by simp [LogOp.wireSize, LogOp.records]
  rw [append]
  apply wp_rotating_files hEnv h r.wireSize
  intro log' w' hConfig hNext hLive
  have hTail := wp_writing_files hEnv hLive [⟨r, bytes, Record.wire_ne_nil hOk⟩] log'.nextOffset rfl
  rw [hConfig, hNext] at hTail
  rw [wp_get_bind, hConfig, Record.encodeWith_eq, hOk, Res.ok_bind, Res.pure_eq, wp_lift_bind,
    LogOp.entriesFit, hn, LogOp.records, hFrames, h.writeIndex, h.writePosition, Layout.written,
    hFrames, hNext]
  simpa [sizes, trackBatch_singleton, Layout.step, Layout.target] using hTail

theorem appendBatch_files (hEnv : env.Quiet) (h : Live log w.store L)
    (hCodec : log.config.compression.isAvailable X = true) (rs : List Record) :
    wp env (appendBatch X rs)
      (filedPost (L.written X log.config rs) (LogOp.entriesFit X log (.appendBatch rs))) log w := by
  cases rs with
  | nil => exact ⟨rfl, h.segmentSizes⟩
  | cons r rs =>
    rw [appendBatch]
    apply wp_rotating_files hEnv h ((r :: rs).map Record.wireSize).sum
    intro log' w' hConfig hNext hLive
    have hTail := wp_writing_files hEnv hLive (framesOf X log.config.compression (r :: rs))
      (List.range' log'.nextOffset (r :: rs).length) rfl
    rw [hConfig, hNext, length_framesOf hCodec] at hTail
    rw [wp_get_bind, hConfig, encodeBatch_ok hCodec, wp_lift_bind, LogOp.entriesFit,
      LogOp.wireSize, LogOp.records, h.writeIndex, h.writePosition, Layout.written, hNext]
    simpa [Layout.step, Layout.target] using hTail

end Log

/-- What a call ends in when nothing fails: it returns exactly if every index entry it makes fits,
and its bytes are in their segment in any case. -/
def settledPost {α : Type} (log : Log) (after : Layout) (fits : Bool) :
    Post FileName KafkoError Log α where
  ok := fun _ log' w' => fits = true ∧ log'.config = log.config ∧
    log'.segmentSizes = after.segmentSizes ∧ Live log' w'.store after
  err := fun _ _ _ => False
  panic := fun _ log' _ => fits = false ∧ log'.segmentSizes = after.segmentSizes
  crash := fun _ _ => False

/-- The two rules for an append together. -/
theorem settled_of_files {α β : Type} {m : LogIO Log α} {reply : α → β} {rotates : Bool}
    {gs : List LogFrame} {value : α} {fits : Bool}
    (hFiles : wp env m (filedPost (L.step rotates gs) fits) log w)
    (hSpec : wp env m (appendPost env X log L rotates gs value) log w) :
    wp env (m >>= fun a => pure (reply a)) (settledPost log (L.step rotates gs) fits) log w := by
  rw [wp_bind]
  rcases hRun : m env log w with ⟨r, log', w'⟩
  unfold wp at *
  rw [hRun] at hFiles hSpec ⊢
  cases r with
  | ok a =>
    obtain ⟨-, hConfig, -, -, hLive⟩ := hSpec
    exact ⟨hFiles.1, hConfig, hFiles.2, hLive⟩
  | err e => exact hFiles
  | panic p => exact hFiles
  | crash => exact hFiles

theorem AppendCall.exec_settles (hEnv : env.Quiet) (h : Live log w.store L)
    (hCodec : log.config.compression.isAvailable X = true) (call : AppendCall) :
    wp env (call.op.exec X)
      (settledPost log (L.written X log.config call.records) (call.op.entriesFit X log)) log w := by
  have hClean := clean_of_quiet hEnv
  cases call with
  | append r =>
    have hn : ([r].map Record.wireSize).sum = r.wireSize := by simp
    have hFiles := Log.append_files hEnv h hCodec r
    rw [Layout.written, hn] at hFiles
    change wp env (LogOp.exec X (.append r))
      (settledPost log (L.written X log.config [r]) (LogOp.entriesFit X log (.append r))) log w
    rw [LogOp.exec, Layout.written, hn]
    exact settled_of_files hFiles (Log.append_spec hClean h X r rfl)
  | appendBatch rs =>
    cases rs with
    | nil => exact ⟨rfl, rfl, h.segmentSizes, h⟩
    | cons r rs =>
      exact settled_of_files (Log.appendBatch_files hEnv h hCodec (r :: rs))
        (Log.appendBatch_spec hClean h X r rs rfl)

/-- A call returns from a live log in one of two ways: with a live log, or with the panic of an
entry that does not fit. -/
theorem AppendCall.exec_cases (hEnv : env.Quiet) (h : Live log w.store L)
    (hCodec : log.config.compression.isAvailable X = true) (call : AppendCall) :
    (∃ reply log' w', call.op.exec X env log w = (.ok reply, log', w') ∧
      call.op.entriesFit X log = true ∧ log'.config = log.config ∧
      Live log' w'.store (L.written X log.config call.records)) ∨
    ∃ message log' w', call.op.exec X env log w = (.panic message, log', w') ∧
      call.op.entriesFit X log = false ∧
      log'.segmentSizes = (L.written X log.config call.records).segmentSizes := by
  have hSettles := call.exec_settles hEnv h hCodec
  rcases hRun : call.op.exec X env log w with ⟨r, log', w'⟩
  rw [wp, hRun] at hSettles
  cases r with
  | ok reply =>
    obtain ⟨hFits, hConfig, -, hLive⟩ := hSettles
    exact Or.inl ⟨reply, log', w', rfl, hFits, hConfig, hLive⟩
  | err e => exact hSettles.elim
  | panic message => exact Or.inr ⟨message, log', w', rfl, hSettles⟩
  | crash => exact hSettles.elim

/-- A call that comes back leaves a live log, also if the codec is not linked. Without its codec
it does not get as far as the index. -/
def returnPost {α : Type} (X : Crates) (log : Log) : Post FileName KafkoError Log α where
  ok := fun _ log' w' => log'.config = log.config ∧ ∃ L', Live log' w'.store L'
  err := fun _ log' w' => log'.config = log.config ∧ ∃ L', Live log' w'.store L'
  panic := fun _ _ _ => log.config.compression.isAvailable X = true
  crash := fun _ _ => False

theorem return_of_post {α β : Type} (hEnv : env.Quiet) {m : LogIO Log α} {reply : α → β}
    {rotates : Bool} {value : α} {rs : List Record}
    (hSpec : wp env m (appendPost env X log L rotates (framesOf X log.config.compression rs) value)
      log w) :
    wp env (m >>= fun a => pure (reply a)) (returnPost X log) log w := by
  refine wp_bind_of hSpec ?_ ?_ ?_ ?_
  · intro a log' w' hOk
    exact ⟨hOk.2.1, _, hOk.2.2.2.2⟩
  · intro e log' w' hErr
    obtain ⟨hConfig, ⟨-, hLive⟩ | ⟨-, hLive⟩, -⟩ := hErr
    · exact ⟨hConfig, _, hLive⟩
    · exact ⟨hConfig, _, hLive⟩
  · intro p log' w' hPanic
    change log.config.compression.isAvailable X = true
    rw [← Bool.not_eq_false]
    intro hMissing
    apply hPanic.1
    rw [framesOf_unavailable hMissing]
    intro i hi
    exact absurd hi (Nat.not_lt_zero i)
  · exact fun log' w' hCrash => absurd hEnv.alive hCrash.1

theorem AppendCall.exec_returns (hEnv : env.Quiet) (h : Live log w.store L) (call : AppendCall) :
    wp env (call.op.exec X) (returnPost X log) log w := by
  have hClean := clean_of_quiet hEnv
  cases call with
  | append r => exact return_of_post hEnv (Log.append_spec hClean h X r rfl)
  | appendBatch rs =>
    cases rs with
    | nil => exact ⟨rfl, L, h⟩
    | cons r rs => exact return_of_post hEnv (Log.appendBatch_spec hClean h X r rs rfl)

/-- A call of a run. -/
structure AppendMove.Made (X : Crates) (env : Env FileName) (calls : List AppendCall)
    (config : LogConfig) (m : AppendMove) : Prop where
  asked : m.call ∈ calls
  config : m.before.config = config
  run : ∃ (w w' : World FileName) (L : Layout), Live m.before w.store L ∧
    m.call.op.exec X env m.before w = (m.result, m.after, w')

/-- Every call of a run starts from a live log. -/
theorem mem_appendMoves (hEnv : env.Quiet) {calls : List AppendCall} (h : Live log w.store L)
    {m : AppendMove} (hm : m ∈ appendMoves X env calls log w) : m.Made X env calls log.config := by
  induction calls generalizing log w L with
  | nil => exact (List.not_mem_nil hm).elim
  | cons call calls ih =>
    have hLive := call.exec_returns (X := X) hEnv h
    rw [appendMoves] at hm
    rcases hRun : call.op.exec X env log w with ⟨r, log', w'⟩
    rw [wp, hRun] at hLive
    rw [hRun] at hm
    have hHere : AppendMove.Made X env (call :: calls) log.config ⟨call, log, r, log'⟩ :=
      ⟨List.mem_cons_self, rfl, w, w', L, h, hRun⟩
    have hLater : (∃ L', Live log' w'.store L') → log'.config = log.config →
        m ∈ appendMoves X env calls log' w' → m.Made X env (call :: calls) log.config := by
      rintro ⟨L', hLive'⟩ hConfig hRest
      have hMade := ih hLive' hRest
      exact ⟨List.mem_cons_of_mem _ hMade.asked, hMade.config.trans hConfig, hMade.run⟩
    cases r with
    | ok reply =>
      rcases List.mem_cons.mp hm with rfl | hRest
      · exact hHere
      · exact hLater hLive.2 hLive.1 hRest
    | err e =>
      rcases List.mem_cons.mp hm with rfl | hRest
      · exact hHere
      · exact hLater hLive.2 hLive.1 hRest
    | panic p =>
      rw [List.mem_singleton.mp hm]
      exact hHere
    | crash => exact hLive.elim

end

end Kafko
