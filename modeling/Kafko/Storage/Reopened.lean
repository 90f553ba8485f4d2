import Kafko.Storage.ShortReads
import Kafko.Storage.Runs

/-!
# Closing a log and opening it again

An undisturbed open finds the layout that the last session left: the scan stops behind the last
frame and the replay tracks every frame. What an open log shows is a function of its layout
(`Live.view`, `Live.sealedEntries`, `Live.tracked`), so it is the same before and after
(`reopen_preserves`), whatever the two configurations are.
-/

namespace Kafko

open Disk

/-! ## What a layout shows -/

/-- The entries of the sealed indexes. -/
def Log.sealedEntries (log : Log) : List (List IndexEntry) :=
  log.segments.dropLast.map fun p => p.index.entries

/-- The entries in the index file of a base offset. -/
def entriesOnDisk (d : Store FileName) (base : Nat) : List IndexEntry :=
  SparseIndex.decodeEntries (((d.get (.index base)).map File.data).getD [])

section

variable {log : Log} {d : Store FileName} {L : Layout}

theorem Loaded.size {p : IndexedSegment} {c : Chunk} (h : Loaded d p c) :
    p.segment.size = span c.frames := by
  obtain ⟨f, hf, hData, -⟩ := h.segment
  rw [hf.size, hData, span]

theorem Loaded.base_size {p : IndexedSegment} {c : Chunk} (h : Loaded d p c) :
    (p.segment.baseOffset, p.segment.size) = (c.base, span c.frames) := by
  rw [h.segmentBase, h.size]

theorem Loaded.entriesOnDisk {p : IndexedSegment} {c : Chunk} (h : Loaded d p c) :
    p.index.entries = entriesOnDisk d c.base := by
  obtain ⟨x, hx, hData⟩ := h.index.file
  rw [SparseIndex.path, h.indexBase] at hx
  rw [Kafko.entriesOnDisk, hx, Option.map_some, Option.getD_some, hData,
    SparseIndex.decodeEntries_encodeEntries h.entries.small]

theorem Live.view (h : Live log d L) :
    log.view = (L.next, L.allChunks.map fun c => (c.base, span c.frames)) := by
  rw [Log.view, h.nextOffset, loaded_map (fun _ _ hLoaded => hLoaded.base_size) h.loaded]

theorem Live.sealedEntries (h : Live log d L) :
    log.sealedEntries = L.chunks.map fun c => entriesOnDisk d c.base := by
  obtain ⟨init, active, f, hParts⟩ := h.parts
  rw [Log.sealedEntries, hParts.split, List.dropLast_concat]
  exact loaded_map (fun _ _ hLoaded => hLoaded.entriesOnDisk) hParts.loaded

/-- A live log has its active segment in memory and on disk. -/
theorem Live.active (h : Live log d L) : ∃ p f, log.segments.getLast? = some p ∧
    p.segment.baseOffset = L.active.base ∧ d.get p.segment.path = some f ∧
      f.data = flat L.active.frames := by
  obtain ⟨init, active, f, hParts⟩ := h.parts
  refine ⟨active, f, ?_, hParts.base, hParts.segment.file, hParts.data⟩
  rw [hParts.split, List.getLast?_concat]

theorem Live.stored (h : Live log d L) :
    ∃ f, Stored d (L.chunks.map Chunk.base) L.active.base f := by
  have hBases : L.chunks.map Chunk.base ++ [L.active.base] = L.allChunks.map Chunk.base := by
    simp [Layout.allChunks]
  obtain ⟨f, hf, -⟩ := h.disk.active
  refine ⟨f, ?_, ?_, ?_, hf⟩
  · rw [hBases]
    exact List.pairwise_map.mpr (Layout.allChunks_sorted h.disk.chain)
  · intro b
    rw [hBases]
    exact h.disk.isSome_log b
  · intro b hb
    obtain ⟨c, hc, rfl⟩ := List.mem_map.mp hb
    obtain ⟨x, -, hx, -⟩ := (h.disk.chunks c hc).index
    rw [hx]
    rfl

end

/-! ## Opening a layout -/

namespace Log

variable {X : Crates} {env : Env FileName} {log : Log} {w : World FileName}

/-- Opening changes no index file of a sealed segment. -/
theorem open_entriesOnDisk {L : Layout} (hLive : Live log w.store L) {config : LogConfig}
    {log' : Log} {w' : World FileName} (hRun : open_ X config env () w = (.ok log', (), w'))
    {c : Chunk} (hc : c ∈ L.chunks) :
    entriesOnDisk w'.store c.base = entriesOnDisk w.store c.base := by
  obtain ⟨f, hStored⟩ := hLive.stored
  obtain ⟨-, kept, ns, -, hOpened⟩ := ok_of_wp (open_run hStored config) hRun
  have hNe := hLive.disk.chain.base_ne hc
  rw [entriesOnDisk, hOpened.others _ (by simp) (by simp [hNe])]
  rfl

/-! ## Sessions -/

/-- The open logs of fault-free sessions on one directory: each session opens the directory as
the session before has left it, with a configuration of its own. -/
inductive InSession (X : Crates) : Log → World FileName → Prop
  | first {env : Env FileName} {config : LogConfig} {log : Log} {w w' : World FileName}
      (hFresh : Fresh w.store) (hEnv : env.Quiet)
      (hRun : open_ X config env () w = (.ok log, (), w')) : InSession X log w'
  | operated {env : Env FileName} {op : LogOp} {log log' : Log} {r : Res KafkoError Reply}
      {w w' : World FileName} (hSession : InSession X log w) (hEnv : env.Quiet)
      (hOp : op.Admissible X log) (hRun : op.exec X env log w = (r, log', w')) :
      InSession X log' w'
  | reopened {env : Env FileName} {config : LogConfig} {log log' : Log} {w w' : World FileName}
      (hSession : InSession X log w) (hEnv : env.Quiet)
      (hRun : open_ X config env () w = (.ok log', (), w')) : InSession X log' w'

theorem InSession.refines (hX : X.Lawful) (hSession : InSession X log w) :
    ∃ h n, Refines X log w.store h n := by
  induction hSession with
  | @first env config log w w' hFresh hEnv hRun =>
    have hSpec : wp env (open_ X config) (createPost env config ()) () w :=
      open_fresh_spec hFresh config
    obtain ⟨-, -, hLive⟩ := ok_of_wp hSpec hRun
    exact ⟨History.empty, 0, Layout.initial, hLive, Sound.initial X, ⟨rfl, rfl, rfl⟩,
      Nat.zero_le _⟩
  | @operated env op log log' r w w' _ hEnv hOp hRun ih =>
    obtain ⟨h, n, hRef⟩ := ih
    obtain ⟨_, _, _, hRun', -, h', n', hRef', -⟩ := exec_quiet hX hEnv hRef hOp
    cases hRun.symm.trans hRun'
    exact ⟨h', n', hRef'⟩
  | @reopened env config log log' w w' _ hEnv hRun ih =>
    obtain ⟨h, n, L, hLive, hSound, hRep, hn⟩ := ih
    obtain ⟨_, _, hRun', -, hLive'⟩ := open_live hEnv hLive hSound config
    cases hRun.symm.trans hRun'
    exact ⟨h, n, L, hLive', hSound, hRep, hn⟩

/-- What the records of the active segment, tracked from the start, make of an empty index. -/
structure IndexRebuilt (X : Crates) (log : Log) (d : Store FileName) (p : IndexedSegment) :
    Prop where
  active : log.segments.getLast? = some p
  tracked : ∃ f ns, d.get p.segment.path = some f ∧
    recordSizes X f.data.length f.data = .ok ns ∧
    p.index = (freshIndex p.segment.baseOffset log.config.indexInterval).trackAll
      p.segment.baseOffset 0 ns

/-- What a log opened with `config` keeps of the log that was closed. -/
structure Preserved (X : Crates) (config : LogConfig) (log log' : Log) (w w' : World FileName) :
    Prop where
  sameConfig : log'.config = config
  sameView : log'.view = log.view
  sealedEntries : log'.sealedEntries = log.sealedEntries
  reads : ∀ env, env.Quiet → ∀ offset,
    (readRecordAt X offset env log' w').1 = (readRecordAt X offset env log w).1
  index : ∃ p, IndexRebuilt X log' w'.store p
  sameIndex : config.indexInterval = log.config.indexInterval →
    (log'.segments.getLast?.map IndexedSegment.index) =
      log.segments.getLast?.map IndexedSegment.index
  continues : ∀ (op : LogOp) (env : Env FileName), op ≠ .applyRetention → env.Quiet →
    op.Admissible X log' → config.compression.isAvailable X = true →
    ∃ reply log'' w'', op.exec X env log' w' = (.ok reply, log'', w'') ∧
      reply.given = List.range' log.nextOffset op.records.length ∧
      ∀ env', env'.Quiet → ∀ offset, (readRecordAt X offset env' log'' w'').1 =
        if offset < log.nextOffset then (readRecordAt X offset env' log w).1
        else .ok op.records[offset - log.nextOffset]?

theorem indexRebuilt_of_live {L : Layout} (hLive : Live log w.store L) (hSound : Sound X L) :
    ∃ p, IndexRebuilt X log w.store p := by
  obtain ⟨p, f, hp, hBase, hf, hData⟩ := hLive.active
  have hReadable : ∀ g ∈ L.active.frames, Readable X g := fun g hg =>
    hSound.readable g (List.mem_append_right _ hg)
  refine ⟨p, hp, f, sizes L.active.frames, hf, ?_, ?_⟩
  · rw [hData]
    exact recordSizes_flat (decodes_of_readable hReadable []) (length_le_span _)
  · rw [hLive.tracked hp, hBase]
    rfl

/-- Appends to a log that refines a history continue behind its last record. -/
theorem continues (hX : X.Lawful) {h : History Record} {n : Nat} (hRef : Refines X log w.store h n)
    {op : LogOp} (hAppend : op ≠ .applyRetention) (hEnv : env.Quiet) (hOp : op.Admissible X log)
    (hCodec : log.config.compression.isAvailable X = true) :
    ∃ reply log' w', op.exec X env log w = (.ok reply, log', w') ∧
      reply.given = List.range' h.next op.records.length ∧
      ∀ env', env'.Quiet → ∀ offset, (readRecordAt X offset env' log' w').1 =
        if offset < h.next then .ok (h.get offset) else .ok op.records[offset - h.next]? := by
  obtain ⟨r, log', w', hRun, -, h', n', hRef', ⟨reply, rfl, hStep⟩ | ⟨-, hNone, -⟩⟩ :=
    exec_quiet hX hEnv hRef hOp
  · refine ⟨reply, log', w', hRun, hStep.given, ?_⟩
    intro env' hEnv' offset
    obtain ⟨_, _, hRead, -⟩ := read_quiet hEnv' hRef' offset
    have hOldest := hRef.oldest_le
    rw [hRead, History.get, History.get, hStep.oldest hAppend, hStep.records]
    by_cases hOld : offset < h.next
    · rw [if_pos hOld, List.getElem?_append_left hOld]
    · rw [if_neg hOld, if_pos (by omega), List.getElem?_append_right (Nat.le_of_not_lt hOld)]
      rfl
  · rw [hCodec] at hNone
    cases hNone

/-- Closing and reopening a log preserves it: after any fault-free sessions, whatever their
configurations were, opening the directory with any configuration succeeds and shows the same
log, with the index its records make under the new interval, and appends continue. -/
theorem reopen_preserves (hX : X.Lawful) (hSession : InSession X log w) (config : LogConfig)
    (hEnv : env.Quiet) :
    ∃ log' w', open_ X config env () w = (.ok log', (), w') ∧
      Preserved X config log log' w w' := by
  obtain ⟨h, n, hRef⟩ := hSession.refines hX
  have hNext := hRef.nextOffset
  obtain ⟨L, hLive, hSound, hRep, hn⟩ := hRef
  obtain ⟨log', w', hRun, rfl, hLive'⟩ := open_live hEnv hLive hSound config
  have hRef : Refines X log w.store h n := ⟨L, hLive, hSound, hRep, hn⟩
  have hRef' : Refines X log' w'.store h n := ⟨L, hLive', hSound, hRep, hn⟩
  have hReads : ∀ env', env'.Quiet → ∀ offset,
      (readRecordAt X offset env' log w).1 = .ok (h.get offset) ∧
        (readRecordAt X offset env' log' w').1 = .ok (h.get offset) := by
    intro env' hEnv' offset
    obtain ⟨_, _, hRead, -⟩ := read_quiet hEnv' hRef offset
    obtain ⟨_, _, hRead', -⟩ := read_quiet hEnv' hRef' offset
    rw [hRead, hRead']
    exact ⟨rfl, rfl⟩
  refine ⟨log', w', hRun, rfl, ?_, ?_, ?_, indexRebuilt_of_live hLive' hSound, ?_, ?_⟩
  · rw [hLive'.view, hLive.view]
  · rw [hLive'.sealedEntries, hLive.sealedEntries]
    apply List.map_congr_left
    intro c hc
    exact open_entriesOnDisk hLive hRun hc
  · intro env' hEnv' offset
    obtain ⟨hOld, hNew⟩ := hReads env' hEnv' offset
    rw [hOld, hNew]
  · intro hInterval
    obtain ⟨p, -, hp, -⟩ := hLive.active
    obtain ⟨p', -, hp', -⟩ := hLive'.active
    rw [hp, hp', Option.map_some, Option.map_some, hLive.tracked hp, hLive'.tracked hp', hInterval]
  · intro op env' hAppend hEnv' hOp hCodec
    obtain ⟨reply, log'', w'', hExec, hGiven, hRead⟩ :=
      continues hX hRef' hAppend hEnv' hOp hCodec
    rw [← hNext] at hGiven hRead
    refine ⟨reply, log'', w'', hExec, hGiven, ?_⟩
    intro env'' hEnv'' offset
    rw [hRead env'' hEnv'' offset, (hReads env'' hEnv'' offset).1]

/-- Every record gets an index entry, and segments never fill up. -/
def everyRecord : LogConfig := { LogConfig.default with indexInterval := 0 }

theorem reopen_preserves_everyRecord :
    ∃ log w log' w', InSession Crates.uncompressed log w ∧ log.segments.length = 2 ∧
      log.nextOffset = 3 ∧
      open_ Crates.uncompressed everyRecord Env.quiet () w = (.ok log', (), w') ∧
        Preserved Crates.uncompressed everyRecord log log' w w' := by
  have hFirst := @InSession.first Crates.uncompressed Env.quiet smallSegments _ ⟨Store.empty, 0⟩ _
    (fun name => Store.get_empty name) Env.quiet_quiet rfl
  have hBatch := @InSession.operated _ Env.quiet
    (.appendBatch [sampleRecord 1, sampleRecord 2]) _ _ _ _ _ hFirst Env.quiet_quiet
    (by decide +kernel) rfl
  have hThird := @InSession.operated _ Env.quiet (.append (sampleRecord 3)) _ _ _ _ _ hBatch
    Env.quiet_quiet (by decide +kernel) rfl
  obtain ⟨log', w', hOpen, hPreserved⟩ := reopen_preserves Crates.lawful_uncompressed hThird
    everyRecord Env.quiet_quiet
  exact ⟨_, _, log', w', hThird, by decide +kernel, by decide +kernel, hOpen, hPreserved⟩

end Log

end Kafko
