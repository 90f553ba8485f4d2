import Kafko.Disk.Chunks
import Kafko.Storage.OpenSpec

/-!
# The index file as a stream of entries

An index file is a stream of entries of eight bytes without framing or checksum. `track_append`
writes an entry behind whatever is there and remembers it only if all of it was written;
`SparseIndex::open` cuts the file into pieces of eight bytes again. So a write that stops half way
stays in the file, and so does an odd tail the file was opened with: the next entry is cut with
these bytes. In a run of calls the file decodes to the entries in memory after every call if and
only if no call leaves eight bytes that are not its entry (`index_reads_back_iff`).
-/

namespace Kafko

open Disk

/-! ## Pieces of eight bytes -/

namespace SparseIndex

/-- An entry from its eight bytes. -/
def decodeEntry (chunk : Bytes) : IndexEntry := ⟨beNat (chunk.take 4), beNat (chunk.drop 4)⟩

theorem encode_decodeEntry {chunk : Bytes} (h : chunk.length = 8) :
    (decodeEntry chunk).encode = chunk := by
  rw [decodeEntry, IndexEntry.encode, beBytes_beNat (by simp [h]), beBytes_beNat (by simp [h])]
  exact List.take_append_drop 4 chunk

theorem length_encode (e : IndexEntry) : e.encode.length = 8 := by
  rw [IndexEntry.encode, List.length_append, length_beBytes, length_beBytes]

theorem decodeEntry_eq_iff {chunk : Bytes} (h : chunk.length = 8) {e : IndexEntry}
    (hRel : e.relativeOffset < 2 ^ 32) (hPos : e.filePosition < 2 ^ 32) :
    decodeEntry chunk = e ↔ chunk = e.encode := by
  constructor
  · intro hEq
    rw [← hEq, encode_decodeEntry h]
  · intro hEq
    have hTake : e.encode.take 4 = beBytes 4 e.relativeOffset := List.take_left' (by simp)
    have hDrop : e.encode.drop 4 = beBytes 4 e.filePosition := List.drop_left' (by simp)
    rw [hEq, decodeEntry, hTake, hDrop, beNat_beBytes_of_lt (by omega),
      beNat_beBytes_of_lt (by omega)]

/-- The loop over `chunks_exact` decodes each piece on its own. -/
theorem decodeEntries_eq_map (bytes : Bytes) :
    decodeEntries bytes = (chunksExact 8 bytes).map decodeEntry := by
  fun_induction decodeEntries bytes with
  | case1 a b c d e f g h rest ih =>
    rw [chunksExact_of_le (by decide) (by simp), ih]
    rfl
  | case2 bytes hShort =>
    have hLess : bytes.length < 8 := by
      by_contra hLong
      have hRel : (bytes.take 4).length = 4 := by
        rw [List.length_take]
        omega
      have hPos : ((bytes.drop 4).take 4).length = 4 := by
        rw [List.length_take, List.length_drop]
        omega
      obtain ⟨a, b, c, d, hFirst⟩ := exists_four hRel
      obtain ⟨e, f, g, h, hSecond⟩ := exists_four hPos
      apply hShort a b c d e f g h ((bytes.drop 4).drop 4)
      conv => lhs; rw [← List.take_append_drop 4 bytes, ← List.take_append_drop 4 (bytes.drop 4)]
      rw [hFirst, hSecond]
      rfl
    rw [chunksExact_of_lt hLess]
    rfl

theorem decodeEntries_append (bytes more : Bytes) :
    decodeEntries (bytes ++ more) =
      decodeEntries bytes ++ decodeEntries (remainder 8 bytes ++ more) := by
  rw [decodeEntries_eq_map, decodeEntries_eq_map, decodeEntries_eq_map,
    chunksExact_append (by decide), List.map_append]

theorem decodeEntries_eq_nil_iff {bytes : Bytes} : decodeEntries bytes = [] ↔ bytes.length < 8 := by
  rw [decodeEntries_eq_map, List.map_eq_nil_iff, chunksExact_eq_nil_iff (by decide)]

/-- An entry behind some stray bytes is read as itself only if these bytes and the entry begin
like the entry. -/
theorem decodeEntries_stray {stray : Bytes} (hStray : stray.length < 8) {e : IndexEntry}
    (hRel : e.relativeOffset < 2 ^ 32) (hPos : e.filePosition < 2 ^ 32) :
    decodeEntries (stray ++ e.encode) = [e] ↔ (stray ++ e.encode).take 8 = e.encode := by
  have hLen : (stray ++ e.encode).length = stray.length + 8 := by
    rw [List.length_append, length_encode]
  rw [decodeEntries_eq_map, chunksExact_eq_singleton (by omega) (by omega), List.map_singleton,
    List.singleton_inj, decodeEntry_eq_iff (by rw [List.length_take]; omega) hRel hPos]

end SparseIndex

/-! ## Calls -/

/-- A call of `track_append`, with the environment it is made in. -/
structure TrackCall where
  offset : Nat
  filePosition : Nat
  size : Nat
  env : Env FileName

namespace TrackCall

variable {c : TrackCall} {x : SparseIndex} {w : World FileName} {f : File}

/-- `track_append` with the subtraction that finds the relative offset: an offset below the base
of the index panics in it. The callers in `log.rs` never pass one. -/
def exec (c : TrackCall) : LogIO SparseIndex Unit := do
  let x ← Fx.get
  if x.needEntry ∧ c.offset < x.baseOffset then Fx.panic "attempt to subtract with overflow"
  else SparseIndex.trackAppend c.offset c.filePosition c.size

/-- The entry the call writes if it writes one. -/
def entry (c : TrackCall) (x : SparseIndex) : IndexEntry :=
  ⟨c.offset - x.baseOffset, c.filePosition⟩

/-- The call gets to its write. -/
structure Writes (c : TrackCall) (x : SparseIndex) : Prop where
  need : x.needEntry = true
  above : x.baseOffset ≤ c.offset
  relativeFits : (c.entry x).relativeOffset < 2 ^ 32
  positionFits : (c.entry x).filePosition < 2 ^ 32

/-- The bytes behind the last whole entry of the file. -/
def strayBytes (x : SparseIndex) (w : World FileName) : Bytes :=
  remainder 8 (((w.store.get x.path).map File.data).getD [])

/-- What the call leaves in the file does no harm: a write that stops half way leaves less than
eight bytes behind the last whole entry, and a whole entry has no stray bytes in front of it, or
bytes that happen to continue it. -/
structure Harmless (c : TrackCall) (x : SparseIndex) (w : World FileName) : Prop where
  torn : c.Writes x → ∀ kind k,
    c.env.outcome w.tick (.append x.path (c.entry x).encode) = .fail kind k →
    (strayBytes x w).length + min k 7 < 8
  whole : c.Writes x → ¬ c.env.Fails w.tick (.append x.path (c.entry x).encode) →
    (strayBytes x w ++ (c.entry x).encode).take 8 = (c.entry x).encode

/-- Behind whole entries nothing goes wrong, not even with a write that stops half way: it is the
next write that does the harm. -/
theorem harmless_of_aligned (h : strayBytes x w = []) : c.Harmless x w := by
  refine ⟨?_, ?_⟩
  · intro _ kind k _
    rw [h, List.length_nil]
    omega
  · intro _ _
    rw [h, List.nil_append]
    apply List.take_of_length_le
    rw [SparseIndex.length_encode]

/-- The bytes a call that is not cut off by a crash adds to the file, and the entries it adds in
memory. -/
inductive Adds (c : TrackCall) (x : SparseIndex) (w : World FileName) :
    Bytes → List IndexEntry → Prop
  | nothing (hNot : ¬ c.Writes x) : Adds c x w [] []
  | torn {kind : ErrorKind} {k : Nat} (hWrites : c.Writes x)
    (hFail : c.env.outcome w.tick (.append x.path (c.entry x).encode) = .fail kind k) :
    Adds c x w ((c.entry x).encode.take (min k 7)) []
  | whole (hWrites : c.Writes x)
    (hWhole : ¬ c.env.Fails w.tick (.append x.path (c.entry x).encode)) :
    Adds c x w (c.entry x).encode [c.entry x]

/-- A call is harmless if the reader cuts its entry, and nothing else, out of what it added. -/
theorem Adds.harmless_iff {bytes : Bytes} {new : List IndexEntry} (h : c.Adds x w bytes new) :
    c.Harmless x w ↔ SparseIndex.decodeEntries (strayBytes x w ++ bytes) = new := by
  have hStray : (strayBytes x w).length < 8 := length_remainder_lt (by decide) _
  cases h with
  | nothing hNot =>
    rw [List.append_nil, SparseIndex.decodeEntries_eq_nil_iff]
    constructor
    · intro _
      exact hStray
    · intro _
      exact ⟨fun hWrites => absurd hWrites hNot, fun hWrites => absurd hWrites hNot⟩
  | torn hWrites hFail =>
    rename_i kind k
    have hLen : ((c.entry x).encode.take (min k 7)).length = min k 7 := by
      rw [List.length_take, SparseIndex.length_encode]
      omega
    rw [SparseIndex.decodeEntries_eq_nil_iff, List.length_append, hLen]
    constructor
    · intro hHarmless
      exact hHarmless.torn hWrites kind k hFail
    · intro hLess
      refine ⟨?_, fun _ hNot => absurd ⟨kind, k, hFail⟩ hNot⟩
      intro _ kind' k' hFail'
      rw [hFail] at hFail'
      cases hFail'
      exact hLess
  | whole hWrites hWhole =>
    rw [SparseIndex.decodeEntries_stray hStray hWrites.relativeFits hWrites.positionFits]
    constructor
    · intro hHarmless
      exact hHarmless.whole hWrites hWhole
    · intro hEq
      exact ⟨fun _ kind k hFail => absurd ⟨kind, k, hFail⟩ hWhole, fun _ _ => hEq⟩

/-- What a call leaves behind. -/
def Left (c : TrackCall) (x : SparseIndex) (w : World FileName) (f : File) (x' : SparseIndex)
    (w' : World FileName) : Prop :=
  ∃ bytes new g, c.Adds x w bytes new ∧ x'.baseOffset = x.baseOffset ∧
    x'.entries = x.entries ++ new ∧ w'.store.get x'.path = some g ∧ g.data = f.data ++ bytes

theorem left_of_nothing (hf : w.store.get x.path = some f) (hNot : ¬ c.Writes x) {x' : SparseIndex}
    {w' : World FileName} (hBase : x'.baseOffset = x.baseOffset) (hEntries : x'.entries = x.entries)
    (hStore : w'.store = w.store) : c.Left x w f x' w' := by
  refine ⟨[], [], f, .nothing hNot, hBase, ?_, ?_, ?_⟩
  · rw [hEntries, List.append_nil]
  · rw [hStore, SparseIndex.path, hBase]
    exact hf
  · rw [List.append_nil]

theorem exec_left (hf : w.store.get x.path = some f) (c : TrackCall) :
    wp c.env c.exec
      { ok := fun _ x' w' => c.Left x w f x' w'
        err := fun _ x' w' => c.Left x w f x' w'
        panic := fun _ x' w' => c.Left x w f x' w'
        crash := fun _ _ => True } x w := by
  rw [exec, wp_get_bind]
  by_cases hBelow : x.needEntry ∧ c.offset < x.baseOffset
  · rw [if_pos hBelow]
    apply left_of_nothing hf (fun hWrites => ?_) rfl rfl rfl
    exact absurd hWrites.above (Nat.not_le.mpr hBelow.2)
  rw [if_neg hBelow, SparseIndex.trackAppend, wp_get_bind]
  by_cases hNeed : x.needEntry
  · have hAbove : x.baseOffset ≤ c.offset := Nat.le_of_not_lt fun hLt => hBelow ⟨hNeed, hLt⟩
    rw [if_pos hNeed, wp_bind, SparseIndex.addEntry, wp_get_bind]
    dsimp only
    by_cases hRel : 2 ^ 32 ≤ c.offset - x.baseOffset
    · rw [if_pos hRel]
      apply left_of_nothing hf (fun hWrites => ?_) rfl rfl rfl
      exact absurd hWrites.relativeFits (Nat.not_lt.mpr hRel)
    by_cases hPos : 2 ^ 32 ≤ c.filePosition
    · rw [if_neg hRel, if_pos hPos]
      apply left_of_nothing hf (fun hWrites => ?_) rfl rfl rfl
      exact absurd hWrites.positionFits (Nat.not_lt.mpr hPos)
    have hWrites : c.Writes x := ⟨hNeed, hAbove, Nat.not_le.mp hRel, Nat.not_le.mp hPos⟩
    rw [if_neg hRel, if_neg hPos, wp_bind, SparseIndex.writeEntry, wp_get_bind]
    by_cases hFails : c.env.Fails w.tick (.append x.path (c.entry x).encode)
    · obtain ⟨kind, k, hFail⟩ := hFails
      apply wp_writing_fail hf hFail
      refine ⟨_, [], _, .torn hWrites hFail, rfl, (List.append_nil _).symm,
        Store.get_put_self _ _ _, ?_⟩
      have hRoom : (c.entry x).encode.length - 1 = 7 := by rw [SparseIndex.length_encode]
      show f.data ++ (c.entry x).encode.take (min k ((c.entry x).encode.length - 1)) = _
      rw [hRoom]
    · refine wp_writing hf ?_ ?_ (fun _ _ => trivial)
      · simp only [wp_modify]
        exact ⟨_, _, _, .whole hWrites hFails, rfl, rfl, Store.get_put_self _ _ _, rfl⟩
      · intro kind k hFail
        exact absurd ⟨kind, k, hFail⟩ hFails
  · rw [if_neg hNeed]
    dsimp only
    rw [wp_modify]
    apply left_of_nothing hf (fun hWrites => ?_) rfl rfl rfl
    exact hNeed hWrites.need

end TrackCall

/-! ## Runs -/

/-- A call after which the machine still runs: it has returned, with a value or an error, or
panicked. -/
structure TrackMove where
  call : TrackCall
  index : SparseIndex
  world : World FileName
  index' : SparseIndex
  world' : World FileName

/-- Calls one after the other, each in its own environment, until the machine stops. -/
def trackMoves : List TrackCall → SparseIndex → World FileName → List TrackMove
  | [], _, _ => []
  | c :: calls, x, w =>
    match c.exec c.env x w with
    | (.crash, _, _) => []
    | (_, x', w') => ⟨c, x, w, x', w'⟩ :: trackMoves calls x' w'

namespace SparseIndex

variable {x : SparseIndex} {w : World FileName} {f : File}

/-- `SparseIndex::open` on the file yields exactly the entries in memory. -/
def ReadsBack (x : SparseIndex) (w : World FileName) : Prop :=
  ∀ env interval, env.Quiet → ∃ y w', open_ x.baseOffset interval env () w = (.ok y, (), w') ∧
    y.entries = x.entries

/-- The index was just created, or opened on a file of whatever content. -/
inductive Begins (x : SparseIndex) (w : World FileName) : Prop
  | created {σ : Type} {base interval : Nat} {env : Env FileName} {st st' : σ}
    {w₀ : World FileName} (hRun : create base interval env st w₀ = (.ok x, st', w)) : Begins x w
  | opened {σ : Type} {base interval : Nat} {env : Env FileName} {st st' : σ}
    {w₀ : World FileName} (hRun : open_ base interval env st w₀ = (.ok x, st', w)) : Begins x w

theorem readsBack_iff (hf : w.store.get x.path = some f) :
    x.ReadsBack w ↔ decodeEntries f.data = x.entries := by
  have hOpen : ∀ env interval, env.Quiet → ∃ w', open_ x.baseOffset interval env () w =
      (.ok ⟨x.baseOffset, decodeEntries f.data, 0, interval⟩, (), w') := by
    intro env interval hQuiet
    have hSpec : wp env (open_ x.baseOffset interval : LogIO Unit SparseIndex) _ () w :=
      Log.open_spec_index interval hf
    rw [wp] at hSpec
    rcases hRun : open_ x.baseOffset interval env () w with ⟨r, st', w'⟩
    rw [hRun] at hSpec
    cases r with
    | ok y =>
      obtain ⟨-, rfl, -⟩ := hSpec
      exact ⟨w', rfl⟩
    | err e => exact absurd hQuiet.steady hSpec
    | panic m => exact hSpec.elim
    | crash => exact absurd hQuiet.alive hSpec.1
  constructor
  · intro h
    obtain ⟨w', hRun⟩ := hOpen Env.quiet 0 Env.quiet_quiet
    obtain ⟨y, w'', hRun', hEntries⟩ := h Env.quiet 0 Env.quiet_quiet
    rw [hRun] at hRun'
    cases hRun'
    exact hEntries
  · intro h env interval hQuiet
    obtain ⟨w', hRun⟩ := hOpen env interval hQuiet
    exact ⟨_, w', hRun, h⟩

/-- Whatever the file held before, the entries are its whole pieces. -/
theorem Begins.readsBack (h : Begins x w) :
    ∃ f, w.store.get x.path = some f ∧ decodeEntries f.data = x.entries := by
  cases h with
  | created hRun =>
    rename_i σ base interval env st st' w₀
    have hCreate : wp env (create base interval : LogIO σ SparseIndex)
        { ok := fun x _ w' => ∃ f, w'.store.get x.path = some f ∧
            decodeEntries f.data = x.entries
          err := fun _ _ _ => True
          panic := fun _ _ _ => True
          crash := fun _ _ => True } st w₀ := by
      rw [create, wp_bind, Fx.createNew]
      refine wp_perform ?_ (fun _ _ => trivial) (fun _ _ _ => trivial) (fun _ _ => trivial)
      intro _ d hGood
      split at hGood
      · cases hGood
      · cases hGood
        exact ⟨File.empty, Store.get_put_self _ _ _, rfl⟩
    exact ok_of_wp hCreate hRun
  | opened hRun =>
    rename_i σ base interval env st st' w₀
    have hOpen : wp env (open_ base interval : LogIO σ SparseIndex)
        { ok := fun x _ w' => ∃ f, w'.store.get x.path = some f ∧
            decodeEntries f.data = x.entries
          err := fun _ _ _ => True
          panic := fun _ _ _ => True
          crash := fun _ _ => True } st w₀ := by
      cases hf : w₀.store.get (.index base) with
      | some f =>
        refine wp_mono (Log.open_spec_index interval hf) ?_ (fun _ _ _ _ => trivial)
          (fun _ _ _ _ => trivial) (fun _ _ _ => trivial)
        intro y _ w' hOk
        obtain ⟨-, rfl, hUpd⟩ := hOk
        exact ⟨_, hUpd.self, rfl⟩
      | none =>
        rw [open_, wp_bind, Fx.readAll, Fx.onFile]
        refine wp_perform ?_ (fun _ _ => trivial) (fun _ _ _ => trivial) (fun _ _ => trivial)
        intro _ d hGood
        rw [hf] at hGood
        cases hGood
    exact ok_of_wp hOpen hRun

end SparseIndex

section Runs

variable {c : TrackCall} {x x' : SparseIndex} {w w' : World FileName} {f : File}

/-- After a call the file decodes to the entries in memory exactly if the call was harmless. -/
theorem TrackCall.Left.readsBack_iff (hf : w.store.get x.path = some f)
    (hBack : SparseIndex.decodeEntries f.data = x.entries) (h : c.Left x w f x' w') :
    x'.ReadsBack w' ↔ c.Harmless x w := by
  obtain ⟨bytes, new, g, hAdds, -, hEntries, hg, hData⟩ := h
  have hStray : TrackCall.strayBytes x w = remainder 8 f.data := by
    rw [TrackCall.strayBytes, hf]
    rfl
  rw [SparseIndex.readsBack_iff hg, hAdds.harmless_iff, hStray, hData, hEntries, ← hBack,
    SparseIndex.decodeEntries_append, List.append_cancel_left_eq]

/-- The first call of a run. -/
theorem trackMoves_cons (hf : w.store.get x.path = some f) (c : TrackCall)
    (calls : List TrackCall) :
    trackMoves (c :: calls) x w = [] ∨ ∃ x' w', c.Left x w f x' w' ∧
      trackMoves (c :: calls) x w = ⟨c, x, w, x', w'⟩ :: trackMoves calls x' w' := by
  have hSpec := TrackCall.exec_left hf c
  rw [trackMoves]
  rcases hRun : c.exec c.env x w with ⟨r, x', w'⟩
  rw [wp, hRun] at hSpec
  cases r with
  | ok _ => exact Or.inr ⟨x', w', hSpec, rfl⟩
  | err e => exact Or.inr ⟨x', w', hSpec, rfl⟩
  | panic m => exact Or.inr ⟨x', w', hSpec, rfl⟩
  | crash => exact Or.inl rfl

/-- By induction on the calls: up to the first harmful one the file reads back, and after it it
does not. -/
theorem trackMoves_readBack_iff (hf : w.store.get x.path = some f)
    (hBack : SparseIndex.decodeEntries f.data = x.entries) (calls : List TrackCall) :
    (∀ m ∈ trackMoves calls x w, m.index'.ReadsBack m.world') ↔
      ∀ m ∈ trackMoves calls x w, m.call.Harmless m.index m.world := by
  induction calls generalizing x w f with
  | nil => simp [trackMoves]
  | cons c calls ih =>
    rcases trackMoves_cons hf c calls with hStops | ⟨x', w', hLeft, hMoves⟩
    · rw [hStops]
      simp
    · have hFirst := hLeft.readsBack_iff hf hBack
      obtain ⟨bytes, new, g, -, -, -, hg, -⟩ := hLeft
      rw [hMoves, List.forall_mem_cons, List.forall_mem_cons, hFirst]
      constructor
      · intro ⟨hHarmless, hRest⟩
        have hBack' := (SparseIndex.readsBack_iff hg).mp (hFirst.mpr hHarmless)
        exact ⟨hHarmless, (ih hg hBack').mp hRest⟩
      · intro ⟨hHarmless, hRest⟩
        have hBack' := (SparseIndex.readsBack_iff hg).mp (hFirst.mpr hHarmless)
        exact ⟨hHarmless, (ih hg hBack').mpr hRest⟩

/-- In any run of calls on an index that was created or opened, the file reads back as the index
in memory at the beginning and after every call, if and only if every call is harmless. -/
theorem SparseIndex.index_reads_back_iff (hBegins : x.Begins w) (calls : List TrackCall) :
    (x.ReadsBack w ∧ ∀ m ∈ trackMoves calls x w, m.index'.ReadsBack m.world') ↔
      ∀ m ∈ trackMoves calls x w, m.call.Harmless m.index m.world := by
  obtain ⟨f, hf, hBack⟩ := hBegins.readsBack
  rw [trackMoves_readBack_iff hf hBack, SparseIndex.readsBack_iff hf]
  constructor
  · intro hBoth
    exact hBoth.2
  · intro hHarmless
    exact ⟨hBack, hHarmless⟩

end Runs

/-! ## A torn entry -/

/-- Writes to the index file stop after `k` bytes. -/
def tearsEntries (k : Nat) : Env FileName where
  outcome _ call := match call with
    | .append _ _ => .fail .storageFull k
    | _ => .ok
  clock := fun _ => 0
  mtime := fun _ _ => 0

/-- A new index. -/
def newIndex : SparseIndex := ⟨0, [], 0, 16⟩

def newIndexWorld : World FileName := ⟨Store.empty.put (.index 0) File.empty, 1⟩

theorem newIndex_begins : newIndex.Begins newIndexWorld := by
  have hRun : SparseIndex.create 0 16 Env.quiet () ⟨Store.empty, 0⟩ =
      (.ok newIndex, (), newIndexWorld) := rfl
  exact .created hRun

/-- Two records of `20` bytes, each of which gets an entry. -/
def twoRecords (first second : Env FileName) : List TrackCall :=
  [⟨0, 0, 20, first⟩, ⟨1, 20, 20, second⟩]

/-- A torn entry behind whole ones is cut off by the reader. -/
theorem SparseIndex.index_reads_back_torn_end :
    (trackMoves (twoRecords Env.quiet (tearsEntries 3)) newIndex newIndexWorld).length = 2 ∧
      ∀ m ∈ trackMoves (twoRecords Env.quiet (tearsEntries 3)) newIndex newIndexWorld,
        m.index'.ReadsBack m.world' := by
  refine ⟨by decide +kernel, ?_⟩
  have hAligned : ∀ m ∈ trackMoves (twoRecords Env.quiet (tearsEntries 3)) newIndex newIndexWorld,
      TrackCall.strayBytes m.index m.world = [] := by
    decide +kernel
  apply ((SparseIndex.index_reads_back_iff newIndex_begins _).mpr ?_).2
  intro m hm
  exact TrackCall.harmless_of_aligned (hAligned m hm)

/-- A torn entry in front of a whole one shifts it: memory has the second record at position `20`,
and the file, read again, has an entry for the record `0` at position `256`. -/
theorem SparseIndex.torn_entry_shifts_the_next :
    newIndex.Begins newIndexWorld ∧
      ∃ m ∈ trackMoves (twoRecords (tearsEntries 3) Env.quiet) newIndex newIndexWorld,
        m.index'.entries = [⟨1, 20⟩] ∧
        ((m.world'.store.get m.index'.path).map fun f => decodeEntries f.data) =
          some [⟨0, 256⟩] ∧
        ¬ m.index'.ReadsBack m.world' := by
  refine ⟨newIndex_begins, ?_⟩
  have hLast : (trackMoves (twoRecords (tearsEntries 3) Env.quiet) newIndex newIndexWorld).getLast?.map
      (fun m => (m.index'.entries,
        (m.world'.store.get m.index'.path).map fun f => decodeEntries f.data)) =
        some ([⟨1, 20⟩], some [⟨0, 256⟩]) := by
    decide +kernel
  obtain ⟨m, hMem, hBoth⟩ := Option.map_eq_some_iff.mp hLast
  obtain ⟨hEntries, hDecoded⟩ := Prod.mk.inj hBoth
  refine ⟨m, List.mem_of_getLast? hMem, hEntries, hDecoded, ?_⟩
  intro hBack
  obtain ⟨f, hf, hFile⟩ := Option.map_eq_some_iff.mp hDecoded
  have hSame := (SparseIndex.readsBack_iff hf).mp hBack
  rw [hFile, hEntries] at hSame
  cases hSame

end Kafko
