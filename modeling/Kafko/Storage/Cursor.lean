import Kafko.Storage.Layout

/-!
# The cached file cursor

A `Segment` skips a seek when its cached cursor says that the handle already stands where it is
wanted. A `Tape` is what a segment would be without the cache: every operation names its
position. As long as the cached cursor is right, a segment is a tape. The cursor is brought up to
date when an operation has succeeded, and it is forgotten when the file is truncated; a write that
fails behind its first bytes moves the handle and leaves the cursor where it was. In a run the
cursor is always right exactly if no write fails in that way.
-/

namespace Kafko

open Disk

/-! ## Operations and runs -/

inductive SegmentOp
  | append (bytes : Bytes)
  | readAt (filePos len : Nat)
  | truncate (newSize : Nat)
  deriving DecidableEq

inductive SegmentReply
  | position (filePos : Nat)
  | bytes (bytes : Bytes)
  | done
  deriving DecidableEq

def SegmentOp.exec : SegmentOp → LogIO Segment SegmentReply
  | .append bytes => do
    let filePos ← Segment.append bytes
    pure (.position filePos)
  | .readAt filePos len => do
    let bytes ← Segment.readAt filePos len
    pure (.bytes bytes)
  | .truncate newSize => do
    Segment.truncate newSize
    pure .done

/-- A call on a segment that returned. -/
structure SegmentMove where
  op : SegmentOp
  env : Env FileName
  segment : Segment
  world : World FileName
  reply : Except KafkoError SegmentReply
  segment' : Segment
  world' : World FileName

/-- Calls one after the other, each in its own environment, until the machine stops. -/
def segmentMoves : List (SegmentOp × Env FileName) → Segment → World FileName → List SegmentMove
  | [], _, _ => []
  | (op, env) :: calls, s, w =>
    match op.exec env s w with
    | (.ok reply, s', w') => ⟨op, env, s, w, .ok reply, s', w'⟩ :: segmentMoves calls s' w'
    | (.err e, s', w') => ⟨op, env, s, w, .error e, s', w'⟩ :: segmentMoves calls s' w'
    | (.panic _, _, _) => []
    | (.crash, _, _) => []

/-! ## Without the cache -/

/-- A file that is read and written at explicit positions, and the end the owner believes in. -/
structure Tape where
  size : Nat
  content : Bytes

namespace Tape

/-- Writes at a position; a gap before it is filled with zeros. -/
def overwrite (content : Bytes) (pos : Nat) (bytes : Bytes) : Bytes :=
  if bytes.isEmpty then content
  else (content ++ List.replicate (pos - content.length) 0).take pos ++ bytes ++
    content.drop (pos + bytes.length)

def resize (content : Bytes) (n : Nat) : Bytes :=
  (content ++ List.replicate (n - content.length) 0).take n

/-- What the operations do when each of them goes to its position first. A call that fails changes
nothing, but a truncation may fail after the cut, before it is durable. -/
inductive Does (t : Tape) : SegmentOp → Except KafkoError SegmentReply → Tape → Prop
  | appended (bytes : Bytes) : Does t (.append bytes) (.ok (.position t.size))
      ⟨t.size + bytes.length, overwrite t.content t.size bytes⟩
  | read {filePos len n : Nat} (hn : n ≤ len) (hSome : n = 0 → len = 0) :
      Does t (.readAt filePos len) (.ok (.bytes ((t.content.drop filePos).take n))) t
  | truncated (n : Nat) : Does t (.truncate n) (.ok .done) ⟨n, resize t.content n⟩
  | failed (op : SegmentOp) (e : KafkoError) : Does t op (.error e) t
  | cut (n : Nat) (e : KafkoError) :
      Does t (.truncate n) (.error e) ⟨t.size, resize t.content n⟩

theorem drop_overwrite (content : Bytes) (pos : Nat) (bytes : Bytes) :
    ((overwrite content pos bytes).drop pos).take bytes.length = bytes := by
  unfold overwrite
  split
  · next hNone => simp [List.isEmpty_iff.mp hNone]
  · have hLen : ((content ++ List.replicate (pos - content.length) 0).take pos).length = pos := by
      simp only [List.length_take, List.length_append, List.length_replicate]
      omega
    rw [List.append_assoc, List.drop_left' hLen, List.take_left]

/-- What an append has written is read back at the position it reported. -/
theorem Does.reads_back {t t' t'' : Tape} {filePos : Nat} {bytes got : Bytes}
    (hAppend : Does t (.append bytes) (.ok (.position filePos)) t')
    (hRead : Does t' (.readAt filePos bytes.length) (.ok (.bytes got)) t'') : got <+: bytes := by
  cases hAppend with
  | appended =>
    cases hRead with
    | @read _ _ n hn _ =>
      have hWritten := drop_overwrite t.content t.size bytes
      dsimp only
      rw [← Nat.min_eq_left hn, ← List.take_take, hWritten]
      exact List.take_prefix _ _

end Tape

namespace Segment

variable {env : Env FileName} {s : Segment} {w : World FileName} {f : File}

def tape (s : Segment) (w : World FileName) : Tape :=
  ⟨s.size, ((w.store.get s.path).map File.data).getD []⟩

/-- The file is there, and its handle stands where the cursor says. -/
structure InStep (s : Segment) (w : World FileName) (f : File) : Prop where
  file : w.store.get s.path = some f
  cursor : ∀ p, s.cursor = some p → f.pos = p

/-- The cached cursor, if there is one, is the position of the handle. -/
def CursorRight (s : Segment) (w : World FileName) : Prop :=
  ∀ p, s.cursor = some p → (w.store.get s.path).map File.pos = some p

theorem InStep.cursorRight (h : InStep s w f) : s.CursorRight w := by
  intro p hp
  rw [h.file, Option.map_some, h.cursor p hp]

theorem InStep.congr {w' : World FileName} (h : InStep s w f) (hSame : w'.store = w.store) :
    InStep s w' f := by
  refine ⟨?_, h.cursor⟩
  rw [hSame]
  exact h.file

theorem InStep.tape (h : InStep s w f) : s.tape w = ⟨s.size, f.data⟩ := by
  rw [Segment.tape, h.file, Option.map_some, Option.getD_some]

/-- The number of the write call of an append. -/
def writeTick (s : Segment) (w : World FileName) : Nat :=
  if s.cursor = some s.size then w.tick else w.tick + 1

/-- The append gets to its write, and the write fails when some of the bytes are written. -/
structure Tears (env : Env FileName) (s : Segment) (w : World FileName) (bytes : Bytes) :
    Prop where
  reached : s.cursor ≠ some s.size → ¬ env.Fails w.tick (.seek s.path s.size)
  torn : ∃ kind k, env.outcome (s.writeTick w) (.write s.path bytes) = .fail kind k ∧
    0 < min k (bytes.length - 1)

/-! ## One call -/

/-- Afterwards the handle stands where it is wanted, whether it had to be moved or not. -/
theorem ensureCursor_inStep (h : InStep s w f) (pos : Nat) :
    wp env (ensureCursor pos)
      { ok := fun _ s' w' => s' = { s with cursor := some pos } ∧
          w.store.Updates w'.store s.path (f.seek pos) ∧
          w'.tick = (if s.cursor = some pos then w.tick else w.tick + 1) ∧
          (s.cursor ≠ some pos → ¬ env.Fails w.tick (.seek s.path pos))
        err := fun _ s' w' => s' = s ∧ w'.store = w.store ∧ s.cursor ≠ some pos ∧
          env.Fails w.tick (.seek s.path pos)
        panic := fun _ _ _ => False
        crash := fun _ _ => True } s w := by
  rw [ensureCursor, wp_get_bind]
  by_cases hCursor : s.cursor = some pos
  · rw [if_pos hCursor, wp_pure]
    have hSeek : f.seek pos = f := by rw [File.seek, ← h.cursor pos hCursor]
    rw [hSeek]
    exact ⟨by rw [← hCursor], Store.Updates.refl h.file, (if_pos hCursor).symm,
      fun hNe => absurd hCursor hNe⟩
  · rw [if_neg hCursor, wp_bind]
    by_cases hFails : env.Fails w.tick (.seek s.path pos)
    · rw [Fx.seek, Fx.onFile]
      apply wp_perform_fails hFails
      intro _ _
      exact ⟨rfl, rfl, hCursor, hFails⟩
    · refine wp_onFile h.file ?_ ?_ (fun _ _ => trivial)
      · dsimp only
        rw [wp_modify]
        exact ⟨rfl, Store.updates_put _ _ _, (if_neg hCursor).symm, fun _ => hFails⟩
      · intro kind k hFail
        exact absurd ⟨kind, k, hFail⟩ hFails

/-- An append whose write is not torn. -/
theorem append_inStep (h : InStep s w f) {bytes : Bytes} (hWhole : ¬ Tears env s w bytes) :
    wp env (append bytes)
      { ok := fun pos s' w' => pos = s.size ∧ s'.size = s.size + bytes.length ∧
          ∃ g, InStep s' w' g ∧ g.data = Tape.overwrite f.data s.size bytes
        err := fun _ s' w' => s'.size = s.size ∧ ∃ g, InStep s' w' g ∧ g.data = f.data
        panic := fun _ _ _ => False
        crash := fun _ _ => True } s w := by
  rw [append, wp_get_bind]
  refine wp_bind_of (ensureCursor_inStep h s.size) ?_ ?_ (fun _ _ _ hF => hF) (fun _ _ hF => hF)
  · intro _ s' w' hSeek
    obtain ⟨rfl, hUpd, hTick, hReached⟩ := hSeek
    rw [wp_bind]
    refine wp_writing hUpd.self ?_ ?_ (fun _ _ => trivial)
    · dsimp only
      rw [wp_modify_bind, wp_pure]
      refine ⟨rfl, rfl, _, ⟨Store.get_put_self _ _ _, ?_⟩, ?_⟩
      · intro p hp
        rw [File.write_pos]
        exact Option.some.inj hp
      · unfold File.write Tape.overwrite
        split <;> rfl
    · intro kind k hFail
      -- a write that fails without being torn has written nothing
      have hNone : min k (bytes.length - 1) = 0 := by
        by_contra hSome
        apply hWhole
        refine ⟨hReached, kind, k, ?_, by omega⟩
        rw [writeTick, ← hTick]
        exact hFail
      rw [hNone, List.take_zero, File.write_nil]
      refine ⟨rfl, f.seek s.size, ⟨Store.get_put_self _ _ _, ?_⟩, rfl⟩
      intro p hp
      exact Option.some.inj hp
  · intro _ s' w' hSeek
    obtain ⟨rfl, hw, -, -⟩ := hSeek
    exact ⟨rfl, f, h.congr hw, rfl⟩

/-- A torn write leaves the handle behind the position the cursor names. -/
theorem append_tears (h : InStep s w f) {bytes : Bytes} (hTears : Tears env s w bytes) :
    wp env (append bytes)
      { ok := fun _ _ _ => False
        err := fun _ s' w' => ¬ s'.CursorRight w'
        panic := fun _ _ _ => False
        crash := fun _ _ => True } s w := by
  obtain ⟨hReached, kind, k, hFail, hSome⟩ := hTears
  rw [append, wp_get_bind]
  refine wp_bind_of (ensureCursor_inStep h s.size) ?_ ?_ (fun _ _ _ hF => hF) (fun _ _ hF => hF)
  · intro _ s' w' hSeek
    obtain ⟨rfl, hUpd, hTick, -⟩ := hSeek
    rw [writeTick, ← hTick] at hFail
    rw [wp_bind]
    apply wp_writing_fail hUpd.self hFail
    intro hRight
    have hPos := hRight s.size rfl
    change ((w'.store.put s.path _).get s.path).map File.pos = some s.size at hPos
    rw [Store.get_put_self, Option.map_some, Option.some.injEq, File.write_pos,
      List.length_take] at hPos
    change s.size + _ = s.size at hPos
    omega
  · intro _ s' w' hSeek
    obtain ⟨-, -, hNe, hFails⟩ := hSeek
    exact absurd hFails (hReached hNe)

theorem readAt_inStep (h : InStep s w f) (filePos len : Nat) :
    wp env (readAt filePos len)
      { ok := fun bytes s' w' => s'.size = s.size ∧ (∃ n, n ≤ len ∧ (n = 0 → len = 0) ∧
          bytes = (f.data.drop filePos).take n) ∧ ∃ g, InStep s' w' g ∧ g.data = f.data
        err := fun _ s' w' => s'.size = s.size ∧ ∃ g, InStep s' w' g ∧ g.data = f.data
        panic := fun _ _ _ => False
        crash := fun _ _ => True } s w := by
  rw [readAt, wp_get_bind]
  refine wp_bind_of (ensureCursor_inStep h filePos) ?_ ?_ (fun _ _ _ hF => hF) (fun _ _ hF => hF)
  · intro _ s' w' hSeek
    obtain ⟨rfl, hUpd, -, -⟩ := hSeek
    rw [wp_bind]
    change wp env (Fx.onFile _ s.path _ _) _ _ w'
    refine wp_onFile hUpd.self ?_ ?_ (fun _ _ => trivial)
    · dsimp only
      rw [wp_modify_bind, wp_pure]
      refine ⟨rfl, ⟨_, ?_, ?_, rfl⟩, _, ⟨Store.get_put_self _ _ _, ?_⟩, rfl⟩
      · split
        · exact Nat.min_le_left _ _
        · exact Nat.le_refl _
      · intro hZero
        split at hZero
        · simpa using hZero
        · exact hZero
      · intro p hp
        exact Option.some.inj hp
    · intro kind k _
      refine ⟨rfl, f.seek filePos, ⟨hUpd.self, ?_⟩, rfl⟩
      intro p hp
      exact Option.some.inj hp
  · intro _ s' w' hSeek
    obtain ⟨rfl, hw, -, -⟩ := hSeek
    exact ⟨rfl, f, h.congr hw, rfl⟩

/-- A truncation forgets the cursor when it has succeeded; when it fails the handle stands where
it stood. -/
theorem truncate_inStep (h : InStep s w f) (newSize : Nat) :
    wp env (truncate newSize)
      { ok := fun _ s' w' => s'.size = newSize ∧
          ∃ g, InStep s' w' g ∧ g.data = Tape.resize f.data newSize
        err := fun _ s' w' => s'.size = s.size ∧ ∃ g, InStep s' w' g ∧
          (g.data = f.data ∨ g.data = Tape.resize f.data newSize)
        panic := fun _ _ _ => False
        crash := fun _ _ => True } s w := by
  rw [truncate, wp_get_bind, wp_bind]
  refine wp_onFile h.file ?_ ?_ (fun _ _ => trivial)
  · dsimp only
    rw [wp_bind]
    refine wp_onFile (Store.get_put_self _ _ _) ?_ ?_ (fun _ _ => trivial)
    · dsimp only
      rw [wp_modify]
      refine ⟨rfl, _, ⟨Store.get_put_self _ _ _, ?_⟩, rfl⟩
      intro p hp
      cases hp
    · intro kind k _
      exact ⟨rfl, _, ⟨Store.get_put_self _ _ _, h.cursor⟩, Or.inr rfl⟩
  · intro kind k _
    exact ⟨rfl, f, ⟨h.file, h.cursor⟩, Or.inl rfl⟩

end Segment

/-- A new segment and one that was opened are in step. -/
theorem Segment.create_inStep {σ : Type} {st st' : σ} {env : Env FileName} {w w' : World FileName}
    {base : Nat} {s : Segment} (hRun : Segment.create base env st w = (.ok s, st', w')) :
    ∃ f, s.InStep w' f := by
  have hCreate : wp env (Segment.create base : LogIO σ Segment)
      { ok := fun s _ w' => ∃ f, s.InStep w' f
        err := fun _ _ _ => True
        panic := fun _ _ _ => True
        crash := fun _ _ => True } st w := by
    rw [Segment.create, wp_bind, Fx.createNew]
    refine wp_perform ?_ (fun _ _ => trivial) (fun _ _ _ => trivial) (fun _ _ => trivial)
    intro _ d hGood
    split at hGood
    · cases hGood
    · cases hGood
      exact ⟨File.empty, Store.get_put_self _ _ _, fun _ hp => Option.some.inj hp⟩
  exact ok_of_wp hCreate hRun

theorem Segment.open_inStep {σ : Type} {st st' : σ} {env : Env FileName} {w w' : World FileName}
    {base : Nat} {s : Segment} (hRun : Segment.open_ base env st w = (.ok s, st', w')) :
    ∃ f, s.InStep w' f := by
  have hOpen : wp env (Segment.open_ base : LogIO σ Segment)
      { ok := fun s _ w' => ∃ f, s.InStep w' f
        err := fun _ _ _ => True
        panic := fun _ _ _ => True
        crash := fun _ _ => True } st w := by
    rw [Segment.open_, wp_bind, Fx.metadataLen, Fx.onFile]
    refine wp_perform ?_ (fun _ _ => trivial) (fun _ _ _ => trivial) (fun _ _ => trivial)
    intro _ d _
    dsimp only
    rw [wp_bind, Fx.openFile, Fx.onFile]
    refine wp_perform ?_ (fun _ _ => trivial) (fun _ _ _ => trivial) (fun _ _ => trivial)
    intro _ d' hGood
    split at hGood
    · cases hGood
      exact ⟨_, Store.get_put_self _ _ _, fun _ hp => Option.some.inj hp⟩
    · cases hGood
  exact ok_of_wp hOpen hRun

/-! ## Runs -/

namespace SegmentMove

/-- The call is an append whose write is torn. -/
def Tears (m : SegmentMove) : Prop :=
  ∃ bytes, m.op = .append bytes ∧ Segment.Tears m.env m.segment m.world bytes

/-- After the call the cursor is right, and the call did what it does on a tape. -/
structure Transparent (m : SegmentMove) : Prop where
  cursor : m.segment'.CursorRight m.world'
  does : Tape.Does (m.segment.tape m.world) m.op m.reply (m.segment'.tape m.world')

end SegmentMove

section Runs

variable {env : Env FileName} {s : Segment} {w : World FileName} {f : File}

/-- What is known of a call that returned. -/
def SegmentMove.post (op : SegmentOp) (env : Env FileName) (s : Segment) (w : World FileName) :
    Post FileName KafkoError Segment SegmentReply where
  ok := fun reply s' w' => (∃ g, s'.InStep w' g) ∧
    (⟨op, env, s, w, .ok reply, s', w'⟩ : SegmentMove).Transparent
  err := fun e s' w' => (∃ g, s'.InStep w' g) ∧
    (⟨op, env, s, w, .error e, s', w'⟩ : SegmentMove).Transparent
  panic := fun _ _ _ => False
  crash := fun _ _ => True

/-- Unless its write is torn, a call does what it does on a tape. -/
theorem SegmentOp.exec_transparent (h : s.InStep w f) (op : SegmentOp)
    (hWhole : ∀ bytes, op = .append bytes → ¬ Segment.Tears env s w bytes) :
    wp env op.exec (SegmentMove.post op env s w) s w := by
  -- a failed call that leaves size and bytes alone
  have hFailed : ∀ {e s' w' g}, s'.size = s.size → s'.InStep w' g → g.data = f.data →
      (SegmentMove.post op env s w).err e s' w' := by
    intro e s' w' g hSize hIn hData
    refine ⟨⟨g, hIn⟩, hIn.cursorRight, ?_⟩
    dsimp only
    rw [h.tape, hIn.tape, hSize, hData]
    exact Tape.Does.failed op e
  cases op with
  | append bytes =>
    refine wp_bind_of (Segment.append_inStep h (hWhole bytes rfl)) ?_ ?_ (fun _ _ _ hF => hF)
      (fun _ _ hF => hF)
    · intro filePos s' w' hPost
      obtain ⟨rfl, hSize, g, hIn, hData⟩ := hPost
      refine ⟨⟨g, hIn⟩, hIn.cursorRight, ?_⟩
      dsimp only
      rw [h.tape, hIn.tape, hSize, hData]
      exact Tape.Does.appended (t := ⟨s.size, f.data⟩) bytes
    · intro e s' w' hPost
      obtain ⟨hSize, g, hIn, hData⟩ := hPost
      exact hFailed hSize hIn hData
  | readAt filePos len =>
    refine wp_bind_of (Segment.readAt_inStep h filePos len) ?_ ?_ (fun _ _ _ hF => hF)
      (fun _ _ hF => hF)
    · intro bytes s' w' hPost
      obtain ⟨hSize, ⟨n, hn, hSome, rfl⟩, g, hIn, hData⟩ := hPost
      refine ⟨⟨g, hIn⟩, hIn.cursorRight, ?_⟩
      dsimp only
      rw [h.tape, hIn.tape, hSize, hData]
      exact Tape.Does.read (t := ⟨s.size, f.data⟩) hn hSome
    · intro e s' w' hPost
      obtain ⟨hSize, g, hIn, hData⟩ := hPost
      exact hFailed hSize hIn hData
  | truncate newSize =>
    refine wp_bind_of (Segment.truncate_inStep h newSize) ?_ ?_ (fun _ _ _ hF => hF)
      (fun _ _ hF => hF)
    · intro _ s' w' hPost
      obtain ⟨hSize, g, hIn, hData⟩ := hPost
      refine ⟨⟨g, hIn⟩, hIn.cursorRight, ?_⟩
      dsimp only
      rw [h.tape, hIn.tape, hSize, hData]
      exact Tape.Does.truncated (t := ⟨s.size, f.data⟩) newSize
    · intro e s' w' hPost
      obtain ⟨hSize, g, hIn, hSame | hCut⟩ := hPost
      · exact hFailed hSize hIn hSame
      · refine ⟨⟨g, hIn⟩, hIn.cursorRight, ?_⟩
        dsimp only
        rw [h.tape, hIn.tape, hSize, hCut]
        exact Tape.Does.cut (t := ⟨s.size, f.data⟩) newSize e

/-- After a torn write the cursor is wrong. -/
theorem SegmentOp.exec_tears (h : s.InStep w f) {bytes : Bytes}
    (hTears : Segment.Tears env s w bytes) :
    wp env (SegmentOp.append bytes).exec
      { ok := fun _ _ _ => False
        err := fun _ s' w' => ¬ s'.CursorRight w'
        panic := fun _ _ _ => False
        crash := fun _ _ => True } s w :=
  wp_bind_of (Segment.append_tears h hTears) (fun _ _ _ hF => hF.elim) (fun _ _ _ hErr => hErr)
    (fun _ _ _ hF => hF) (fun _ _ hF => hF)

/-- The first call of a run. -/
theorem segmentMoves_cons (op : SegmentOp) (env : Env FileName)
    (calls : List (SegmentOp × Env FileName)) (h : s.InStep w f) :
    segmentMoves ((op, env) :: calls) s w = [] ∨
      ∃ reply s' w', segmentMoves ((op, env) :: calls) s w =
          ⟨op, env, s, w, reply, s', w'⟩ :: segmentMoves calls s' w' ∧
        ((⟨op, env, s, w, reply, s', w'⟩ : SegmentMove).Tears ∧ ¬ s'.CursorRight w' ∨
          ¬ (⟨op, env, s, w, reply, s', w'⟩ : SegmentMove).Tears ∧ (∃ g, s'.InStep w' g) ∧
            (⟨op, env, s, w, reply, s', w'⟩ : SegmentMove).Transparent) := by
  rw [segmentMoves]
  by_cases hTears : ∃ bytes, op = .append bytes ∧ Segment.Tears env s w bytes
  · obtain ⟨bytes, rfl, hTorn⟩ := hTears
    have hSpec := SegmentOp.exec_tears h hTorn
    rcases hRun : (SegmentOp.append bytes).exec env s w with ⟨r, s', w'⟩
    rw [wp, hRun] at hSpec
    cases r with
    | ok reply => exact hSpec.elim
    | err e => exact Or.inr ⟨.error e, s', w', rfl, Or.inl ⟨⟨bytes, rfl, hTorn⟩, hSpec⟩⟩
    | panic m => exact hSpec.elim
    | crash => exact Or.inl rfl
  · have hWhole : ∀ bytes, op = .append bytes → ¬ Segment.Tears env s w bytes :=
      fun bytes hOp hTorn => hTears ⟨bytes, hOp, hTorn⟩
    have hSpec := SegmentOp.exec_transparent h op hWhole
    rcases hRun : op.exec env s w with ⟨r, s', w'⟩
    rw [wp, hRun] at hSpec
    cases r with
    | ok reply => exact Or.inr ⟨.ok reply, s', w', rfl, Or.inr ⟨hTears, hSpec⟩⟩
    | err e => exact Or.inr ⟨.error e, s', w', rfl, Or.inr ⟨hTears, hSpec⟩⟩
    | panic m => exact hSpec.elim
    | crash => exact Or.inl rfl

/-- In any run of calls on a segment whose cursor is right at the beginning, the cursor is right
after every call and every call does what it does at explicit positions, if and only if no write
fails behind its first bytes. -/
theorem Segment.cursor_transparent_iff (h : s.InStep w f)
    (calls : List (SegmentOp × Env FileName)) :
    (∀ m ∈ segmentMoves calls s w, m.Transparent) ↔ ∀ m ∈ segmentMoves calls s w, ¬ m.Tears := by
  induction calls generalizing s w f with
  | nil => simp [segmentMoves]
  | cons call calls ih =>
    obtain ⟨op, env⟩ := call
    rcases segmentMoves_cons op env calls h with
      hStops | ⟨reply, s', w', hMoves, ⟨hTears, hWrong⟩ | ⟨hWhole, ⟨g, hIn⟩, hTransparent⟩⟩
    · rw [hStops]
      simp
    · rw [hMoves]
      constructor
      · intro hAll
        exact absurd (hAll _ List.mem_cons_self).cursor hWrong
      · intro hAll
        exact absurd hTears (hAll _ List.mem_cons_self)
    · rw [hMoves, List.forall_mem_cons, List.forall_mem_cons, ih hIn]
      constructor
      · intro hBoth
        exact ⟨hWhole, hBoth.2⟩
      · intro hBoth
        exact ⟨hTransparent, hBoth.2⟩

end Runs

/-! ## A torn write -/

/-- The first write call stops after `k` bytes. -/
def tearsAfter (k : Nat) : Env FileName where
  outcome tick call := match tick, call with
    | 0, .write _ _ => .fail .storageFull k
    | _, _ => .ok
  clock := fun _ => 0
  mtime := fun _ _ => 0

/-- A new segment. -/
def newSegment : Segment := ⟨0, 0, some 0⟩

def newSegmentWorld : World FileName := ⟨Store.empty.put (.log 0) File.empty, 0⟩

theorem newSegment_inStep : newSegment.InStep newSegmentWorld File.empty where
  file := Store.get_put_self _ _ _
  cursor := fun _ hp => Option.some.inj hp

/-- The bytes of three calls: two appends, of which the first fails after `k` bytes, and a read of
what the second one appended. -/
def appendAgain (k : Nat) : List (SegmentOp × Env FileName) :=
  [(.append [1, 2], tearsAfter k), (.append [3, 4], Env.quiet), (.readAt 0 2, Env.quiet)]

theorem mem_calls_of_mem_moves {calls : List (SegmentOp × Env FileName)} {s : Segment}
    {w : World FileName} {m : SegmentMove} (hm : m ∈ segmentMoves calls s w) :
    (m.op, m.env) ∈ calls := by
  induction calls generalizing s w with
  | nil => cases hm
  | cons call calls ih =>
    obtain ⟨op, env⟩ := call
    rw [segmentMoves] at hm
    split at hm
    · rcases List.mem_cons.mp hm with rfl | hRest
      · exact List.mem_cons_self
      · exact List.mem_cons_of_mem _ (ih hRest)
    · rcases List.mem_cons.mp hm with rfl | hRest
      · exact List.mem_cons_self
      · exact List.mem_cons_of_mem _ (ih hRest)
    · cases hm
    · cases hm

theorem not_tears_of_quiet {env : Env FileName} (hQuiet : env.Quiet) (s : Segment)
    (w : World FileName) (bytes : Bytes) : ¬ Segment.Tears env s w bytes := by
  intro hTears
  obtain ⟨kind, k, hFail, -⟩ := hTears.torn
  exact hQuiet.steady _ _ _ _ hFail

/-- A write that failed before its first byte does no harm. -/
theorem Segment.cursor_transparent_iff_retried :
    (segmentMoves (appendAgain 0) newSegment newSegmentWorld).length = 3 ∧
      ∀ m ∈ segmentMoves (appendAgain 0) newSegment newSegmentWorld, m.Transparent := by
  refine ⟨by decide +kernel, ?_⟩
  rw [Segment.cursor_transparent_iff newSegment_inStep]
  intro m hm hTears
  obtain ⟨bytes, -, hTears⟩ := hTears
  have hCall := mem_calls_of_mem_moves hm
  simp only [appendAgain, List.mem_cons, List.not_mem_nil, or_false, Prod.mk.injEq] at hCall
  obtain ⟨-, hEnv⟩ | ⟨-, hEnv⟩ | ⟨-, hEnv⟩ := hCall
  · rw [hEnv] at hTears
    obtain ⟨kind, k, hFail, hSome⟩ := hTears.torn
    unfold tearsAfter at hFail
    dsimp only at hFail
    split at hFail
    · cases hFail
      omega
    · cases hFail
  · rw [hEnv] at hTears
    exact not_tears_of_quiet Env.quiet_quiet _ _ _ hTears
  · rw [hEnv] at hTears
    exact not_tears_of_quiet Env.quiet_quiet _ _ _ hTears

/-- A write that failed behind its first byte displaces the next append: it reports position 0,
and a read of that position returns something else. -/
theorem Segment.torn_append_displaces_the_next :
    newSegment.InStep newSegmentWorld File.empty ∧
      (∃ m ∈ segmentMoves (appendAgain 1) newSegment newSegmentWorld,
        ¬ m.segment'.CursorRight m.world') ∧
      (segmentMoves (appendAgain 1) newSegment newSegmentWorld).map
          (fun m => match m.reply with
            | .ok reply => some reply
            | .error _ => none) =
        [none, some (.position 0), some (.bytes [1, 3])] := by
  refine ⟨newSegment_inStep, ?_, by decide +kernel⟩
  have hFirst : (segmentMoves (appendAgain 1) newSegment newSegmentWorld).head?.map
      (fun m => (m.segment'.cursor, (m.world'.store.get m.segment'.path).map File.pos)) =
        some (some 0, some 1) := by
    decide +kernel
  obtain ⟨m, hHead, hBoth⟩ := Option.map_eq_some_iff.mp hFirst
  rw [Prod.mk.injEq] at hBoth
  refine ⟨m, List.mem_of_head? hHead, ?_⟩
  intro hRight
  have hPos := hRight 0 hBoth.1
  rw [hBoth.2] at hPos
  cases hPos

end Kafko
