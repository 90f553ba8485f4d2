import Kafko.Partition.Batching
import Kafko.Storage.Contents

/-!
# What a writer leaves on disk when it ends

An acknowledged record is durable once the bytes of its segment file are covered by a
successful `sync_data`. Sealed segments were synced at rotation, so only the active one is
in question. A writer whose inbox is closed handles what is left in it and then syncs the
active segment; whatever that sync returns, it ends.

`Layout.Later` says how the log may have changed while the writer was handling commands: every
segment is still there and at least as long, unless retention has removed it, and what was
synced still is. A command can stop the writer with a panic, and each command comes with what it
may use up of the positions an index entry can hold (`PartitionCommand.weight`).
-/

namespace Kafko

open Disk

namespace Layout

/-- The frames of every segment lie in the synced part of its file, except where retention has
removed the file. -/
def CoveredOn (L : Layout) (d : Store FileName) : Prop :=
  ∀ c ∈ L.allChunks, ∀ f, d.get (.log c.base) = some f → flat c.frames <+: f.data.take f.synced

/-- Every segment of `L` is a segment of `L'`, possibly a longer one, or has been retired. As long
as the active segment is the same, no less of it is synced. -/
structure Later (L L' : Layout) : Prop where
  oldest : L.oldest ≤ L'.oldest
  base : L.active.base ≤ L'.active.base
  kept : ∀ c ∈ L.allChunks, c.base < L'.oldest ∨
    ∃ c' ∈ L'.allChunks, c'.base = c.base ∧ c.frames <+: c'.frames
  durable : L'.active.base = L.active.base → L.durable ≤ L'.durable

theorem Later.refl (L : Layout) : Later L L :=
  ⟨Nat.le_refl _, Nat.le_refl _, fun c hc => Or.inr ⟨c, hc, rfl, List.prefix_rfl⟩,
    fun _ => Nat.le_refl _⟩

theorem Later.trans {L L' L'' : Layout} (h : Later L L') (h' : Later L' L'') : Later L L'' := by
  refine ⟨h.oldest.trans h'.oldest, h.base.trans h'.base, ?_, ?_⟩
  · intro c hc
    rcases h.kept c hc with hGone | ⟨c', hc', hBase, hFrames⟩
    · exact Or.inl (Nat.lt_of_lt_of_le hGone h'.oldest)
    · rcases h'.kept c' hc' with hGone | ⟨c'', hc'', hBase', hFrames'⟩
      · exact Or.inl (hBase ▸ hGone)
      · exact Or.inr ⟨c'', hc'', hBase'.trans hBase, hFrames.trans hFrames'⟩
  · intro hSame
    have hMiddle : L'.active.base = L.active.base :=
      Nat.le_antisymm (hSame ▸ h'.base) h.base
    exact (h.durable hMiddle).trans (h'.durable (hSame.trans hMiddle.symm))

theorem later_push (L : Layout) (fs : List LogFrame) : Later L (L.push fs) := by
  refine ⟨Nat.le_refl _, Nat.le_refl _, ?_, fun _ => Nat.le_refl _⟩
  intro c hc
  rcases List.mem_append.mp hc with hSealed | hActive
  · exact Or.inr ⟨c, List.mem_append_left _ hSealed, rfl, List.prefix_rfl⟩
  · rw [List.mem_singleton.mp hActive]
    exact Or.inr ⟨(L.push fs).active, by simp [allChunks], rfl, List.prefix_append _ _⟩

theorem later_rotate {L : Layout} (hDurable : L.durable ≤ L.active.frames.length) :
    Later L L.rotate := by
  have hNext : L.next = L.active.base + L.active.frames.length := rfl
  refine ⟨Nat.le_refl _, ?_, ?_, ?_⟩
  · change L.active.base ≤ L.next
    omega
  · intro c hc
    exact Or.inr ⟨c, List.mem_append_left _ hc, rfl, List.prefix_rfl⟩
  · intro hSame
    change L.next = L.active.base at hSame
    change L.durable ≤ 0
    omega

theorem later_step {L : Layout} (hDurable : L.durable ≤ L.active.frames.length) (rotates : Bool)
    (fs : List LogFrame) : Later L (L.step rotates fs) := by
  cases rotates with
  | false => exact later_push L fs
  | true => exact (later_rotate hDurable).trans (later_push L.rotate fs)

theorem later_synced {L : Layout} (hDurable : L.durable ≤ L.active.frames.length) :
    Later L L.synced :=
  ⟨Nat.le_refl _, Nat.le_refl _, fun c hc => Or.inr ⟨c, hc, rfl, List.prefix_rfl⟩, fun _ => hDurable⟩

theorem later_retire {L : Layout} (h : Chain L.oldest L.chunks L.active.base) (n : Nat) :
    Later L (L.retire n) := by
  induction n generalizing L with
  | zero => exact Later.refl L
  | succ n ih =>
    cases hChunks : L.chunks with
    | nil =>
      rw [retire_nil hChunks]
      exact Later.refl L
    | cons c cs =>
      rw [hChunks] at h
      obtain ⟨hBase, hNe, hRest⟩ := h
      have hNext : c.base < c.next := Nat.lt_add_of_pos_right (List.length_pos_of_ne_nil hNe)
      have hOne : Later L { L with oldest := c.next, chunks := cs } := by
        refine ⟨by dsimp only; omega, Nat.le_refl _, ?_, fun _ => Nat.le_refl _⟩
        intro c' hc'
        rw [allChunks, hChunks, List.cons_append] at hc'
        rcases List.mem_cons.mp hc' with rfl | hc'
        · exact Or.inl hNext
        · exact Or.inr ⟨c', hc', rfl, List.prefix_rfl⟩
      rw [retire_cons hChunks]
      exact hOne.trans (ih hRest)

variable {L L' : Layout} {d : Store FileName} {f : File}

/-- The durable frames lie in the synced part of the file. -/
theorem durable_covered (h : OnDisk d L) (hf : d.get (.log L.active.base) = some f) :
    flat (L.active.frames.take L.durable) <+: f.data.take f.synced := by
  obtain ⟨g, hg, hOn⟩ := h.active
  obtain rfl : g = f := Option.some.inj (hg.symm.trans hf)
  obtain ⟨k, hLe, -, hSynced⟩ := hOn.synced
  have hData : g.data <+: flat L.active.frames := (List.prefix_append _ _).trans hOn.content
  have hFlat : flat (L.active.frames.take L.durable) <+: flat L.active.frames := by
    rw [← flat_take_append_drop L.active.frames L.durable]
    exact List.prefix_append _ _
  have hTake : g.data.take g.synced <+: flat L.active.frames :=
    (List.take_prefix _ _).trans hData
  apply List.prefix_of_prefix_length_le hFlat hTake
  rw [List.length_take, Nat.min_eq_left hOn.covered, hSynced]
  exact span_take_mono _ hLe

/-- Everything the log ever held is covered if what it had in its active segment is synced, or if
another segment is active by now. -/
theorem Later.covered (h : Later L L') (hChain : Chain L.oldest L.chunks L.active.base)
    (hDisk : OnDisk d L')
    (hDurable : L'.active.base = L.active.base → L.active.frames.length ≤ L'.durable) :
    L.CoveredOn d := by
  intro c hc f hf
  rcases h.kept c hc with hGone | ⟨c', hc', hBase, hFrames⟩
  · -- a retired segment has no file any more
    have hOldest : L'.oldest ≤ L'.active.base := hDisk.chain.le
    rcases hDisk.logs c.base (by rw [hf]; rfl) with hActive | ⟨e, he, hEq⟩
    · omega
    · have hLe : L'.oldest ≤ e.base := (hDisk.chain.mem_bounds he).1
      omega
  · rw [← hBase] at hf
    rcases List.mem_append.mp hc' with hSealed | hActive
    · obtain ⟨g, hg, hData, hSynced, -⟩ := (hDisk.chunks c' hSealed).log
      obtain rfl : g = f := Option.some.inj (hg.symm.trans hf)
      obtain ⟨gs, hgs⟩ := hFrames
      rw [hSynced, List.take_length, hData, ← hgs, flat_append]
      exact List.prefix_append _ _
    · rw [List.mem_singleton.mp hActive] at hf hBase hFrames
      have hSame : c = L.active := by
        rcases List.mem_append.mp hc with hEarlier | hLast
        · have hBounds := hChain.mem_bounds hEarlier
          have := h.base
          omega
        · exact List.mem_singleton.mp hLast
      subst hSame
      have hIn : L.active.frames <+: L'.active.frames.take L'.durable :=
        List.prefix_take_iff.mpr ⟨hFrames, hDurable hBase⟩
      obtain ⟨gs, hgs⟩ := hIn
      have hCovered := durable_covered hDisk hf
      rw [← hgs, flat_append] at hCovered
      exact (List.prefix_append _ _).trans hCovered

/-- There are files for a later layout. -/
def SinceOn (L : Layout) (d : Store FileName) : Prop := ∃ L', OnDisk d L' ∧ L.Later L'

/-- What was covered stays so. -/
theorem SinceOn.covered (h : L.synced.SinceOn d) (hChain : Chain L.oldest L.chunks L.active.base) :
    L.CoveredOn d := by
  obtain ⟨L', hDisk, hLater⟩ := h
  exact hLater.covered (L := L.synced) hChain hDisk hLater.durable

end Layout

/-- A log of which everything is covered is one whose active segment was just synced. -/
theorem Live.synced_of_covered {log : Log} {d : Store FileName} {L : Layout} (h : Live log d L)
    (hCovered : L.CoveredOn d) : Live log d L.synced := by
  obtain ⟨init, active, f, hParts⟩ := h.parts
  have hFile : d.get (.log L.active.base) = some f := hParts.file
  obtain ⟨g, hg, hOn⟩ := hParts.disk.active
  obtain rfl : g = f := Option.some.inj (hg.symm.trans hFile)
  obtain ⟨k, -, -, hSynced⟩ := hOn.synced
  have hAll : g.synced = span (L.active.frames.take L.active.frames.length) := by
    have hIn := (hCovered L.active (by simp [Layout.allChunks]) g hFile).length_le
    have hLe := span_take_le L.active.frames k
    rw [List.length_take] at hIn
    change span L.active.frames ≤ _ at hIn
    rw [List.take_length]
    omega
  have hDisk : OnDisk d L.synced := by
    refine ⟨hParts.disk.chain, hParts.disk.chunks, ⟨g, hFile, hOn.content, ?_, hOn.covered⟩,
      hParts.disk.logs, hParts.disk.indexes⟩
    exact ⟨_, Nat.le_refl _, Nat.le_refl _, hAll⟩
  exact ⟨⟨init, active, g, { hParts with disk := hDisk }⟩, h.nextOffset⟩

/-! ## What commands use up -/

/-- The bytes that the records of a command take in a segment. Poison takes all that there is. -/
def PartitionCommand.weight (X : Crates) (c : Compression) : PartitionCommand → Nat
  | .poison => 2 ^ 32
  | command => span (framesOf X c command.records)

/-- The bytes that the records of all these commands take. -/
def weigh (X : Crates) (c : Compression) (commands : List PartitionCommand) : Nat :=
  (commands.map (PartitionCommand.weight X c)).sum

/-- A position that no index entry can hold may be reached. -/
def Overrun (size weight : Nat) : Prop := 0 < weight ∧ 2 ^ 32 ≤ size + weight

section Weights

variable {X : Crates} {c : Compression}

@[simp] theorem weigh_nil : weigh X c [] = 0 := rfl

@[simp] theorem weigh_cons (command : PartitionCommand) (commands : List PartitionCommand) :
    weigh X c (command :: commands) = command.weight X c + weigh X c commands := rfl

@[simp] theorem weigh_append (cs ds : List PartitionCommand) :
    weigh X c (cs ++ ds) = weigh X c cs + weigh X c ds := by
  simp [weigh]

/-- A run of appends weighs as much as one batch of their records. -/
theorem weigh_appends {rs : List Record} {ts : List Nat} (hLen : rs.length = ts.length) :
    weigh X c (List.zipWith .append rs ts) = span (framesOf X c rs) := by
  induction rs generalizing ts with
  | nil => rfl
  | cons r rs ih =>
    obtain ⟨t, ts, rfl⟩ := List.exists_cons_of_length_eq_add_one hLen.symm
    have hSplit : framesOf X c (r :: rs) = framesOf X c [r] ++ framesOf X c rs := by
      rw [framesOf, framesOf, framesOf, ← List.filterMap_append, List.singleton_append]
    rw [List.zipWith_cons_cons, weigh_cons, ih (by simpa using hLen), hSplit, span_append]
    rfl

theorem Overrun.mono {size size' weight weight' : Nat} (h : Overrun size weight)
    (hWeight : weight ≤ weight') (hTotal : size + weight ≤ size' + weight') :
    Overrun size' weight' := by
  obtain ⟨hPos, hLarge⟩ := h
  exact ⟨by omega, by omega⟩

theorem not_overrun_zero (size : Nat) : ¬ Overrun size 0 := fun h => Nat.lt_irrefl _ h.1

theorem overrun_of_positions {start size : Nat} {gs : List LogFrame} (hStart : start ≤ size)
    (h : ¬ PositionsOk start gs) : Overrun size (span gs) := by
  unfold PositionsOk at h
  push Not at h
  obtain ⟨i, hi, hLarge⟩ := h
  have hLe := span_take_le gs i
  refine ⟨?_, by omega⟩
  rw [Nat.pos_iff_ne_zero, Ne, span_eq_zero]
  rintro rfl
  exact Nat.not_lt_zero i hi

end Weights

/-! ## Handling commands -/

/-- The log is live and later than the layout `L`, and its active segment has at most `size`
bytes. -/
structure Log.Since (log : Log) (w : World FileName) (c : Compression) (L : Layout) (size : Nat) :
    Prop where
  codec : log.config.compression = c
  later : ∃ L', Live log w.store L' ∧ L.Later L' ∧ span L'.active.frames ≤ size

/-- An operation that adds at most `weight` bytes: it ends, with a value or an error, in a log
later than `L`, or over a position that no index entry can hold. -/
def sincePost {α : Type} (c : Compression) (L : Layout) (size weight : Nat) :
    Post FileName KafkoError Log α where
  ok := fun _ log w => log.Since w c L (size + weight)
  err := fun _ log w => log.Since w c L (size + weight)
  panic := fun _ _ w => L.SinceOn w.store ∧ Overrun size weight
  crash := fun _ _ => True

namespace Log

variable {X : Crates} {env : Env FileName} {log : Log} {w : World FileName} {c : Compression}
  {L : Layout} {size : Nat}

theorem Since.on (h : log.Since w c L size) : L.SinceOn w.store := by
  obtain ⟨L', hLive, hLater, -⟩ := h.later
  exact ⟨L', hLive.disk, hLater⟩

theorem since_of_append {α : Type} {L' : Layout} {rotates : Bool} {gs : List LogFrame} {value : α}
    {prog : LogIO Log α} (hCodec : log.config.compression = c) (hDisk : OnDisk w.store L')
    (hLater : L.Later L') (hSize : span L'.active.frames ≤ size)
    (h : wp env prog (appendPost env X log L' rotates gs value) log w) :
    wp env prog (sincePost c L size (span gs)) log w := by
  have hStep := hLater.trans (Layout.later_step hDisk.durable_le rotates gs)
  refine wp_mono h ?_ ?_ ?_ (fun _ _ _ => trivial)
  · rintro a log' w' ⟨-, hConfig, -, -, hLive⟩
    refine ⟨hConfig ▸ hCodec, _, hLive, hStep, ?_⟩
    cases rotates with
    | false =>
      change span (L'.active.frames ++ gs) ≤ _
      rw [span_append]
      omega
    | true =>
      change span ([] ++ gs) ≤ _
      rw [List.nil_append]
      omega
  · rintro e log' w' ⟨hConfig, hEnd, -⟩
    refine ⟨hConfig ▸ hCodec, ?_⟩
    rcases hEnd with ⟨-, hLive⟩ | ⟨-, hLive⟩
    · exact ⟨_, hLive, hLater, by omega⟩
    · exact ⟨_, hLive, hLater.trans (Layout.later_rotate hDisk.durable_le), Nat.zero_le _⟩
  · rintro m log' w' ⟨hLarge, hDisk'⟩
    refine ⟨⟨_, hDisk', hStep⟩, overrun_of_positions ?_ hLarge⟩
    cases rotates with
    | false => exact hSize
    | true => exact Nat.zero_le _

theorem append_since (hClean : Clean env) (h : log.Since w c L size) (r : Record) :
    wp env (append X r) (sincePost c L size (span (framesOf X c [r]))) log w := by
  obtain ⟨rfl, L', hLive, hLater, hSize⟩ := h
  exact since_of_append rfl hLive.disk hLater hSize (append_spec hClean hLive X r rfl)

theorem appendBatch_since (hClean : Clean env) (h : log.Since w c L size) (rs : List Record) :
    wp env (appendBatch X rs) (sincePost c L size (span (framesOf X c rs))) log w := by
  cases rs with
  | nil => exact h
  | cons r rs =>
    obtain ⟨rfl, L', hLive, hLater, hSize⟩ := h
    exact since_of_append rfl hLive.disk hLater hSize (appendBatch_spec hClean hLive X r rs rfl)

theorem sync_since (h : log.Since w c L size) : wp env sync (sincePost c L size 0) log w := by
  obtain ⟨hCodec, L', hLive, hLater, hSize⟩ := h
  refine wp_mono (sync_spec hLive) ?_ ?_ (fun _ _ _ hF => hF.elim) (fun _ _ _ => trivial)
  · rintro - log' w' ⟨rfl, hLive'⟩
    exact ⟨hCodec, _, hLive', hLater.trans (Layout.later_synced hLive.disk.durable_le), hSize⟩
  · rintro e log' w' ⟨-, rfl, hLive'⟩
    exact ⟨hCodec, _, hLive', hLater, hSize⟩

theorem readRecordAt_since (hClean : Clean env) (h : log.Since w c L size) (offset : Nat) :
    wp env (readRecordAt X offset) (sincePost c L size 0) log w := by
  obtain ⟨hCodec, L', hLive, hLater, hSize⟩ := h
  refine wp_mono (readRecordAt_keeps hClean.fullReads hLive X offset) ?_ ?_
    (fun _ _ _ hF => hF.elim) (fun _ _ _ => trivial)
  · rintro r log' w' ⟨hShape, hLive', -⟩
    exact ⟨hShape.config ▸ hCodec, _, hLive', hLater, hSize⟩
  · rintro e log' w' ⟨hShape, hLive', -⟩
    exact ⟨hShape.config ▸ hCodec, _, hLive', hLater, hSize⟩

theorem applyRetention_since (hClean : Clean env) (h : log.Since w c L size) :
    wp env applyRetention (sincePost c L size 0) log w := by
  obtain ⟨hCodec, L', hLive, hLater, hSize⟩ := h
  have hRetire : ∀ n, L.Later (L'.retire n) ∧ span (L'.retire n).active.frames ≤ size + 0 := by
    intro n
    rw [Layout.active_retire]
    exact ⟨hLater.trans (Layout.later_retire hLive.disk.chain n), hSize⟩
  refine wp_mono (applyRetention_spec hClean hLive) ?_ ?_ (fun _ _ _ hF => hF.elim)
    (fun _ _ _ => trivial)
  · rintro n log' w' ⟨hConfig, hLive', -⟩
    exact ⟨hConfig ▸ hCodec, _, hLive', hRetire n⟩
  · rintro e log' w' ⟨-, hConfig, ⟨n, hLive'⟩, -⟩
    exact ⟨hConfig ▸ hCodec, _, hLive', hRetire n⟩

end Log

namespace PartitionWriter

variable {X : Crates} {env : Env FileName} {s : PartitionWriter} {w : World FileName}
  {c : Compression} {L : Layout} {size n weight weight' : Nat} {α : Type}

/-- The writer goes on with a log later than `L`, having used up some of the weight of what it was
given; the rest is in its inbox. Or it panics, having used up too much. -/
def servesSince (X : Crates) (c : Compression) (L : Layout) (size weight : Nat) :
    Post FileName KafkoError PartitionWriter Unit where
  ok := fun _ s w => ∃ n, s.log.Since w c L (size + n) ∧ n + weigh X c s.inbox ≤ weight
  err := fun _ _ _ => False
  panic := fun _ _ w => L.SinceOn w.store ∧ Overrun size weight
  crash := fun _ _ => True

/-- What is left after `n` bytes. -/
theorem servesSince_add {m : LogIO PartitionWriter Unit}
    (h : wp env m (servesSince X c L (size + n) weight') s w) (hWeight : n + weight' ≤ weight) :
    wp env m (servesSince X c L size weight) s w := by
  refine wp_mono h ?_ (fun _ _ _ hF => hF) ?_ (fun _ _ _ => trivial)
  · rintro _ s' w' ⟨k, hSince, hLeft⟩
    refine ⟨n + k, ?_, by omega⟩
    rw [← Nat.add_assoc]
    exact hSince
  · rintro m s' w' ⟨hOn, hOver⟩
    exact ⟨hOn, hOver.mono (by omega) (by omega)⟩

/-- A call of the log whose result is handed on. -/
theorem wp_attempt_onLog {m : LogIO Log α}
    {k : Except KafkoError α → LogIO PartitionWriter Unit}
    (h : wp env m (sincePost c L size n) s.log w) (hWeight : n + weigh X c s.inbox ≤ weight)
    (hNext : ∀ r s' w', s'.log.Since w' c L (size + n) → n + weigh X c s'.inbox ≤ weight →
      wp env (k r) (servesSince X c L size weight) s' w') :
    wp env (Fx.attempt (onLog m) >>= k) (servesSince X c L size weight) s w := by
  rw [wp_bind, wp_attempt, onLog, wp_zoom]
  refine wp_mono h (fun _ _ _ hOk => hNext _ _ _ hOk hWeight)
    (fun _ _ _ hErr => hNext _ _ _ hErr hWeight) ?_ (fun _ _ _ => trivial)
  rintro m log' w' ⟨hOn, hOver⟩
  exact ⟨hOn, hOver.mono (by omega) (by omega)⟩

theorem takeFailNextKind_since {k : Option ErrorKind → LogIO PartitionWriter Unit}
    (h : s.log.Since w c L size)
    (hNext : ∀ kind s', s'.log.Since w c L size → s'.inbox = s.inbox →
      wp env (k kind) (servesSince X c L size weight) s' w) :
    wp env (takeFailNextKind >>= k) (servesSince X c L size weight) s w :=
  hNext s.failNextKind { s with failNextKind := none } h rfl

theorem flushAppendBatch_since (hClean : Clean env) (h : s.log.Since w c L size)
    (records : List Record) (replies : List Nat) :
    wp env (flushAppendBatch X records replies)
      (servesSince X c L size (span (framesOf X c records) + weigh X c s.inbox)) s w := by
  unfold flushAppendBatch
  split
  · exact ⟨0, h, by omega⟩
  · apply takeFailNextKind_since h
    intro kind s' h' hInbox
    rw [← hInbox]
    cases kind with
    | some kind => exact ⟨0, h', Nat.add_le_add_right (Nat.zero_le _) _⟩
    | none =>
      apply wp_attempt_onLog (Log.appendBatch_since hClean h' records) (Nat.le_refl _)
      intro r s'' w'' h'' hWeight
      cases r with
      | error e => exact ⟨_, h'', hWeight⟩
      | ok offsets =>
        dsimp only
        cases offsets.getLast? with
        | none => exact ⟨_, h'', hWeight⟩
        | some last => exact ⟨_, h'', hWeight⟩

theorem flushExplicitBatch_since (hClean : Clean env) (h : s.log.Since w c L size)
    (records : List Record) (reply : Nat) :
    wp env (flushExplicitBatch X records reply)
      (servesSince X c L size (span (framesOf X c records) + weigh X c s.inbox)) s w := by
  unfold flushExplicitBatch
  apply takeFailNextKind_since h
  intro kind s' h' hInbox
  rw [← hInbox]
  cases kind with
  | some kind => exact ⟨0, h', Nat.add_le_add_right (Nat.zero_le _) _⟩
  | none =>
    apply wp_attempt_onLog (Log.appendBatch_since hClean h' records) (Nat.le_refl _)
    intro r s'' w'' h'' hWeight
    cases r with
    | error e => exact ⟨_, h'', hWeight⟩
    | ok offsets =>
      dsimp only
      cases offsets.getLast? with
      | none => exact ⟨_, h'', hWeight⟩
      | some last => exact ⟨_, h'', hWeight⟩

theorem handleSingleCommand_since (hClean : Clean env) (h : s.log.Since w c L size)
    (command : PartitionCommand) :
    wp env (handleSingleCommand X command)
      (servesSince X c L size (command.weight X c + weigh X c s.inbox)) s w := by
  cases command with
  | append record reply =>
    apply takeFailNextKind_since h
    intro kind s' h' hInbox
    rw [← hInbox]
    cases kind with
    | some kind => exact ⟨0, h', Nat.add_le_add_right (Nat.zero_le _) _⟩
    | none =>
      apply wp_attempt_onLog (Log.append_since hClean h' record) (Nat.le_refl _)
      intro r s'' w'' h'' hWeight
      cases r with
      | error e => exact ⟨_, h'', hWeight⟩
      | ok offset => exact ⟨_, h'', hWeight⟩
  | appendBatch records reply => exact flushExplicitBatch_since hClean h records reply
  | readAt offset reply =>
    apply wp_attempt_onLog (Log.readRecordAt_since hClean h offset) (Nat.le_refl _)
    intro r s' w' h' hWeight
    cases r with
    | error e => exact ⟨_, h', hWeight⟩
    | ok record => exact ⟨_, h', hWeight⟩
  | sync reply =>
    apply wp_attempt_onLog (Log.sync_since h) (Nat.le_refl _)
    intro r s' w' h' hWeight
    cases r with
    | error e => exact ⟨_, h', hWeight⟩
    | ok _ => exact ⟨_, h', hWeight⟩
  | poison =>
    refine ⟨h.on, ?_, ?_⟩
    · change 0 < 2 ^ 32 + _
      omega
    · change 2 ^ 32 ≤ size + (2 ^ 32 + _)
      omega
  | failNextAppend kind => exact ⟨0, h, Nat.le_refl _⟩

theorem processWithBatching_since (hClean : Clean env) (h : s.log.Since w c L size)
    (ready : List Bool) (first : PartitionCommand) :
    wp env (processWithBatching X ready first)
      (servesSince X c L size (first.weight X c + weigh X c s.inbox)) s w := by
  cases first with
  | append record reply =>
    rw [processWithBatching, wp_get_bind]
    dsimp only
    rw [wp_modify_bind]
    obtain ⟨hLen, -, hSplit⟩ := drainAppends_split s.log.config.batchMaxRecords
      s.log.config.batchMaxBytes ready s.inbox [record] [reply] record.wireSize rfl
    generalize drainAppends s.log.config.batchMaxRecords s.log.config.batchMaxBytes ready s.inbox
      [record] [reply] record.wireSize = drained at hLen hSplit ⊢
    have hWeigh := congrArg (weigh X c) hSplit
    rw [weigh_append, weigh_append, weigh_append, weigh_appends hLen, List.zipWith_cons_cons,
      List.zipWith_nil_left, weigh_cons, weigh_nil, Nat.add_zero] at hWeigh
    refine wp_bind_of (flushAppendBatch_since (s := { s with inbox := drained.inbox }) hClean h
      drained.records drained.replies) ?_ (fun _ _ _ hF => hF) ?_ (fun _ _ _ => trivial)
    · rintro _ s' w' ⟨n, hSince, hLeft⟩
      dsimp only at hLeft
      cases hOther : drained.other with
      | none =>
        rw [hOther] at hWeigh
        exact ⟨n, hSince, by simp at hWeigh; omega⟩
      | some other =>
        rw [hOther, Option.toList_some, weigh_cons, weigh_nil] at hWeigh
        exact servesSince_add (handleSingleCommand_since hClean hSince other) (by omega)
    · rintro m s' w' ⟨hOn, hOver⟩
      dsimp only at hOver
      exact ⟨hOn, hOver.mono (by omega) (by omega)⟩
  | appendBatch records reply =>
    exact handleSingleCommand_since (X := X) hClean h (.appendBatch records reply)
  | readAt offset reply => exact handleSingleCommand_since (X := X) hClean h (.readAt offset reply)
  | sync reply => exact handleSingleCommand_since (X := X) hClean h (.sync reply)
  | poison => exact handleSingleCommand_since (X := X) hClean h .poison
  | failNextAppend kind => exact handleSingleCommand_since (X := X) hClean h (.failNextAppend kind)

/-- The step lemma for one turn of the writer loop. -/
theorem takeTurn_since (hClean : Clean env) (h : s.log.Since w c L size) (turn : Turn) :
    wp env (takeTurn X turn) (servesSince X c L size (weigh X c s.inbox)) s w := by
  cases turn with
  | retentionTick =>
    refine wp_attempt_onLog (Log.applyRetention_since hClean h) (Nat.zero_add _).le ?_
    exact fun _ _ _ h' hWeight => ⟨0, h', hWeight⟩
  | recv ready =>
    rw [takeTurn, wp_get_bind]
    cases hInbox : s.inbox with
    | nil => exact ⟨0, h, by rw [hInbox]; exact Nat.le_refl _⟩
    | cons first inbox =>
      dsimp only
      rw [wp_modify_bind]
      exact processWithBatching_since (s := { s with inbox := inbox }) hClean h ready first

/-- The run lemma: whatever the writer handles, its log only gets later. -/
theorem writerLoop_since (hClean : Clean env) (h : s.log.Since w c L size) (turns : List Turn) :
    wp env (writerLoop X turns) (servesSince X c L size (weigh X c s.inbox)) s w := by
  induction turns generalizing s w size with
  | nil => exact ⟨0, h, (Nat.zero_add _).le⟩
  | cons turn turns ih =>
    rw [writerLoop]
    refine wp_bind_of (takeTurn_since hClean h turn) ?_ (fun _ _ _ hF => hF)
      (fun _ _ _ hP => hP) (fun _ _ _ => trivial)
    rintro _ s' w' ⟨n, hSince, hLeft⟩
    exact servesSince_add (ih hSince) hLeft

/-! ## The end of the writer -/

/-- The file system refuses to sync the active segment. -/
def SyncRefused (env : Env FileName) (log : Log) (w : World FileName) : Prop :=
  ∃ active, log.segments.getLast? = some active ∧ env.Fails w.tick (.syncData active.segment.path)

/-- The final sync covers everything the log ever held, unless it is refused, and then it
leaves the directory as it is. Nobody is told. -/
theorem finish_spec (env : Env FileName) (hChain : Chain L.oldest L.chunks L.active.base)
    (h : s.log.Since w c L size) :
    wp env finish
      { ok := fun _ _ w' => (¬ SyncRefused env s.log w → L.CoveredOn w'.store) ∧
          (SyncRefused env s.log w → w'.store = w.store)
        err := fun _ _ _ => False
        panic := fun _ _ _ => False
        crash := fun _ _ => True } s w := by
  obtain ⟨-, L', hLive, hLater, -⟩ := h
  obtain ⟨init, active, f, hParts⟩ := hLive.parts
  have hLast : s.log.segments.getLast? = some active := by simp [hParts.split]
  have hCovers : ∀ d, OnDisk d L'.synced → L.CoveredOn d := by
    intro d hDisk
    have hAll := hLater.trans (Layout.later_synced hLive.disk.durable_le)
    refine hAll.covered hChain hDisk fun hSame => ?_
    rcases hLater.kept L.active (by simp [Layout.allChunks]) with hGone | ⟨c', hc', hBase, hFrames⟩
    · have hOldest := hLive.disk.chain.le
      change L'.active.base = L.active.base at hSame
      omega
    · have hActive : c' = L'.active := by
        rcases List.mem_append.mp hc' with hSealed | hActive
        · have hBounds := hLive.disk.chain.mem_bounds hSealed
          change L'.active.base = L.active.base at hSame
          omega
        · exact List.mem_singleton.mp hActive
      rw [hActive] at hFrames
      exact hFrames.length_le
  rw [finish, wp_bind, wp_attempt, onLog, wp_zoom, Log.sync, wp_bind]
  by_cases hRefused : SyncRefused env s.log w
  · obtain ⟨active', hActive, hFails⟩ := hRefused
    obtain rfl : active' = active := Option.some.inj (hActive.symm.trans hLast)
    rw [Log.wp_onActive hParts.split, IndexedSegment.onSegment, wp_zoom, Segment.sync,
      wp_get_bind]
    have hYes : SyncRefused env s.log w := ⟨active', hActive, hFails⟩
    unfold Fx.syncData Fx.onFile
    apply wp_perform_fails hFails
    intro kind k
    exact ⟨fun hNot => absurd hYes hNot, fun _ => rfl⟩
  · refine wp_mono (Log.syncSegment_spec hParts) ?_ ?_ (fun _ _ _ hF => hF) (fun _ _ _ => trivial)
    · rintro - log' w' ⟨rfl, hSynced⟩
      have hCovered : L.CoveredOn w'.store := hCovers _ hSynced.disk
      refine wp_mono (Log.syncIndex_spec hSynced) ?_ ?_ (fun _ _ _ hF => hF)
        (fun _ _ _ => trivial)
      · rintro - log' w'' ⟨rfl, hBoth, -⟩
        exact ⟨fun _ => hCovers _ hBoth.disk, fun hYes => absurd hYes hRefused⟩
      · rintro e log' w'' ⟨-, rfl, hw⟩
        refine ⟨fun _ => ?_, fun hYes => absurd hYes hRefused⟩
        rw [hw]
        exact hCovered
    · rintro e log' w' ⟨hFails, -, -⟩
      exact absurd ⟨active, hLast, hFails⟩ hRefused

/-- What was covered before the final sync is covered after it, and all of it is if the sync of the
segment that was active in `L` is not refused: another active segment was sealed with a sync. -/
theorem finish_covers (env : Env FileName) (hChain : Chain L.oldest L.chunks L.active.base)
    (h : s.log.Since w c L size) (hWhy : L.active.frames.length ≤ L.durable ∨
      ∀ tick, ¬ env.Fails tick (.syncData (.log L.active.base))) :
    wp env finish
      { ok := fun _ _ w' => L.CoveredOn w'.store
        err := fun _ _ _ => False
        panic := fun _ _ _ => False
        crash := fun _ _ => True } s w := by
  refine wp_mono (finish_spec env hChain h) ?_ (fun _ _ _ hF => hF) (fun _ _ _ hF => hF)
    (fun _ _ _ => trivial)
  rintro _ s' w' ⟨hSynced, hKept⟩
  change L.CoveredOn w'.store
  by_cases hRefused : SyncRefused env s.log w
  · rw [hKept hRefused]
    obtain ⟨-, L', hLive, hLater, -⟩ := h
    refine hLater.covered hChain hLive.disk fun hSame => ?_
    rcases hWhy with hFull | hAccepted
    · exact hFull.trans (hLater.durable hSame)
    · obtain ⟨active, hActive, hFails⟩ := hRefused
      obtain ⟨init, last, f, hParts⟩ := hLive.parts
      obtain rfl : active = last := by
        rw [hParts.split, List.getLast?_concat] at hActive
        exact (Option.some.inj hActive).symm
      rw [hParts.logPath, hSame] at hFails
      exact absurd hFails (hAccepted _)
  · exact hSynced hRefused

end PartitionWriter

/-! ## A writer that only reads -/

/-- Whether a command may write to the log or sync it. -/
def PartitionCommand.stores : PartitionCommand → Bool
  | append _ _ => true
  | appendBatch _ _ => true
  | sync _ => true
  | _ => false

/-- Whether the writer takes a command off its inbox. -/
def PartitionWriter.Turn.receives : PartitionWriter.Turn → Bool
  | recv _ => true
  | retentionTick => false

/-- The file of the active segment has the same bytes, as many of them synced. -/
def Layout.StillOn (L : Layout) (d d' : Store FileName) : Prop :=
  (d'.get (.log L.active.base)).map File.rewind = (d.get (.log L.active.base)).map File.rewind

/-- If the file is the same, no more is covered. -/
theorem Layout.StillOn.covered {L : Layout} {d d' : Store FileName} (h : L.StillOn d d')
    (hDisk : OnDisk d L) (hCovered : L.CoveredOn d') : L.CoveredOn d := by
  intro c hc f hf
  rcases List.mem_append.mp hc with hSealed | hActive
  · obtain ⟨g, hg, hData, hSynced, -⟩ := (hDisk.chunks c hSealed).log
    obtain rfl : g = f := Option.some.inj (hg.symm.trans hf)
    rw [hSynced, List.take_length, hData]
  · rw [List.mem_singleton.mp hActive] at hf ⊢
    have hSame : (d'.get (.log L.active.base)).map File.rewind = some f.rewind := by
      rw [h, hf]
      rfl
    obtain ⟨g, hg, hRewind⟩ := Option.map_eq_some_iff.mp hSame
    have hIn := hCovered L.active (by simp [Layout.allChunks]) g hg
    simp only [File.rewind, File.mk.injEq] at hRewind
    rwa [hRewind.1, hRewind.2.1] at hIn

namespace PartitionWriter

variable {X : Crates} {env : Env FileName} {s : PartitionWriter} {w : World FileName}
  {L : Layout} {d : Store FileName} {α : Type}

/-- The log is live, its active segment is as it was in `d`, and no command in the inbox will change
that. -/
structure Resting (L : Layout) (d : Store FileName) (s : PartitionWriter) (w : World FileName) :
    Prop where
  live : ∃ L', Live s.log w.store L' ∧ L'.active = L.active
  file : L.StillOn d w.store
  idle : ∀ command ∈ s.inbox, command.stores = false

/-- The writer has taken some commands off its inbox, none of them poison, or it panics. -/
def restsPost (L : Layout) (d : Store FileName) (inbox : List PartitionCommand) (taken : Nat) :
    Post FileName KafkoError PartitionWriter Unit where
  ok := fun _ s w => s.Resting L d w ∧ s.inbox.length ≤ inbox.length - taken ∧
    (.poison ∈ inbox → .poison ∈ s.inbox)
  err := fun _ _ _ => False
  panic := fun _ _ w => L.StillOn d w.store
  crash := fun _ _ => True

/-- A call of the log that changes no file of a `.log` but an older one. -/
theorem wp_attempt_rests {m : LogIO Log α} {k : Except KafkoError α → LogIO PartitionWriter Unit}
    {Q : Post FileName KafkoError PartitionWriter Unit}
    (h : wp env m
      { ok := fun _ log' w' => ∃ L', Live log' w'.store L' ∧ L'.active = L.active ∧
          L.StillOn d w'.store
        err := fun _ log' w' => ∃ L', Live log' w'.store L' ∧ L'.active = L.active ∧
          L.StillOn d w'.store
        panic := fun _ _ _ => False
        crash := fun _ _ => True } s.log w)
    (hIdle : ∀ command ∈ s.inbox, command.stores = false) (hCrash : ∀ s w, Q.crash s w)
    (hNext : ∀ r s' w', s'.Resting L d w' → s'.inbox = s.inbox → wp env (k r) Q s' w') :
    wp env (Fx.attempt (onLog m) >>= k) Q s w := by
  rw [wp_bind, wp_attempt, onLog, wp_zoom]
  refine wp_mono h ?_ ?_ (fun _ _ _ hF => hF.elim) (fun _ _ _ => hCrash _ _)
  · rintro a log' w' ⟨L', hLive, hActive, hFile⟩
    exact hNext _ _ _ ⟨⟨L', hLive, hActive⟩, hFile, hIdle⟩ rfl
  · rintro e log' w' ⟨L', hLive, hActive, hFile⟩
    exact hNext _ _ _ ⟨⟨L', hLive, hActive⟩, hFile, hIdle⟩ rfl

/-- A retention pass leaves the active segment alone. -/
theorem retention_rests (hClean : Clean env) (h : s.Resting L d w) :
    wp env (takeTurn X .retentionTick) (restsPost L d s.inbox 0) s w := by
  obtain ⟨⟨L', hLive, hActive⟩, hFile, hIdle⟩ := h
  refine wp_attempt_rests (L := L) (d := d) ?_ hIdle (fun _ _ => trivial) ?_
  · have hStill : ∀ d', d'.get (.log L'.active.base) = w.store.get (.log L'.active.base) →
        L.StillOn d d' := by
      intro d' hSame
      rw [hActive] at hSame
      rw [Layout.StillOn, hSame]
      exact hFile
    refine wp_mono (Log.applyRetention_spec hClean hLive) ?_ ?_ (fun _ _ _ hF => hF)
      (fun _ _ _ => trivial)
    · rintro n log' w' ⟨-, hLive', hSame⟩
      exact ⟨_, hLive', (L'.active_retire n).trans hActive, hStill _ hSame⟩
    · rintro e log' w' ⟨-, -, ⟨n, hLive'⟩, hSame⟩
      exact ⟨_, hLive', (L'.active_retire n).trans hActive, hStill _ hSame⟩
  · intro _ s' w' hRest hInbox
    exact ⟨hRest, hInbox ▸ Nat.le_refl _, fun hPoison => hInbox ▸ hPoison⟩

/-- The step lemma for one turn. -/
theorem takeTurn_rests (hClean : Clean env) (h : s.Resting L d w) (turn : Turn) :
    wp env (takeTurn X turn) (restsPost L d s.inbox turn.receives.toNat) s w := by
  cases turn with
  | retentionTick => exact retention_rests hClean h
  | recv ready =>
    obtain ⟨⟨L', hLive, hActive⟩, hFile, hIdle⟩ := h
    rw [takeTurn, wp_get_bind]
    cases hInbox : s.inbox with
    | nil => exact ⟨⟨⟨L', hLive, hActive⟩, hFile, hIdle⟩, by simp [hInbox], fun hIn => nomatch hIn⟩
    | cons first inbox =>
      rw [hInbox] at hIdle
      have hRest : ∀ command ∈ inbox, command.stores = false :=
        fun command hMem => hIdle command (List.mem_cons_of_mem _ hMem)
      dsimp only
      rw [wp_modify_bind]
      cases first with
      | append record reply => cases hIdle _ List.mem_cons_self
      | appendBatch records reply => cases hIdle _ List.mem_cons_self
      | sync reply => cases hIdle _ List.mem_cons_self
      | poison => exact hFile
      | failNextAppend kind =>
        exact ⟨⟨⟨L', hLive, hActive⟩, hFile, hRest⟩, Nat.le_refl _, fun hIn => by simpa using hIn⟩
      | readAt offset reply =>
        refine wp_attempt_rests (s := { s with inbox := inbox }) (L := L) (d := d) ?_ hRest
          (fun _ _ => trivial) ?_
        · have hStill : ∀ d' : Store FileName, (∀ name,
              (d'.get name).map File.rewind = (w.store.get name).map File.rewind) →
              L.StillOn d d' := fun d' hSame => (hSame _).trans hFile
          refine wp_mono (Log.readRecordAt_keeps hClean.fullReads hLive X offset) ?_ ?_
            (fun _ _ _ hF => hF) (fun _ _ _ => trivial)
          · exact fun r log' w' hOk => ⟨_, hOk.2.1, hActive, hStill _ hOk.2.2⟩
          · exact fun e log' w' hErr => ⟨_, hErr.2.1, hActive, hStill _ hErr.2.2⟩
        · intro r s' w' hResting hSame
          have hLeft : s'.inbox.length ≤ (PartitionCommand.readAt offset reply :: inbox).length - 1 := by
            rw [hSame]
            exact Nat.le_refl _
          have hPoison : PartitionCommand.poison ∈ PartitionCommand.readAt offset reply :: inbox →
              .poison ∈ s'.inbox := by
            intro hIn
            rw [hSame]
            simpa using hIn
          have hSent : ∀ result, (Resting L d { s' with
              sent := s'.sent ++ [(reply, result)]
              emitted := s'.emitted ++ [.reply reply result] } w') :=
            fun _ => ⟨hResting.live, hResting.file, hResting.idle⟩
          cases r with
          | error e => exact ⟨hSent _, hLeft, hPoison⟩
          | ok record => exact ⟨hSent _, hLeft, hPoison⟩

/-- The run lemma: a writer that only reads changes nothing, and gets past no poison. -/
theorem writerLoop_rests (hClean : Clean env) (h : s.Resting L d w) (turns : List Turn) :
    wp env (writerLoop X turns)
      (restsPost L d s.inbox (turns.countP Turn.receives)) s w := by
  induction turns generalizing s w with
  | nil => exact ⟨h, Nat.le_refl _, fun hIn => hIn⟩
  | cons turn turns ih =>
    rw [writerLoop]
    refine wp_bind_of (takeTurn_rests hClean h turn) ?_ (fun _ _ _ hF => hF)
      (fun _ _ _ hP => hP) (fun _ _ _ => trivial)
    rintro _ s' w' ⟨hResting, hLeft, hPoison⟩
    refine wp_mono (ih hResting) ?_ (fun _ _ _ hF => hF) (fun _ _ _ hP => hP)
      (fun _ _ _ => trivial)
    rintro _ s'' w'' ⟨hResting', hLeft', hPoison'⟩
    refine ⟨hResting', ?_, fun hIn => hPoison' (hPoison hIn)⟩
    rw [List.countP_cons]
    cases hReceives : turn.receives with
    | false =>
      rw [hReceives, Bool.toNat_false] at hLeft
      simp only [Bool.false_eq_true, if_false]
      omega
    | true =>
      rw [hReceives, Bool.toNat_true] at hLeft
      simp only [if_true]
      omega

end PartitionWriter

end Kafko
