import Kafko.Partition.Batching

/-!
# The high-water mark

The writer keeps a copy of the next offset on a watch channel and sends a new value after each
append that succeeds. A log moves its next offset only as the last thing an append does, so
however a command ends the two agree again before the next one is taken, whatever the file
system does in between.

`Emitted.Disciplined` is what readers of the channel and callers can rely on, in terms of what
left the writer and in which order.
-/

namespace Kafko

open Disk

/-! ## The next offset of a log -/

namespace Log

variable {X : Crates} {env : Env FileName} {log : Log} {w : World FileName} {α : Type}

/-- The next offset moves by `n` if the operation succeeds, and not at all if it fails. -/
def advancing (log : Log) (n : Nat) (value : α) : Post FileName KafkoError Log α where
  ok := fun a log' _ => a = value ∧ log'.nextOffset = log.nextOffset + n
  err := fun _ log' _ => log'.nextOffset = log.nextOffset
  panic := fun _ _ _ => True
  crash := fun _ _ => True

/-- Nothing moves the next offset. -/
def standing (log : Log) : Post FileName KafkoError Log α where
  ok := fun _ log' _ => log'.nextOffset = log.nextOffset
  err := fun _ log' _ => log'.nextOffset = log.nextOffset
  panic := fun _ _ _ => True
  crash := fun _ _ => True

theorem wp_standing {m : LogIO Log α} (h : Fx.Leaves Log.nextOffset m) :
    wp env m (standing log) log w := by
  have hm := h env log w
  unfold wp
  rcases hRun : m env log w with ⟨r, log', w'⟩
  rw [hRun] at hm
  cases r with
  | ok a => exact hm
  | err e => exact hm
  | panic p => trivial
  | crash => trivial

/-- The first part of an operation that moves the next offset in the end. -/
theorem wp_advancing_bind {β : Type} {m : LogIO Log β} {f : β → LogIO Log α} {log₀ : Log} {n : Nat}
    {value : α} (h : Fx.Leaves Log.nextOffset m) (hLog : log.nextOffset = log₀.nextOffset)
    (hf : ∀ a log' w', log'.nextOffset = log₀.nextOffset →
      wp env (f a) (advancing log₀ n value) log' w') :
    wp env (m >>= f) (advancing log₀ n value) log w :=
  wp_bind_of (wp_standing h) (fun a log' w' h' => hf a log' w' (h'.trans hLog))
    (fun _ _ _ h' => h'.trans hLog) (fun _ _ _ _ => trivial) (fun _ _ _ => trivial)

theorem leaves_onActive (m : LogIO IndexedSegment α) : Fx.Leaves Log.nextOffset (onActive m) := by
  intro env log w
  unfold onActive
  cases log.segments.getLast? with
  | none => rfl
  | some active =>
    rcases m env active w with ⟨r, active', w'⟩
    rfl

theorem leaves_onSegmentAt (i : Nat) (m : LogIO IndexedSegment α) :
    Fx.Leaves Log.nextOffset (onSegmentAt i m) := by
  intro env log w
  unfold onSegmentAt
  cases log.segments[i]? with
  | none => rfl
  | some pair =>
    rcases m env pair w with ⟨r, pair', w'⟩
    rfl

theorem leaves_activeWouldOverflow (n : Nat) :
    Fx.Leaves Log.nextOffset (activeWouldOverflow n) := by
  refine Fx.Leaves.get.bind fun log => ?_
  cases log.segments.getLast? with
  | none => exact Fx.Leaves.panic _
  | some active => exact Fx.Leaves.pure _

theorem leaves_sync : Fx.Leaves Log.nextOffset sync :=
  (leaves_onActive _).bind fun _ => leaves_onActive _

theorem leaves_rotateActiveSegment : Fx.Leaves Log.nextOffset rotateActiveSegment := by
  refine (leaves_onActive _).bind fun _ => (leaves_onActive _).bind fun _ =>
    Fx.Leaves.get.bind fun log => ?_
  have hSegment : Fx.Leaves Log.nextOffset (Segment.create log.nextOffset) :=
    (Fx.Leaves.perform _ _ _ _).bind fun _ => Fx.Leaves.pure _
  have hIndex : Fx.Leaves Log.nextOffset
      (SparseIndex.create log.nextOffset log.config.indexInterval) :=
    (Fx.Leaves.perform _ _ _ _).bind fun _ => Fx.Leaves.pure _
  exact hSegment.bind fun _ => hIndex.bind fun _ => Fx.Leaves.modify fun _ => rfl

theorem leaves_trackBatch (sizes : List Nat) (offset filePos : Nat) :
    Fx.Leaves Log.nextOffset (trackBatch sizes offset filePos) := by
  induction sizes generalizing offset filePos with
  | nil => exact Fx.Leaves.pure _
  | cons size sizes ih => exact (leaves_onActive _).bind fun _ => ih _ _

theorem leaves_readRecordAt (X : Crates) (offset : Nat) :
    Fx.Leaves Log.nextOffset (readRecordAt X offset) := by
  refine Fx.Leaves.get.bind fun log => ?_
  split
  · exact Fx.Leaves.pure _
  · exact leaves_onSegmentAt _ _

theorem leaves_deleteOldestSegment : Fx.Leaves Log.nextOffset deleteOldestSegment := by
  refine Fx.Leaves.get.bind fun log => ?_
  cases log.segments with
  | nil => exact Fx.Leaves.panic _
  | cons oldest rest =>
    have hSegment : Fx.Leaves Log.nextOffset
        (Fx.remove oldest.segment.path : LogIO Log Unit) := Fx.Leaves.perform _ _ _ _
    have hIndex : Fx.Leaves Log.nextOffset
        (removeIfExists (.index oldest.segment.baseOffset) : LogIO Log Unit) :=
      (Fx.Leaves.perform _ _ _ _).recover
    refine Fx.Leaves.bind (Fx.Leaves.modify ?_) fun _ => hSegment.bind fun _ => hIndex
    exact fun _ => rfl

theorem leaves_lastModifiedMs (s : Segment) : Fx.Leaves Log.nextOffset s.lastModifiedMs := by
  refine Fx.Leaves.bind ?_ fun _ => Fx.Leaves.pure _
  intro env log w
  exact Fx.Leaves.perform _ _ _ _ env log w

theorem leaves_deleteByAge (cutoff : Int) (fuel : Nat) :
    Fx.Leaves Log.nextOffset (deleteByAge cutoff fuel) := by
  induction fuel with
  | zero => exact Fx.Leaves.pure _
  | succ fuel ih =>
    refine Fx.Leaves.get.bind fun log => ?_
    split
    · refine (leaves_lastModifiedMs _).bind fun mtime => ?_
      split
      · exact leaves_deleteOldestSegment.bind fun _ => ih.bind fun _ => Fx.Leaves.pure _
      · exact Fx.Leaves.pure _
    · exact Fx.Leaves.pure _

theorem leaves_deleteBySize (maxBytes fuel : Nat) :
    Fx.Leaves Log.nextOffset (deleteBySize maxBytes fuel) := by
  induction fuel with
  | zero => exact Fx.Leaves.pure _
  | succ fuel ih =>
    refine Fx.Leaves.get.bind fun log => ?_
    split
    · exact leaves_deleteOldestSegment.bind fun _ => ih.bind fun _ => Fx.Leaves.pure _
    · exact Fx.Leaves.pure _

theorem leaves_applyRetention : Fx.Leaves Log.nextOffset applyRetention := by
  have hSize : ∀ byAge : Nat, Fx.Leaves Log.nextOffset (sizePass byAge) := by
    intro byAge
    refine Fx.Leaves.get.bind fun log => ?_
    cases log.config.maxPartitionBytes with
    | none => exact (Fx.Leaves.pure _).bind fun _ => Fx.Leaves.pure _
    | some maxBytes => exact (leaves_deleteBySize _ _).bind fun _ => Fx.Leaves.pure _
  refine Fx.Leaves.now.bind fun now => Fx.Leaves.get.bind fun log => ?_
  cases log.config.maxSegmentAge with
  | none => exact (Fx.Leaves.pure _).bind hSize
  | some maxAge => exact (leaves_deleteByAge _ _).bind hSize

/-- The first half of both appends. -/
theorem wp_advancing_rotate {n k : Nat} {prog : LogIO Log α} {value : α}
    (hProg : ∀ log' w', log'.nextOffset = log.nextOffset →
      wp env prog (advancing log k value) log' w') :
    wp env (activeWouldOverflow n >>= fun b =>
        if b = true then rotateActiveSegment >>= fun _ => prog else prog)
      (advancing log k value) log w := by
  refine wp_advancing_bind (leaves_activeWouldOverflow _) rfl fun rotates log₁ w₁ h₁ => ?_
  cases rotates with
  | false => exact hProg log₁ w₁ h₁
  | true =>
    exact wp_advancing_bind leaves_rotateActiveSegment h₁ fun _ log₂ w₂ h₂ => hProg log₂ w₂ h₂

theorem append_advances (X : Crates) (r : Record) :
    wp env (append X r) (advancing log 1 log.nextOffset) log w := by
  rw [append]
  refine wp_advancing_rotate fun log₂ w₂ h₂ => ?_
  rw [wp_get_bind]
  refine wp_advancing_bind (Fx.Leaves.lift _) h₂ fun encoded log₃ w₃ h₃ => ?_
  refine wp_advancing_bind (leaves_onActive _) h₃ fun filePos log₄ w₄ h₄ => ?_
  refine wp_advancing_bind (leaves_onActive _) h₄ fun _ log₅ w₅ h₅ => ?_
  rw [wp_modify_bind, wp_pure]
  refine ⟨h₂, ?_⟩
  change log₅.nextOffset + 1 = _
  rw [h₅]

theorem appendBatch_advances (X : Crates) (rs : List Record) :
    wp env (appendBatch X rs) (advancing log rs.length (List.range' log.nextOffset rs.length))
      log w := by
  unfold appendBatch
  split
  · rename_i hEmpty
    obtain rfl : rs = [] := by simpa using hEmpty
    exact ⟨rfl, rfl⟩
  · refine wp_advancing_rotate fun log₂ w₂ h₂ => ?_
    rw [wp_get_bind]
    refine wp_advancing_bind (Fx.Leaves.lift _) h₂ fun encoded log₃ w₃ h₃ => ?_
    refine wp_advancing_bind (leaves_onActive _) h₃ fun filePos log₄ w₄ h₄ => ?_
    refine wp_advancing_bind (leaves_trackBatch _ _ _) h₄ fun _ log₅ w₅ h₅ => ?_
    rw [wp_modify_bind, wp_pure]
    refine ⟨by rw [h₂], ?_⟩
    change log₅.nextOffset + rs.length = _
    rw [h₅]

end Log

/-! ## What leaves the writer -/

namespace Emitted

/-- The values sent on the watch channel, in order. -/
def marks (events : List Emitted) : List Nat :=
  events.filterMap fun
    | mark value => some value
    | reply _ _ => none

/-- The value a reader of the watch channel sees after these events. -/
def seen (events : List Emitted) : Option Nat := (marks events).getLast?

/-- The offsets a result acknowledges. -/
def given : Except KafkoError Reply → List Nat
  | .ok answer => answer.given
  | .error _ => []

/-- The mark never falls, an offset is acknowledged only below the mark, and the mark is never
inside of an acknowledged batch. -/
structure Disciplined (events : List Emitted) (hwm : Nat) : Prop where
  current : seen events = some hwm
  ascending : (marks events).Pairwise (· ≤ ·)
  published : ∀ before t result after, events = before ++ reply t result :: after →
    ∀ offset ∈ given result, ∃ value, seen before = some value ∧ offset < value
  whole : ∀ t offsets, reply t (.ok (.offsets offsets)) ∈ events → ∀ value ∈ marks events,
    (∀ offset ∈ offsets, value ≤ offset) ∨ ∀ offset ∈ offsets, offset < value

variable {events : List Emitted} {hwm : Nat}

theorem marks_append (before after : List Emitted) :
    marks (before ++ after) = marks before ++ marks after := List.filterMap_append

theorem marks_reply (t : Nat) (result : Except KafkoError Reply) : marks [reply t result] = [] :=
  rfl

theorem Disciplined.bounded (h : Disciplined events hwm) {value : Nat}
    (hv : value ∈ marks events) : value ≤ hwm := by
  have hAscending := h.ascending
  obtain ⟨before, hSplit⟩ := List.getLast?_eq_some_iff.mp h.current
  rw [hSplit] at hv hAscending
  rcases List.mem_append.mp hv with hOld | hLast
  · exact (List.pairwise_append.mp hAscending).2.2 value hOld hwm (List.mem_singleton_self _)
  · exact (List.mem_singleton.mp hLast).le

/-- What was acknowledged lies below the mark. -/
theorem Disciplined.given_lt (h : Disciplined events hwm) {t : Nat}
    {result : Except KafkoError Reply} (hReply : reply t result ∈ events) {offset : Nat}
    (hOffset : offset ∈ given result) : offset < hwm := by
  obtain ⟨before, after, hSplit⟩ := List.append_of_mem hReply
  obtain ⟨value, hSeen, hLt⟩ := h.published before t result after hSplit offset hOffset
  have hMem : value ∈ marks events := by
    rw [hSplit, marks_append]
    exact List.mem_append_left _ (List.mem_of_getLast? hSeen)
  exact hLt.trans_le (h.bounded hMem)

/-- A split of a longer list at a reply is one of the shorter list, or at the new event. -/
theorem split_snoc {before after : List Emitted} {t : Nat} {result : Except KafkoError Reply}
    {event : Emitted} (h : events ++ [event] = before ++ reply t result :: after) :
    (∃ after', events = before ++ reply t result :: after') ∨
      before = events ∧ event = reply t result := by
  rcases List.eq_nil_or_concat after with rfl | ⟨after', last, rfl⟩
  · obtain ⟨hBefore, hEvent⟩ := List.append_inj' h rfl
    exact Or.inr ⟨hBefore.symm, by simpa using hEvent⟩
  · refine Or.inl ⟨after', ?_⟩
    have hEq : events ++ [event] = (before ++ reply t result :: after') ++ [last] := by
      simpa [List.concat_eq_append] using h
    exact (List.append_inj' hEq rfl).1

theorem Disciplined.mark (h : Disciplined events hwm) {value : Nat} (hLe : hwm ≤ value) :
    Disciplined (events ++ [.mark value]) value := by
  have hMarks : marks (events ++ [.mark value]) = marks events ++ [value] := marks_append _ _
  refine ⟨?_, ?_, ?_, ?_⟩
  · rw [seen, hMarks, List.getLast?_concat]
  · rw [hMarks, List.pairwise_append]
    refine ⟨h.ascending, List.pairwise_singleton _ _, ?_⟩
    intro a ha b hb
    rw [List.mem_singleton.mp hb]
    exact (h.bounded ha).trans hLe
  · intro before t result after hSplit
    rcases split_snoc hSplit with ⟨after', hOld⟩ | ⟨-, hEvent⟩
    · exact h.published before t result after' hOld
    · cases hEvent
  · intro t offsets hReply v hv
    have hOld : reply t (.ok (.offsets offsets)) ∈ events := by simpa using hReply
    rw [hMarks] at hv
    rcases List.mem_append.mp hv with hv | hv
    · exact h.whole t offsets hOld v hv
    · right
      intro offset hOffset
      rw [List.mem_singleton.mp hv]
      exact (h.given_lt hOld hOffset).trans_le hLe

/-- A reply that acknowledges only what lies below the mark, a batch as a whole. -/
theorem Disciplined.reply (h : Disciplined events hwm) (t : Nat) {result : Except KafkoError Reply}
    (hGiven : ∀ offset ∈ given result, offset < hwm)
    (hWhole : ∀ offsets, result = .ok (.offsets offsets) → ∀ value ∈ marks events,
      (∀ offset ∈ offsets, value ≤ offset) ∨ ∀ offset ∈ offsets, offset < value) :
    Disciplined (events ++ [.reply t result]) hwm := by
  have hMarks : marks (events ++ [.reply t result]) = marks events := by
    rw [marks_append, marks_reply, List.append_nil]
  refine ⟨?_, ?_, ?_, ?_⟩
  · rw [seen, hMarks]
    exact h.current
  · rw [hMarks]
    exact h.ascending
  · intro before t' result' after hSplit offset hOffset
    rcases split_snoc hSplit with ⟨after', hOld⟩ | ⟨rfl, hEvent⟩
    · exact h.published before t' result' after' hOld offset hOffset
    · cases hEvent
      exact ⟨hwm, h.current, hGiven offset hOffset⟩
  · intro t' offsets hReply value hv
    rw [hMarks] at hv
    rcases List.mem_append.mp hReply with hOld | hNew
    · exact h.whole t' offsets hOld value hv
    · obtain ⟨-, hResult⟩ : t' = t ∧ .ok (.offsets offsets) = result := by simpa using hNew
      exact hWhole offsets hResult.symm value hv

/-- Replies that acknowledge single records or nothing. -/
theorem Disciplined.replies (h : Disciplined events hwm)
    (results : List (Nat × Except KafkoError Reply))
    (hGiven : ∀ r ∈ results, ∀ offset ∈ given r.2, offset < hwm)
    (hSingle : ∀ r ∈ results, ∀ offsets, r.2 ≠ .ok (.offsets offsets)) :
    Disciplined (events ++ results.map fun (t, result) => .reply t result) hwm := by
  induction results generalizing events with
  | nil => simpa using h
  | cons r results ih =>
    have hFirst := h.reply r.1 (hGiven r List.mem_cons_self)
      (fun offsets hEq => absurd hEq (hSingle r List.mem_cons_self offsets))
    have hRest := ih hFirst (fun r' hr' => hGiven r' (List.mem_cons_of_mem _ hr'))
      (fun r' hr' => hSingle r' (List.mem_cons_of_mem _ hr'))
    rw [List.append_assoc, List.singleton_append] at hRest
    exact hRest

end Emitted

/-! ## The writer -/

namespace PartitionWriter

variable {X : Crates} {env : Env FileName} {s s' : PartitionWriter} {w w' : World FileName}
  {α : Type}

/-- Between commands the mark is the next offset, and everything so far was sent in order. -/
structure Tracking (s : PartitionWriter) : Prop where
  mark : s.hwm = s.log.nextOffset
  disciplined : Emitted.Disciplined s.emitted s.hwm

/-- The writer goes on tracking its log and takes back nothing it sent, or it panics. -/
def keepsTracking (s : PartitionWriter) : Post FileName KafkoError PartitionWriter Unit where
  ok := fun _ s' _ => s'.Tracking ∧ s.emitted <+: s'.emitted
  err := fun _ _ _ => False
  panic := fun _ _ _ => True
  crash := fun _ _ => True

theorem start_tracking (log : Log) (inbox : List PartitionCommand) : (start log inbox).Tracking := by
  refine ⟨rfl, rfl, List.pairwise_singleton _ _, ?_, ?_⟩
  · intro before t result after hSplit
    cases before with
    | nil => cases hSplit
    | cons event before => simp [start] at hSplit
  · intro t offsets hReply
    simp [start] at hReply

/-- A result that acknowledges nothing. -/
theorem Tracking.answer (h : s.Tracking) (t : Nat) {result : Except KafkoError Reply}
    (hGiven : Emitted.given result = []) :
    wp env (send t result) (keepsTracking s) s w := by
  refine ⟨⟨h.mark, ?_⟩, List.prefix_append _ _⟩
  apply h.disciplined.reply t (by simp [hGiven])
  intro offsets hEq value _
  rw [hEq] at hGiven
  obtain rfl : offsets = [] := hGiven
  exact Or.inl (by simp)

/-- Results of a batch none of which acknowledges anything. -/
theorem Tracking.refuse (h : s.Tracking) (ts : List Nat) (e : KafkoError) :
    wp env (sendAll (ts.map fun t => (t, .error e))) (keepsTracking s) s w := by
  refine ⟨⟨h.mark, h.disciplined.replies _ ?_ ?_⟩, List.prefix_append _ _⟩
  · intro r hr
    obtain ⟨t, -, rfl⟩ := List.mem_map.mp hr
    simp [Emitted.given]
  · intro r hr offsets
    obtain ⟨t, -, rfl⟩ := List.mem_map.mp hr
    simp

theorem wp_takeFailNextKind {k : Option ErrorKind → LogIO PartitionWriter Unit}
    (h : s.Tracking)
    (hNext : ∀ kind s', s'.Tracking → s'.log = s.log → s'.emitted = s.emitted →
      wp env (k kind) (keepsTracking s) s' w) :
    wp env (takeFailNextKind >>= k) (keepsTracking s) s w :=
  hNext s.failNextKind { s with failNextKind := none } ⟨h.mark, h.disciplined⟩ rfl rfl

/-- A call of the log that leaves the next offset alone. -/
theorem wp_standing_onLog {m : LogIO Log α} {k : Except KafkoError α → LogIO PartitionWriter Unit}
    (hLeaves : Fx.Leaves Log.nextOffset m) (h : s.Tracking)
    (hNext : ∀ r s' w', s'.Tracking → s'.emitted = s.emitted →
      wp env (k r) (keepsTracking s) s' w') :
    wp env (Fx.attempt (onLog m) >>= k) (keepsTracking s) s w := by
  have hSame : ∀ log' : Log, log'.nextOffset = s.log.nextOffset →
      ({ s with log := log' } : PartitionWriter).Tracking := fun log' hLog' =>
    ⟨h.mark.trans hLog'.symm, h.disciplined⟩
  rw [wp_bind, wp_attempt, onLog, wp_zoom]
  exact wp_mono (Log.wp_standing hLeaves)
    (fun _ log' _ hLog' => hNext _ { s with log := log' } _ (hSame log' hLog') rfl)
    (fun _ log' _ hLog' => hNext _ { s with log := log' } _ (hSame log' hLog') rfl)
    (fun _ _ _ _ => trivial) (fun _ _ _ => trivial)

/-- A call of the log that moves the next offset if it succeeds. -/
theorem wp_advancing_onLog {m : LogIO Log α} {k : Except KafkoError α → LogIO PartitionWriter Unit}
    {s₀ : PartitionWriter} {n : Nat} {value : α}
    (hm : wp env m (Log.advancing s.log n value) s.log w) (h : s.Tracking)
    (hOk : ∀ log' w', log'.nextOffset = s.log.nextOffset + n →
      wp env (k (.ok value)) (keepsTracking s₀) { s with log := log' } w')
    (hErr : ∀ e s' w', s'.Tracking → s'.emitted = s.emitted →
      wp env (k (.error e)) (keepsTracking s₀) s' w') :
    wp env (Fx.attempt (onLog m) >>= k) (keepsTracking s₀) s w := by
  rw [wp_bind, wp_attempt, onLog, wp_zoom]
  refine wp_mono hm ?_ ?_ (fun _ _ _ _ => trivial) (fun _ _ _ => trivial)
  · rintro _ log' w' ⟨rfl, hNext⟩
    exact hOk log' w' hNext
  · intro e log' w' hNext
    exact hErr e { s with log := log' } w' ⟨h.mark.trans hNext.symm, h.disciplined⟩ rfl

theorem wp_keepsTracking_congr {m : LogIO PartitionWriter Unit} {s₀ : PartitionWriter}
    (hEmitted : s.emitted = s₀.emitted) (h : wp env m (keepsTracking s) s w) :
    wp env m (keepsTracking s₀) s w := by
  refine wp_mono h ?_ (fun _ _ _ hF => hF) (fun _ _ _ _ => trivial) (fun _ _ _ => trivial)
  intro _ s' _ h'
  exact ⟨h'.1, hEmitted ▸ h'.2⟩

/-- The mark moves to the next offset after `n` records. -/
theorem Tracking.publish (h : s.Tracking) {log' : Log} {n : Nat}
    (hNext : log'.nextOffset = s.log.nextOffset + n) :
    Emitted.Disciplined (s.emitted ++ [.mark log'.nextOffset]) log'.nextOffset := by
  apply h.disciplined.mark
  rw [h.mark, hNext]
  exact Nat.le_add_right _ _

/-- A batch that was acknowledged lies between two neighbouring values of the mark. -/
theorem Tracking.batch_whole (h : s.Tracking) {log' : Log} {n : Nat}
    (hNext : log'.nextOffset = s.log.nextOffset + n) {value : Nat}
    (hv : value ∈ Emitted.marks (s.emitted ++ [.mark log'.nextOffset])) :
    (∀ offset ∈ List.range' s.log.nextOffset n, value ≤ offset) ∨
      ∀ offset ∈ List.range' s.log.nextOffset n, offset < value := by
  rw [Emitted.marks_append] at hv
  rcases List.mem_append.mp hv with hOld | hNew
  · left
    intro offset hOffset
    have hBound := h.disciplined.bounded hOld
    rw [h.mark] at hBound
    exact hBound.trans (List.mem_range'_1.mp hOffset).1
  · right
    intro offset hOffset
    obtain rfl : value = log'.nextOffset := by simpa [Emitted.marks] using hNew
    rw [hNext]
    exact (List.mem_range'_1.mp hOffset).2

theorem flushAppendBatch_tracks (h : s.Tracking) (records : List Record) (replies : List Nat) :
    wp env (flushAppendBatch X records replies) (keepsTracking s) s w := by
  unfold flushAppendBatch
  split
  · exact ⟨h, List.prefix_rfl⟩
  · rename_i hNonempty
    have hNe : records ≠ [] := by simpa using hNonempty
    apply wp_takeFailNextKind h
    intro kind s₁ h₁ hLog₁ hEmitted₁
    cases kind with
    | some kind => exact wp_keepsTracking_congr hEmitted₁ (h₁.refuse replies _)
    | none =>
      refine wp_advancing_onLog (Log.appendBatch_advances X records) h₁ ?_ ?_
      · intro log' w' hNext
        have hPos := List.length_pos_of_ne_nil hNe
        have hMark : s₁.log.nextOffset + records.length - 1 + 1 = log'.nextOffset := by omega
        dsimp only
        rw [getLast?_offsets hNe]
        refine ⟨⟨hMark, ?_⟩, ?_⟩
        · change Emitted.Disciplined (s₁.emitted ++ [.mark _] ++ List.map _ _) _
          rw [hMark]
          refine (h₁.publish hNext).replies _ ?_ ?_
          · intro r hr offset hOffset
            obtain ⟨⟨o, t⟩, hMem, rfl⟩ := List.mem_map.mp hr
            obtain rfl : offset = o := by simpa [Emitted.given, Reply.given] using hOffset
            rw [hNext]
            exact (List.mem_range'_1.mp (List.of_mem_zip hMem).1).2
          · intro r hr offsets
            obtain ⟨⟨o, t⟩, -, rfl⟩ := List.mem_map.mp hr
            simp
        · rw [← hEmitted₁]
          exact (List.prefix_append _ _).trans (List.prefix_append _ _)
      · intro e s₂ w₂ h₂ hEmitted₂
        exact wp_keepsTracking_congr (hEmitted₂.trans hEmitted₁) (h₂.refuse replies e)

theorem flushExplicitBatch_tracks (h : s.Tracking) (records : List Record) (reply : Nat) :
    wp env (flushExplicitBatch X records reply) (keepsTracking s) s w := by
  unfold flushExplicitBatch
  apply wp_takeFailNextKind h
  intro kind s₁ h₁ hLog₁ hEmitted₁
  cases kind with
  | some kind => exact wp_keepsTracking_congr hEmitted₁ (h₁.answer reply rfl)
  | none =>
    refine wp_advancing_onLog (Log.appendBatch_advances X records) h₁ ?_ ?_
    · intro log' w' hNext
      dsimp only
      by_cases hNil : records = []
      · subst hNil
        have h₂ : ({ s₁ with log := log' } : PartitionWriter).Tracking :=
          ⟨h₁.mark.trans hNext.symm, h₁.disciplined⟩
        exact wp_keepsTracking_congr hEmitted₁ (h₂.answer reply rfl)
      · have hPos := List.length_pos_of_ne_nil hNil
        have hMark : s₁.log.nextOffset + records.length - 1 + 1 = log'.nextOffset := by omega
        rw [getLast?_offsets hNil]
        refine ⟨⟨hMark, ?_⟩, ?_⟩
        · change Emitted.Disciplined (s₁.emitted ++ [.mark _] ++ [.reply reply _]) _
          rw [hMark]
          refine (h₁.publish hNext).reply reply ?_ ?_
          · intro offset hOffset
            rw [hNext]
            exact (List.mem_range'_1.mp hOffset).2
          · intro offsets hEq value hv
            obtain rfl : List.range' s₁.log.nextOffset records.length = offsets := by
              simpa using hEq
            exact h₁.batch_whole hNext hv
        · rw [← hEmitted₁]
          exact (List.prefix_append _ _).trans (List.prefix_append _ _)
    · intro e s₂ w₂ h₂ hEmitted₂
      exact wp_keepsTracking_congr (hEmitted₂.trans hEmitted₁) (h₂.answer reply rfl)

theorem handleSingleCommand_tracks (h : s.Tracking) (command : PartitionCommand) :
    wp env (handleSingleCommand X command) (keepsTracking s) s w := by
  cases command with
  | append record reply =>
    apply wp_takeFailNextKind h
    intro kind s₁ h₁ hLog₁ hEmitted₁
    cases kind with
    | some kind => exact wp_keepsTracking_congr hEmitted₁ (h₁.answer reply rfl)
    | none =>
      refine wp_advancing_onLog (Log.append_advances X record) h₁ ?_ ?_
      · intro log' w' hNext
        refine ⟨⟨hNext.symm, ?_⟩, ?_⟩
        · change Emitted.Disciplined (s₁.emitted ++ [.mark _] ++ [.reply reply _]) _
          rw [← hNext]
          refine (h₁.publish hNext).reply reply ?_ (by simp)
          intro offset hOffset
          rw [hNext]
          obtain rfl : offset = s₁.log.nextOffset := by
            simpa [Emitted.given, Reply.given] using hOffset
          exact Nat.lt_succ_self _
        · rw [← hEmitted₁]
          exact (List.prefix_append _ _).trans (List.prefix_append _ _)
      · intro e s₂ w₂ h₂ hEmitted₂
        exact wp_keepsTracking_congr (hEmitted₂.trans hEmitted₁) (h₂.answer reply rfl)
  | appendBatch records reply => exact flushExplicitBatch_tracks h records reply
  | readAt offset reply =>
    apply wp_standing_onLog (Log.leaves_readRecordAt X offset) h
    intro r s₁ w₁ h₁ hEmitted₁
    cases r with
    | error e => exact wp_keepsTracking_congr hEmitted₁ (h₁.answer reply rfl)
    | ok record => exact wp_keepsTracking_congr hEmitted₁ (h₁.answer reply rfl)
  | sync reply =>
    apply wp_standing_onLog Log.leaves_sync h
    intro r s₁ w₁ h₁ hEmitted₁
    cases r with
    | error e => exact wp_keepsTracking_congr hEmitted₁ (h₁.answer reply rfl)
    | ok _ => exact wp_keepsTracking_congr hEmitted₁ (h₁.answer reply rfl)
  | poison => trivial
  | failNextAppend kind => exact ⟨⟨h.mark, h.disciplined⟩, List.prefix_rfl⟩

/-! ## Between commands -/

/-- The states in which a writer is between commands: after it was opened, after the appends of a
wake-up were written, after any other command, and after a retention tick. Senders may add to the
inbox at any time. -/
inductive Between (X : Crates) : PartitionWriter → World FileName → Prop
  | opened (log : Log) (inbox : List PartitionCommand) (w : World FileName) :
    Between X (start log inbox) w
  | inbox {s : PartitionWriter} {w : World FileName} (h : Between X s w)
    (inbox : List PartitionCommand) : Between X { s with inbox := inbox } w
  | batch {s s' : PartitionWriter} {w w' : World FileName} (h : Between X s w)
    (env : Env FileName) (records : List Record) (replies : List Nat)
    (hRun : flushAppendBatch X records replies env s w = (.ok (), s', w')) : Between X s' w'
  | command {s s' : PartitionWriter} {w w' : World FileName} (h : Between X s w)
    (env : Env FileName) (command : PartitionCommand)
    (hRun : handleSingleCommand X command env s w = (.ok (), s', w')) : Between X s' w'
  | retention {s s' : PartitionWriter} {w w' : World FileName} (h : Between X s w)
    (env : Env FileName) (hRun : takeTurn X .retentionTick env s w = (.ok (), s', w')) :
    Between X s' w'

theorem retentionTick_tracks (h : s.Tracking) :
    wp env (takeTurn X .retentionTick) (keepsTracking s) s w := by
  apply wp_standing_onLog Log.leaves_applyRetention h
  intro r s₁ w₁ h₁ hEmitted₁
  refine ⟨h₁, ?_⟩
  rw [hEmitted₁]

theorem Between.tracking (h : Between X s w) : s.Tracking := by
  induction h with
  | opened log inbox w => exact start_tracking log inbox
  | inbox h inbox ih => exact ⟨ih.mark, ih.disciplined⟩
  | batch h env records replies hRun ih =>
    exact (ok_of_wp (flushAppendBatch_tracks ih records replies) hRun).1
  | command h env command hRun ih => exact (ok_of_wp (handleSingleCommand_tracks ih command) hRun).1
  | retention h env hRun ih => exact (ok_of_wp (retentionTick_tracks ih) hRun).1

theorem Between.batch_then (h : Between X s w) {records : List Record} {replies : List Nat}
    (hRun : flushAppendBatch X records replies env s w = (.ok (), s', w')) :
    Between X s' w' ∧ s.emitted <+: s'.emitted :=
  ⟨h.batch env records replies hRun,
    (ok_of_wp (flushAppendBatch_tracks h.tracking records replies) hRun).2⟩

theorem Between.command_then (h : Between X s w) {command : PartitionCommand}
    (hRun : handleSingleCommand X command env s w = (.ok (), s', w')) :
    Between X s' w' ∧ s.emitted <+: s'.emitted :=
  ⟨h.command env command hRun, (ok_of_wp (handleSingleCommand_tracks h.tracking command) hRun).2⟩

/-- The appends of one wake-up and the command that ended them. -/
theorem Between.flushDrained (h : Between X s w) {drained : Drained}
    (hRun : flushDrained X drained env s w = (.ok (), s', w')) :
    Between X s' w' ∧ s.emitted <+: s'.emitted := by
  obtain ⟨_, s₁, w₁, hFlush, hRest⟩ := Fx.bind_eq_ok hRun
  obtain ⟨h₁, hPrefix⟩ := h.batch_then hFlush
  cases hOther : drained.other with
  | none =>
    rw [hOther] at hRest
    cases hRest
    exact ⟨h₁, hPrefix⟩
  | some other =>
    rw [hOther] at hRest
    obtain ⟨h₂, hPrefix'⟩ := h₁.command_then hRest
    exact ⟨h₂, hPrefix.trans hPrefix'⟩

/-- The states the writer loop passes between its turns are among them. -/
theorem Between.takeTurn (h : Between X s w) {turn : Turn}
    (hRun : takeTurn X turn env s w = (.ok (), s', w')) :
    Between X s' w' ∧ s.emitted <+: s'.emitted := by
  cases turn with
  | retentionTick =>
    exact ⟨h.retention env hRun, (ok_of_wp (retentionTick_tracks h.tracking) hRun).2⟩
  | recv ready =>
    cases hInbox : s.inbox with
    | nil =>
      rw [run_recv_nil hInbox] at hRun
      cases hRun
      exact ⟨h, List.prefix_rfl⟩
    | cons first inbox =>
      rw [run_recv_cons hInbox] at hRun
      have hAlone : ∀ command, handleSingleCommand X command env { s with inbox := inbox } w =
          (.ok (), s', w') → Between X s' w' ∧ s.emitted <+: s'.emitted := by
        intro command hCommand
        have hThen := (h.inbox inbox).command_then hCommand
        exact hThen
      cases first with
      | append r t =>
        rw [run_process_append rfl] at hRun
        have hThen := ((h.inbox inbox).inbox _).flushDrained hRun
        exact hThen
      | appendBatch rs t => exact hAlone (.appendBatch rs t) hRun
      | readAt offset t => exact hAlone (.readAt offset t) hRun
      | sync t => exact hAlone (.sync t) hRun
      | poison => exact hAlone .poison hRun
      | failNextAppend kind => exact hAlone (.failNextAppend kind) hRun

theorem Between.writerLoop (h : Between X s w) {turns : List Turn}
    (hRun : writerLoop X turns env s w = (.ok (), s', w')) : Between X s' w' := by
  induction turns generalizing s w with
  | nil =>
    cases hRun
    exact h
  | cons turn turns ih =>
    obtain ⟨_, s₁, w₁, hTurn, hRest⟩ := Fx.bind_eq_ok hRun
    exact ih (h.takeTurn hTurn).1 hRest

/-- The discipline of the high-water mark, for every file system: between commands it is the next
offset; it never falls; an acknowledged offset lies below the value seen when its reply is sent;
and no value that was ever seen lies inside of an acknowledged batch. -/
theorem high_water_mark_discipline (X : Crates) {s : PartitionWriter} {w : World FileName}
    (h : Between X s w) :
    (s.hwm = s.log.nextOffset ∧ Emitted.seen s.emitted = some s.hwm ∧
      (Emitted.marks s.emitted).Pairwise (· ≤ ·) ∧
      (∀ before t result after, s.emitted = before ++ .reply t result :: after →
        ∀ offset ∈ Emitted.given result, ∃ value, Emitted.seen before = some value ∧
          offset < value) ∧
      ∀ t offsets, .reply t (.ok (.offsets offsets)) ∈ s.emitted →
        ∀ value ∈ Emitted.marks s.emitted,
          (∀ offset ∈ offsets, value ≤ offset) ∨ ∀ offset ∈ offsets, offset < value) ∧
    ∀ turn env s' w', PartitionWriter.takeTurn X turn env s w = (.ok (), s', w') →
      Between X s' w' ∧ s.emitted <+: s'.emitted := by
  have hTracking := h.tracking
  have hDisciplined := hTracking.disciplined
  refine ⟨⟨hTracking.mark, hDisciplined.current, hDisciplined.ascending, hDisciplined.published,
    hDisciplined.whole⟩, ?_⟩
  intro turn env s' w' hRun
  exact h.takeTurn hRun

/-- A batch, an append that is made to fail and an append that succeeds. -/
def batchAndFault : List PartitionCommand :=
  [.appendBatch [sampleRecord 1, sampleRecord 2] 0, .failNextAppend .storageFull,
    .append (sampleRecord 3) 1, .append (sampleRecord 4) 2]

/-- A new log, and the writer after four turns over `batchAndFault`. -/
def trackedRun : Option (Log × World FileName × PartitionWriter × World FileName) :=
  match Log.create smallSegments Env.quiet () ⟨Store.empty, 0⟩ with
  | (.ok log, _, w) =>
    match writerLoop Crates.uncompressed (List.replicate 4 (.recv [])) Env.quiet
        (start log batchAndFault) w with
    | (.ok _, s, w') => some (log, w, s, w')
    | _ => none
  | _ => none

theorem high_water_mark_discipline_fault :
    ∃ s w, Between Crates.uncompressed s w ∧ s.hwm = 3 ∧ s.log.nextOffset = 3 ∧
      s.emitted = [.mark 0, .mark 2, .reply 0 (.ok (.offsets [0, 1])),
        .reply 1 (.error (.io .storageFull)), .mark 3, .reply 2 (.ok (.offset 2))] := by
  have hFacts : trackedRun.map (fun run => (run.2.2.1.hwm, run.2.2.1.emitted)) =
      some (3, [.mark 0, .mark 2, .reply 0 (.ok (.offsets [0, 1])),
        .reply 1 (.error (.io .storageFull)), .mark 3, .reply 2 (.ok (.offset 2))]) := by
    decide +kernel
  obtain ⟨⟨log, w, s, w'⟩, hRun, hEq⟩ := Option.map_eq_some_iff.mp hFacts
  obtain ⟨hHwm, hEmitted⟩ := Prod.mk.inj hEq
  have hBetween : Between Crates.uncompressed s w' := by
    unfold trackedRun at hRun
    split at hRun
    · split at hRun
      · rename_i hLoop
        cases hRun
        exact (Between.opened _ _ _).writerLoop hLoop
      · cases hRun
    · cases hRun
  obtain ⟨⟨hMark, -⟩, -⟩ := high_water_mark_discipline Crates.uncompressed hBetween
  exact ⟨s, w', hBetween, hHwm, hMark.symm.trans hHwm, hEmitted⟩

end PartitionWriter

end Kafko
