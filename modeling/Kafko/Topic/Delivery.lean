import Kafko.Topic.Serving
import Kafko.Topic.Wakeups

/-!
# What a consumer delivers

A record moves from a partition to the caller in three steps: the writer answers a question, the
consumer receives the answer, and then the cursor moves together with the return of the record.
Cancelling or failing in between loses the answer but not the place. For each partition the
offsets delivered are therefore consecutive (`Consecutive`), starting at the cursor the consumer
was built with.
-/

namespace Kafko

open Disk

/-! ## Consecutive offsets -/

/-- The offsets delivered from one partition, in order. -/
def offsetsOf (p : Nat) (delivered : List (RecordPosition × Record)) : List Nat :=
  (delivered.filter fun d => d.1.partition = p).map fun d => d.1.offset

/-- The cursor of a partition at the beginning. -/
def startAt (start : List Nat) (p : Nat) : Nat := (start[p]?).getD 0

/-- From each partition every offset from the start on was delivered once, in order. -/
def Consecutive (start : List Nat) (delivered : List (RecordPosition × Record)) : Prop :=
  ∀ p, offsetsOf p delivered = List.range' (startAt start p) (offsetsOf p delivered).length

theorem offsetsOf_append (p : Nat) (ds ds' : List (RecordPosition × Record)) :
    offsetsOf p (ds ++ ds') = offsetsOf p ds ++ offsetsOf p ds' := by
  simp [offsetsOf]

theorem offsetsOf_single (p : Nat) (position : RecordPosition) (record : Record) :
    offsetsOf p [(position, record)] = if position.partition = p then [position.offset] else [] := by
  by_cases h : position.partition = p <;> simp [offsetsOf, h]

theorem Consecutive.of_append {start : List Nat} {ds ds' : List (RecordPosition × Record)}
    (h : Consecutive start (ds ++ ds')) : Consecutive start ds := by
  intro p
  have hp := h p
  rw [offsetsOf_append, List.length_append, ← List.range'_append_1] at hp
  exact (List.append_inj hp (by rw [List.length_range'])).1

/-- The next offset of a partition is delivered. -/
theorem Consecutive.concat {start : List Nat} {ds : List (RecordPosition × Record)}
    (h : Consecutive start ds) {p offset : Nat}
    (hOffset : offset = startAt start p + (offsetsOf p ds).length) (record : Record) :
    Consecutive start (ds ++ [(⟨p, offset⟩, record)]) := by
  intro q
  rw [offsetsOf_append, offsetsOf_single]
  split
  · next hEq =>
    change p = q at hEq
    subst hEq
    rw [List.length_append, List.length_singleton, List.range'_1_concat, hOffset]
    exact congrArg (· ++ _) (h p)
  · rw [List.append_nil]
    exact h q

/-- The cursor and the delivered records move together. -/
theorem Consumer.position_concat {c c' : Consumer} {start : List Nat}
    {ds : List (RecordPosition × Record)} {p : Nat} (hp : p < c.cursors.length)
    (hCursors : c'.cursors = c.cursors.set p (c.position p + 1))
    (hPosition : ∀ q, c.position q = startAt start q + (offsetsOf q ds).length) (record : Record)
    (q : Nat) : c'.position q =
      startAt start q + (offsetsOf q (ds ++ [(⟨p, c.position p⟩, record)])).length := by
  have hOld := hPosition q
  rw [position_set hp hCursors, offsetsOf_append, offsetsOf_single, List.length_append]
  split
  · next hEq =>
    subst hEq
    rw [List.length_singleton]
    omega
  · exact hOld

/-- Everything between the start and a delivered record was delivered before it. -/
theorem Consecutive.before {start : List Nat} {before after : List (RecordPosition × Record)}
    {x y : RecordPosition} {record : Record}
    (h : Consecutive start (before ++ (y, record) :: after)) (hPartition : x.partition = y.partition)
    (hStart : startAt start x.partition ≤ x.offset) (hLt : x.offset < y.offset) :
    ∃ d ∈ before, d.1 = x := by
  have hAll : before ++ (y, record) :: after = (before ++ [(y, record)]) ++ after := by simp
  rw [hAll] at h
  have hLast := h.of_append x.partition
  rw [offsetsOf_append, offsetsOf_single, if_pos hPartition.symm, List.length_append,
    List.length_singleton, List.range'_1_concat] at hLast
  obtain ⟨hBefore, hEnd⟩ := List.append_inj' hLast rfl
  have hOffset : y.offset = startAt start x.partition + (offsetsOf x.partition before).length := by
    simpa using hEnd
  have hMem : x.offset ∈ offsetsOf x.partition before := by
    rw [hBefore, List.mem_range'_1]
    exact ⟨hStart, by omega⟩
  obtain ⟨⟨position, found⟩, hd, hEq⟩ := List.mem_map.mp hMem
  obtain ⟨hIn, hSame⟩ := List.mem_filter.mp hd
  refine ⟨_, hIn, ?_⟩
  have hPart : position.partition = x.partition := of_decide_eq_true hSame
  obtain ⟨p, o⟩ := position
  obtain ⟨p', o'⟩ := x
  simp only at hPart hEq
  rw [hPart, hEq]

/-! ## One consumer -/

/-- A record that was found is in the list of the partition. -/
def FoundAt (offset : Nat) (h : History Record) (result : Except KafkoError Reply) : Prop :=
  ∀ record, result = .ok (.record (some record)) → h.records[offset]? = some record

theorem answered_readAt (offset reply : Nat) :
    Answered (.readAt offset reply) 0 (FoundAt offset) := by
  refine ⟨?_, ?_, fun h oldest result hFound => hFound⟩
  · intro h fault reply' result _ hMem record hRecord
    subst hRecord
    obtain ⟨hServe, hMem⟩ := History.respond_ok hMem
    rw [hServe]
    simp only [History.serve, List.mem_singleton, Prod.mk.injEq, Except.ok.injEq,
      Reply.record.injEq] at hMem
    have hGet := hMem.2.symm
    unfold History.get at hGet
    split at hGet
    · exact hGet
    · cases hGet
  · intro h added result hFound record hRecord
    have hAt := hFound record hRecord
    show (h.records ++ added)[offset]? = some record
    rw [List.getElem?_append_left (List.getElem?_eq_some_iff.mp hAt).1]
    exact hAt

namespace Reader

variable {s s' : Hub} {r r' : Reader} {effect : Effect}

structure Delivers (s : Hub) (r : Reader) : Prop where
  consecutive : Consecutive r.start r.delivered
  cursors : ∀ p, r.consumer.position p =
    startAt r.start p + (offsetsOf p r.delivered).length
  held : ∀ d ∈ r.delivered, s.recordAt d.1.partition d.1.offset = some d.2
  owed : ∀ again i reply, r.stage = .awaiting again i reply →
    s.Owes (r.consumer.scanIndex i) reply
      (.readAt (r.consumer.position (r.consumer.scanIndex i)) reply) 0
      (FoundAt (r.consumer.position (r.consumer.scanIndex i)))

theorem Delivers.steps (h : r.Delivers s) (hStep : s.Steps s') : r.Delivers s' :=
  ⟨h.consecutive, h.cursors, fun d hd => hStep.recordAt (h.held d hd),
    fun again i reply hStage => (h.owed again i reply hStage).steps (answered_readAt _ _) hStep⟩

/-- What a consumer does apart from asking and taking. -/
theorem Delivers.other (h : r.Delivers s) (hStep : s.Steps s') (hConsumer : r'.consumer = r.consumer)
    (hStart : r'.start = r.start) (hDelivered : r'.delivered = r.delivered)
    (hStage : ∀ again i reply, r'.stage ≠ .awaiting again i reply) : r'.Delivers s' := by
  refine ⟨?_, ?_, ?_, fun again i reply hAwait => absurd hAwait (hStage again i reply)⟩
  · rw [hStart, hDelivered]
    exact h.consecutive
  · rw [hStart, hDelivered, hConsumer]
    exact h.cursors
  · rw [hDelivered]
    exact (h.steps hStep).held

theorem Delivers.take (h : r.Delivers s) (hStep : s.Steps s') {again : Bool} {p : Nat}
    {record : Record} (hp : p < r.consumer.cursors.length)
    (hRecord : s.recordAt p (r.consumer.position p) = some record) :
    (r.take again p record).Delivers s' := by
  refine ⟨h.consecutive.concat (h.cursors p) record, ?_, ?_, ?_⟩
  · exact Consumer.position_concat hp rfl h.cursors record
  · intro d hd
    rcases List.mem_append.mp hd with hOld | hNew
    · exact hStep.recordAt (h.held d hOld)
    · rw [List.mem_singleton.mp hNew]
      exact hStep.recordAt hRecord
  · intro again' i reply hStage
    cases again <;> cases hStage

theorem stageAt_ne_awaiting (again again' : Bool) (i j reply : Nat) :
    r.stageAt again i ≠ .awaiting again' j reply := by
  rcases r.stageAt_cases again i with hStage | ⟨-, ⟨-, hStage⟩ | ⟨-, hStage⟩⟩ <;> simp [hStage]

/-- A step of the consumer itself. -/
theorem Delivers.own (h : r.Delivers s) (hSized : r.consumer.cursors.length = s.hosts.length)
    (hFresh : s.Fresh) (hOwn : r.Steps s effect r') (hStep : s.Steps s')
    (hHosts : s'.hosts = (s.applied effect).hosts)
    (hNext : s'.nextReply = (s.applied effect).nextReply) : r'.Delivers s' := by
  cases hOwn with
  | next hStage =>
    exact h.other hStep rfl rfl rfl fun _ _ _ => stageAt_ne_awaiting _ _ _ _ _
  | ask hStage hHost hAccepts =>
    refine ⟨h.consecutive, h.cursors, (h.steps hStep).held, ?_⟩
    intro again' i' reply' hEq
    cases hEq
    exact hFresh.owes hHost (Nat.zero_le _) hHosts hNext
  | leave hStage =>
    rename_i again
    refine h.other hStep rfl rfl rfl fun again' i reply hEq => ?_
    cases again <;> cases hEq
  | take hStage hHost hReply =>
    rename_i again i reply host record
    have hFound := (h.owed again i reply hStage).received hHost hReply record rfl
    refine h.take hStep ?_ (Hub.recordAt_eq_some.mpr ⟨host, hHost, hFound⟩)
    rw [hSized]
    exact (List.getElem?_eq_some_iff.mp hHost).1
  | miss hStage hHost hReply hMiss =>
    exact h.other hStep rfl rfl rfl fun _ _ _ => stageAt_ne_awaiting _ _ _ _ _
  | park hStage => exact h.other hStep rfl rfl rfl fun _ _ _ hEq => by cases hEq
  | enable hStage =>
    exact h.other hStep rfl rfl rfl fun _ _ _ => stageAt_ne_awaiting _ _ _ _ _
  | wake hStage hFuture => exact h.other hStep rfl rfl rfl fun _ _ _ hEq => by cases hEq
  | unmark hStage =>
    rename_i loop
    refine h.other hStep rfl rfl rfl fun again i reply hEq => ?_
    cases loop
    · cases hEq
    · exact stageAt_ne_awaiting _ _ _ _ _ hEq
  | cancel hStage => exact h.other hStep rfl rfl rfl fun _ _ _ hEq => by cases hEq

end Reader

/-! ## Acknowledged records -/

/-- An accepted command has written its records at consecutive offsets from `floor` on. -/
def WrittenFrom (floor : Nat) (command : PartitionCommand) (h : History Record)
    (result : Except KafkoError Reply) : Prop :=
  ∀ reply, result = .ok reply → ∃ base, reply.given = List.range' base command.records.length ∧
    floor ≤ base ∧
    ∀ k record, command.records[k]? = some record → h.records[base + k]? = some record

theorem answered_written (floor : Nat) (command : PartitionCommand) :
    Answered command floor (WrittenFrom floor command) := by
  refine ⟨?_, ?_, fun h oldest result hWritten => hWritten⟩
  · intro h fault reply' result hFloor hMem reply hReply
    subst hReply
    have hAppend : ∀ (rs : List Record) (k : Nat) (record : Record), rs[k]? = some record →
        (h.append rs).records[h.next + k]? = some record := by
      intro rs k record hk
      show (h.records ++ rs)[h.records.length + k]? = some record
      rw [List.getElem?_append_right (Nat.le_add_right _ _), Nat.add_sub_cancel_left]
      exact hk
    have hNothing : ∀ (k : Nat) (record : Record), ([] : List Record)[k]? = some record →
        h.records[h.next + k]? = some record := by
      intro k record hk
      cases hk
    obtain ⟨hServe, hMem⟩ := History.respond_ok hMem
    rw [hServe]
    cases command with
    | append record t =>
      simp only [History.serve, List.mem_singleton, Prod.mk.injEq, Except.ok.injEq] at hMem
      rw [hMem.2]
      exact ⟨h.next, rfl, hFloor, hAppend [record]⟩
    | appendBatch rs t =>
      simp only [History.serve] at hMem ⊢
      split at hMem
      · next hEmpty =>
        simp only [List.mem_singleton, Prod.mk.injEq, Except.ok.injEq] at hMem
        rw [hMem.2, if_pos hEmpty]
        obtain rfl : rs = [] := by simpa using hEmpty
        exact ⟨h.next, rfl, hFloor, hNothing⟩
      · next hEmpty =>
        simp only [List.mem_singleton, Prod.mk.injEq, Except.ok.injEq] at hMem
        rw [hMem.2, if_neg hEmpty]
        exact ⟨h.next, rfl, hFloor, hAppend rs⟩
    | readAt offset t =>
      simp only [History.serve, List.mem_singleton, Prod.mk.injEq, Except.ok.injEq] at hMem
      rw [hMem.2]
      exact ⟨h.next, rfl, hFloor, hNothing⟩
    | sync t =>
      simp only [History.serve, List.mem_singleton, Prod.mk.injEq, Except.ok.injEq] at hMem
      rw [hMem.2]
      exact ⟨h.next, rfl, hFloor, hNothing⟩
    | poison => cases hMem
    | failNextAppend kind => cases hMem
  · intro h added result hWritten reply hReply
    obtain ⟨base, hGiven, hBase, hRecords⟩ := hWritten reply hReply
    refine ⟨base, hGiven, hBase, ?_⟩
    intro k record hk
    have hAt := hRecords k record hk
    show (h.records ++ added)[base + k]? = some record
    rw [List.getElem?_append_left (List.getElem?_eq_some_iff.mp hAt).1]
    exact hAt

namespace Hub

variable {s s₁ : Hub}

/-- A command that was in the inbox of partition `p` in the state `s₁` has been answered since, and
the answer gave this offset to this record. -/
def Acknowledges (s₁ s : Hub) (p offset : Nat) (record : Record) : Prop :=
  ∃ (host₁ host : Host) (command : PartitionCommand) (reply k : Nat) (result : Reply),
    s₁.hosts[p]? = some host₁ ∧ command ∈ host₁.inbox ∧ command.channel = some reply ∧
    s.hosts[p]? = some host ∧ (reply, .ok result) ∈ host.sent ∧
    result.given[k]? = some offset ∧ command.records[k]? = some record

structure Delivering (s : Hub) : Prop where
  watching : s.Watching
  each : ∀ r ∈ s.readers, r.Delivers s

theorem Delivering.steps {s' : Hub} (h : s.Delivering) (hStep : s.Steps s') : s'.Delivering := by
  refine ⟨h.watching.steps hStep, ?_⟩
  intro r' hr'
  rcases hStep.reader_origin hr' with
    ⟨cursors, hLen, rfl⟩ | ⟨r, hr, effect, hOwn, hHosts, hNext⟩ | hOld | ⟨r, hr, rfl⟩
  · exact ⟨fun p => rfl, fun p => rfl, fun d hd => (List.not_mem_nil hd).elim,
      fun _ _ _ hStage => by cases hStage⟩
  · exact (h.each r hr).own (h.watching.each r hr).sized h.watching.fresh hOwn hStep hHosts hNext
  · exact (h.each r' hOld).steps hStep
  · have hBefore := (h.each r hr).steps hStep
    exact ⟨hBefore.consecutive, hBefore.cursors, hBefore.held, hBefore.owed⟩

theorem delivering_start (histories : List (History Record)) : (start histories).Delivering :=
  ⟨watching_start histories, fun _ hr => (List.not_mem_nil hr).elim⟩

theorem delivering_run {histories : List (History Record)} {events : List HubEvent}
    (hRun : (start histories).run events = some s) : s.Delivering :=
  run_induction (fun _ _ hStep h => Delivering.steps h hStep) (delivering_start histories) hRun

/-- An acknowledged record is in the list of the partition, at its offset. -/
theorem Delivering.acknowledged (h : s₁.Delivering) {events : List HubEvent}
    (hRun : s₁.run events = some s) {p offset : Nat} {record : Record}
    (hAck : s₁.Acknowledges s p offset record) : s.recordAt p offset = some record := by
  obtain ⟨host₁, host, command, reply, k, result, hHost₁, hMem, hChannel, hHost, hSent, hGiven,
    hRecord⟩ := hAck
  have hChannels := h.watching.fresh p host₁ hHost₁
  have hOwed : s₁.Owes p reply command 0 (WrittenFrom 0 command) :=
    ⟨hChannels.inbox command hMem reply hChannel, host₁, hHost₁,
      hChannels.owes_waiting hMem hChannel⟩
  have hOwes : s.Owes p reply command 0 (WrittenFrom 0 command) :=
    run_induction (fun _ _ hStep hOwes => Owes.steps hOwes (answered_written 0 command) hStep)
      hOwed hRun
  obtain ⟨base, hRange, -, hRecords⟩ := hOwes.received hHost hSent result rfl
  refine recordAt_eq_some.mpr ⟨host, hHost, ?_⟩
  rw [hRange] at hGiven
  obtain ⟨hLt, hOffset⟩ := List.getElem?_eq_some_iff.mp hGiven
  rw [List.getElem_range', Nat.one_mul] at hOffset
  rw [← hOffset]
  exact hRecords k record hRecord

/-- Merged delivery: whatever other tasks do, and however often a call is cancelled or fails, a
consumer delivers the offsets of each partition one after the other from its start on, and what
it delivers is what was or will be acknowledged there. -/
theorem merged_delivery {histories : List (History Record)} {before after : List HubEvent}
    (hBefore : (start histories).run before = some s₁) (hAfter : s₁.run after = some s)
    {r : Reader} (hr : r ∈ s.readers) :
    (∀ p, offsetsOf p r.delivered =
        List.range' (startAt r.start p) (offsetsOf p r.delivered).length) ∧
      (∀ d ∈ r.delivered, s.recordAt d.1.partition d.1.offset = some d.2) ∧
      ∀ d ∈ r.delivered, ∀ record, s₁.Acknowledges s d.1.partition d.1.offset record →
        d.2 = record := by
  have hDelivering₁ := delivering_run hBefore
  have hDelivering : s.Delivering :=
    run_induction (fun _ _ hStep h => Delivering.steps h hStep) hDelivering₁ hAfter
  have hReader := hDelivering.each r hr
  refine ⟨hReader.consecutive, hReader.held, ?_⟩
  intro d hd record hAck
  have hHeld := hReader.held d hd
  rw [hDelivering₁.acknowledged hAfter hAck] at hHeld
  exact (Option.some.inj hHeld).symm

/-- A record is sent to a topic with two partitions while a consumer is scanning. -/
def sendWhileScanning : List HubEvent :=
  [.join [0, 0], .reader 0 .next, .reader 0 .ask, .send ⟨7, none, []⟩, .call 0 .issue]

/-- The consumer's first question is cancelled; a second one finds the record. -/
def cancelThenTake : List HubEvent :=
  [.host 0 (.turn [none]), .signal 0, .reader 0 .cancel, .host 0 (.turn [none]), .signal 0,
    .call 0 .settle, .reader 0 .next, .reader 0 .ask, .host 0 (.turn [none]), .reader 0 .receive]

theorem merged_delivery_cancelled : ∃ s₁ s r,
    (start [History.empty, History.empty]).run sendWhileScanning = some s₁ ∧
    s₁.run cancelThenTake = some s ∧ r ∈ s.readers ∧
    r.delivered = [(⟨0, 0⟩, ⟨7, none, []⟩)] ∧ s₁.Acknowledges s 0 0 ⟨7, none, []⟩ ∧
    ∀ d ∈ r.delivered, ∀ record, s₁.Acknowledges s d.1.partition d.1.offset record →
      d.2 = record := by
  refine ⟨_, _, _, rfl, rfl, List.mem_singleton.mpr rfl, rfl, ?_, ?_⟩
  · exact ⟨_, _, .append ⟨7, none, []⟩ 1, 1, 0, .offset 0, rfl, List.mem_of_getElem? (i := 1) rfl,
      rfl, rfl, List.mem_of_getElem? (i := 1) rfl, rfl, rfl⟩
  · exact (@merged_delivery _ _ [History.empty, History.empty] sendWhileScanning cancelThenTake
      rfl rfl _ (List.mem_singleton.mpr rfl)).2.2

end Hub

end Kafko
