import Kafko.Topic.Ordering

/-!
# The positions a batch reports

`append_batch_routed` scatters the offsets of its buckets over a vector that was filled with
zeros. A call that returns has settled all its buckets, so that every place of the vector was
written once: with the partition that `route` chose for the record and the offset at which the
writer put it. This holds in every interleaving of the calls, also when other producers draw from
the round-robin counter while the batch is being divided.
-/

namespace Kafko

open Disk

/-! ## Chosen partitions -/

/-- Every record of a bucket was sent there by `route`, with the counter at its turn. -/
def Chosen (partitionCount : Nat) (drawn : List (Record × UInt64)) (p : Nat) (bucket : Bucket) :
    Prop :=
  ∀ e ∈ bucket, ∃ roundRobin, drawn[e.1]? = some (e.2, roundRobin) ∧
    p = (route partitionCount roundRobin e.2.key).1

theorem fillBucketsAmong_chosen {partitionCount : Nat} {all rest : List (Record × UInt64)}
    {i : Nat} {buckets : List Bucket}
    (h : ∀ (p : Nat) (bucket : Bucket), buckets[p]? = some bucket →
      Chosen partitionCount all p bucket)
    (hRest : all.drop i = rest) (p : Nat) (bucket : Bucket)
    (hBucket : (fillBucketsAmong partitionCount i buckets rest)[p]? = some bucket) :
    Chosen partitionCount all p bucket := by
  induction rest generalizing i buckets with
  | nil => exact h p bucket hBucket
  | cons first rest ih =>
    obtain ⟨record, roundRobin⟩ := first
    obtain ⟨hAt, hTail⟩ := drop_eq_cons hRest
    rw [fillBucketsAmong] at hBucket
    refine ih ?_ hTail hBucket
    intro q b hb e he
    rw [List.getElem?_modify] at hb
    obtain ⟨b₀, hb₀, hEq⟩ := Option.map_eq_some_iff.mp hb
    split at hEq
    · next hq =>
      rw [← hEq] at he
      rcases List.mem_append.mp he with he | he
      · exact h q b₀ hb₀ e he
      · rw [List.mem_singleton.mp he]
        exact ⟨roundRobin, hAt, hq.symm⟩
    · rw [← hEq] at he
      exact h q b₀ hb₀ e he

namespace SendCall

variable {s s' : Hub} {call call' : SendCall} {effect : Effect} {drawn : List (Record × UInt64)}

/-- A batch call that was divided with these counters. -/
structure DrawnFrom (partitionCount : Nat) (drawn : List (Record × UInt64)) (call : SendCall) :
    Prop where
  records : call.records = drawn.map Prod.fst
  chosen : ∀ x ∈ call.buckets, Chosen partitionCount drawn x.1 x.2

theorem Steps.buckets (h : call.Steps s effect call') :
    call'.buckets = call.buckets ∧ call'.records = call.records := by
  cases h with
  | issue hStatus hPending hTodo hHost hAccepts => exact ⟨buckets_issue hTodo, rfl⟩
  | finish => exact ⟨rfl, rfl⟩
  | settle => exact ⟨rfl, rfl⟩
  | fail => exact ⟨rfl, rfl⟩
  | abandon => exact ⟨rfl, rfl⟩

theorem DrawnFrom.own {partitionCount : Nat} (h : call.DrawnFrom partitionCount drawn)
    (hOwn : call.Steps s effect call') : call'.DrawnFrom partitionCount drawn := by
  obtain ⟨hBuckets, hRecords⟩ := hOwn.buckets
  refine ⟨hRecords.trans h.records, ?_⟩
  rw [hBuckets]
  exact h.chosen

/-! ## A call that has returned -/

/-- The places of a bucket in the input, and its records. -/
def entries (call : SendCall) : List (Nat × Record) := call.issued.flatMap fun x => x.2.2

theorem Tracks.records_issued (h : call.Tracks s) :
    (call.issued.flatMap fun x => (call.command x.2.2 x.2.1).records) =
      call.entries.map Prod.snd := by
  rw [entries, List.map_flatMap]
  apply List.flatMap_congr
  intro ⟨p, reply, bucket⟩ hx
  exact records_command (fun hSingle => h.division.alone hSingle _ (mem_buckets hx)) reply

/-- The buckets of a call have no place in common, and no place twice. -/
theorem Tracks.nodup_entries (h : call.Tracks s) : (call.entries.map Prod.fst).Nodup := by
  have hDistinct := h.division.distinct
  rw [buckets, List.map_append, List.map_map] at hDistinct
  have hIssued : (call.issued.map Prod.fst).Nodup := (List.nodup_append.mp hDistinct).1
  rw [entries, List.map_flatMap, List.nodup_flatMap]
  refine ⟨?_, ?_⟩
  · intro x hx
    obtain ⟨p, reply, bucket⟩ := x
    exact ((h.division.each _ (mem_buckets hx)).ordered).imp Nat.ne_of_lt
  · apply (List.pairwise_map.mp hIssued).imp_of_mem
    intro x y hx hy hNe j hj hj'
    obtain ⟨p, reply, bucket⟩ := x
    obtain ⟨q, reply', bucket'⟩ := y
    exact hNe (h.division.apart _ (mem_buckets hx) _ (mem_buckets hy) j hj hj')

/-- Together the buckets of a call that has nothing left to send hold its records. -/
theorem Tracks.perm_entries (h : call.Tracks s) (hTodo : call.todo = []) :
    (call.entries.map Prod.snd).Perm call.records := by
  have hPlaces : (call.entries.map Prod.fst).Perm (List.range call.records.length) := by
    apply (List.perm_ext_iff_of_nodup h.nodup_entries List.nodup_range).mpr
    intro j
    rw [List.mem_range]
    constructor
    · intro hj
      obtain ⟨e, he, rfl⟩ := List.mem_map.mp hj
      obtain ⟨⟨p, reply, bucket⟩, hx, he⟩ := List.mem_flatMap.mp he
      have hEntry := ((h.division.each _ (mem_buckets hx)).entries e he).1
      exact (List.getElem?_eq_some_iff.mp hEntry).1
    · intro hj
      obtain ⟨⟨p, bucket⟩, hx, hIn⟩ := h.division.covered j hj
      rw [buckets, hTodo, List.append_nil] at hx
      obtain ⟨⟨_, reply, _⟩, hIssued, hEq⟩ := List.mem_map.mp hx
      obtain ⟨rfl, rfl⟩ := Prod.mk.inj hEq
      obtain ⟨e, he, rfl⟩ := List.mem_map.mp hIn
      exact List.mem_map_of_mem (List.mem_flatMap.mpr ⟨_, hIssued, he⟩)
  have hRecords : call.entries.map Prod.snd =
      (call.entries.map Prod.fst).map fun j => (call.records[j]?).getD ⟨0, none, []⟩ := by
    rw [List.map_map]
    apply List.map_congr_left
    intro e he
    obtain ⟨⟨p, reply, bucket⟩, hx, he⟩ := List.mem_flatMap.mp he
    have hEntry := ((h.division.each _ (mem_buckets hx)).entries e he).1
    rw [Function.comp_apply, hEntry]
    rfl
  have hAll : (List.range call.records.length).map
      (fun j => (call.records[j]?).getD ⟨0, none, []⟩) = call.records := by
    apply List.ext_getElem?
    intro j
    rw [List.getElem?_map]
    rcases Nat.lt_or_ge j call.records.length with hLt | hGe
    · rw [List.getElem?_range hLt, Option.map_some, List.getElem?_eq_getElem hLt,
        Option.getD_some]
    · rw [List.getElem?_eq_none (by simpa using hGe), List.getElem?_eq_none hGe]
      rfl
  rw [hRecords]
  have hMapped := hPlaces.map fun j => (call.records[j]?).getD ⟨0, none, []⟩
  rwa [hAll] at hMapped

/-- What a batch call has done when it returns these positions. -/
structure Reported (s : Hub) (call : SendCall) (drawn : List (Record × UInt64))
    (positions : List RecordPosition) : Prop where
  length : positions.length = drawn.length
  placed : ∀ (i : Nat) (record : Record) (roundRobin : UInt64),
    drawn[i]? = some (record, roundRobin) → ∃ position, positions[i]? = some position ∧
      position.partition = (route s.hosts.length roundRobin record.key).1 ∧
      s.recordAt position.partition position.offset = some record
  distinct : ∀ (i j : Nat) (position : RecordPosition), positions[i]? = some position →
    positions[j]? = some position → i = j
  consecutive : ∀ p, ∃ (base : Nat) (places : List Nat), places.Pairwise (· < ·) ∧
    (∀ i, i ∈ places ↔ ∃ position, positions[i]? = some position ∧ position.partition = p) ∧
    ∀ k i : Nat, places[k]? = some i → positions[i]? = some ⟨p, base + k⟩
  only : (call.issued.flatMap fun x => (call.command x.2.2 x.2.1).records).Perm
    (drawn.map Prod.fst)

variable {positions : List RecordPosition}

/-- The bucket of a partition, if the call had one. -/
theorem Tracks.consecutive (h : call.Tracks s)
    (hOk : call.status = .returned (.ok positions)) (p : Nat) :
    ∃ (base : Nat) (places : List Nat), places.Pairwise (· < ·) ∧
      (∀ i, i ∈ places ↔ ∃ position, positions[i]? = some position ∧ position.partition = p) ∧
      ∀ k i : Nat, places[k]? = some i → positions[i]? = some ⟨p, base + k⟩ := by
  obtain ⟨hTodo, hPending, rfl⟩ := h.returned positions hOk
  -- the place of a record leads to the bucket of its partition
  have hFind : ∀ (i : Nat) (position : RecordPosition), call.positions[i]? = some position →
      ∃ reply bucket, (position.partition, reply, bucket) ∈ call.issued ∧
        i ∈ bucket.map Prod.fst := by
    intro i position hPosition
    have hLt : i < call.records.length := by
      rw [← h.sized]
      exact (List.getElem?_eq_some_iff.mp hPosition).1
    obtain ⟨q, reply, bucket, k, hIssued, hk, -, -⟩ := h.bucket_of_acknowledged
      (List.getElem?_eq_getElem hLt) ⟨call.positions, hOk, hPosition⟩
    obtain ⟨floor, -, base, -, hAll⟩ := h.settled q reply bucket hIssued (by simp [hPending])
    obtain rfl := Option.some.inj (hPosition.symm.trans (hAll k _ hk).1)
    exact ⟨reply, bucket, hIssued, List.mem_map_of_mem (List.mem_of_getElem? hk)⟩
  by_cases hHas : ∃ reply bucket, (p, reply, bucket) ∈ call.issued
  · obtain ⟨reply, bucket, hIssued⟩ := hHas
    obtain ⟨floor, -, base, -, hAll⟩ := h.settled p reply bucket hIssued (by simp [hPending])
    have hPlaces : ∀ k i : Nat, (bucket.map Prod.fst)[k]? = some i →
        call.positions[i]? = some ⟨p, base + k⟩ := by
      intro k i hk
      rw [List.getElem?_map] at hk
      obtain ⟨e, he, rfl⟩ := Option.map_eq_some_iff.mp hk
      exact (hAll k e he).1
    refine ⟨base, bucket.map Prod.fst, (h.division.each _ (mem_buckets hIssued)).ordered, ?_,
      hPlaces⟩
    intro i
    constructor
    · intro hi
      obtain ⟨k, hk⟩ := List.getElem?_of_mem hi
      exact ⟨_, hPlaces k i hk, rfl⟩
    · rintro ⟨position, hPosition, rfl⟩
      obtain ⟨reply', bucket', hIssued', hi⟩ := hFind i position hPosition
      obtain ⟨rfl, rfl⟩ := Prod.mk.inj (h.issued_eq hIssued hIssued')
      exact hi
  · refine ⟨0, [], List.Pairwise.nil, ?_, fun k i hk => by simp at hk⟩
    intro i
    refine ⟨fun hi => by simp at hi, ?_⟩
    rintro ⟨position, hPosition, rfl⟩
    obtain ⟨reply, bucket, hIssued, -⟩ := hFind i position hPosition
    exact absurd ⟨reply, bucket, hIssued⟩ hHas

theorem Tracks.reported (h : call.Tracks s) (hDrawn : call.DrawnFrom s.hosts.length drawn)
    (hOk : call.status = .returned (.ok positions)) : call.Reported s drawn positions := by
  obtain ⟨hTodo, hPending, hPositions⟩ := h.returned positions hOk
  have hLength : positions.length = drawn.length := by
    rw [hPositions, h.sized, hDrawn.records, List.length_map]
  refine ⟨hLength, ?_, ?_, h.consecutive hOk, ?_⟩
  · intro i record roundRobin hi
    obtain ⟨hLt, -⟩ := List.getElem?_eq_some_iff.mp hi
    have hRecord : call.records[i]? = some record := by
      rw [hDrawn.records, List.getElem?_map, hi]
      rfl
    have hPosition : positions[i]? = some _ := List.getElem?_eq_getElem (by omega)
    have hAck : call.Acknowledged i _ := ⟨positions, hOk, hPosition⟩
    refine ⟨_, hPosition, ?_, (h.located_of_acknowledged hRecord hAck).held⟩
    obtain ⟨q, reply, bucket, k, hIssued, hk, hAt, -⟩ := h.bucket_of_acknowledged hRecord hAck
    obtain ⟨floor, -, base, -, hAll⟩ := h.settled q reply bucket hIssued (by simp [hPending])
    rw [Option.some.inj (hAt.symm.trans (hAll k _ hk).1)]
    obtain ⟨roundRobin', hDrawnAt, hRoute⟩ := hDrawn.chosen _ (mem_buckets hIssued) _
      (List.mem_of_getElem? hk)
    rw [hi] at hDrawnAt
    cases hDrawnAt
    exact hRoute
  · intro i j position hi hj
    obtain ⟨base, places, -, hPlaces, hAll⟩ := h.consecutive hOk position.partition
    obtain ⟨k, hk⟩ := List.getElem?_of_mem ((hPlaces i).mpr ⟨position, hi, rfl⟩)
    obtain ⟨l, hl⟩ := List.getElem?_of_mem ((hPlaces j).mpr ⟨position, hj, rfl⟩)
    have hEqK := Option.some.inj (hi.symm.trans (hAll k i hk))
    have hEqL := Option.some.inj (hj.symm.trans (hAll l j hl))
    have hOffset : base + k = base + l := congrArg RecordPosition.offset (hEqK.symm.trans hEqL)
    obtain rfl : k = l := by omega
    exact Option.some.inj (hk.symm.trans hl)
  · rw [h.records_issued, ← hDrawn.records]
    exact h.perm_entries hTodo

end SendCall

/-! ## Retention -/

/-- What the writer of a partition answers to a read. -/
def Hub.readAt (s : Hub) (p offset : Nat) : Option Record :=
  (s.hosts[p]?).bind fun host => host.history.get offset

/-- Retention moves the oldest offset of a partition. -/
def HubEvent.retires : HubEvent → Bool
  | .host _ (.retention _) => true
  | _ => false

/-- The oldest offsets of the partitions. -/
def Hub.oldest (s : Hub) : List Nat := s.hosts.map fun host => host.history.oldest

theorem Host.act_oldest (host : Host) {host' : Host} {event : HostEvent}
    (hAct : host.act event = some host') (hNot : ∀ oldest, event ≠ .retention oldest) :
    host'.history.oldest = host.history.oldest := by
  cases event with
  | turn faults =>
    simp only [act, Option.bind_eq_bind, Option.bind_eq_some_iff, Option.guard_eq_some',
      Option.pure_def, Option.some.injEq] at hAct
    obtain ⟨_, -, rfl⟩ := hAct
    exact host.answer_oldest faults
  | panic faults message =>
    simp only [act, Option.bind_eq_bind, Option.bind_eq_some_iff, Option.guard_eq_some',
      Option.pure_def, Option.some.injEq] at hAct
    obtain ⟨_, -, rfl⟩ := hAct
    exact host.answer_oldest faults
  | retention oldest => exact absurd rfl (hNot oldest)
  | close =>
    cases hAct
    rfl
  | finish =>
    simp only [act, Option.bind_eq_bind, Option.bind_eq_some_iff, Option.guard_eq_some',
      Option.pure_def, Option.some.injEq] at hAct
    obtain ⟨_, -, rfl⟩ := hAct
    rfl

namespace Hub

variable {s s' s₀ s₁ : Hub} {p : Nat} {host : Host}

theorem oldest_set {host' : Host} (hHost : s.hosts[p]? = some host)
    (hSame : host'.history.oldest = host.history.oldest) :
    (s.setHost p host').oldest = s.oldest := by
  unfold oldest setHost
  rw [List.map_set, hSame]
  apply List.ext_getElem?
  intro q
  rw [List.getElem?_set]
  split
  · next hEq =>
    subst hEq
    obtain ⟨hLt, -⟩ := List.getElem?_eq_some_iff.mp hHost
    rw [if_pos (by simpa using hLt), List.getElem?_map, hHost]
    rfl
  · rfl

theorem oldest_applied {effect : Effect}
    (hEffect : ∀ q host₀ command, effect = .sends q host₀ command → s.hosts[q]? = some host₀) :
    (s.applied effect).oldest = s.oldest := by
  cases effect with
  | sends q host₀ command => exact oldest_set (hEffect q host₀ command rfl) rfl
  | none => rfl
  | marks => rfl
  | unmarks => rfl

/-- Only retention changes what the oldest offset is. -/
theorem step_oldest {event : HubEvent} (hStep : s.step event = some s')
    (hNot : event.retires = false) : s'.oldest = s.oldest := by
  cases event with
  | join cursors =>
    obtain ⟨-, rfl⟩ := join_cases hStep
    rfl
  | send record =>
    cases hStep
    rfl
  | sendBatch records =>
    cases hStep
    rfl
  | sendAmong record drawn roundRobin =>
    cases hStep
    rfl
  | sendBatchAmong drawn roundRobin =>
    cases hStep
    rfl
  | reader c event =>
    obtain ⟨r, hr, hOwn⟩ := Option.bind_eq_some_iff.mp hStep
    obtain ⟨effect, r', hSteps, rfl, -⟩ := readerStep_cases hOwn
    exact oldest_applied fun q host₀ command hEq => (readerSteps_sends (hEq ▸ hSteps)).1
  | call k event =>
    obtain ⟨call, hCall, hOwn⟩ := Option.bind_eq_some_iff.mp hStep
    obtain ⟨effect, call', hSteps, rfl, -⟩ := callStep_cases hOwn
    exact oldest_applied fun q host₀ command hEq => (callSteps_sends (hEq ▸ hSteps)).1
  | command p command =>
    obtain ⟨host, hHost, -, rfl⟩ := command_cases hStep
    exact oldest_set hHost rfl
  | host p event =>
    obtain ⟨host, host', hHost, hAct, rfl⟩ := host_cases hStep
    refine oldest_set hHost (host.act_oldest hAct ?_)
    rintro oldest rfl
    cases hNot
  | signal p =>
    obtain ⟨host, last, hHost, -, ⟨-, rfl⟩ | ⟨-, rfl⟩⟩ := signal_cases hStep
    · exact oldest_set hHost rfl
    · exact oldest_set hHost rfl
  | notify p =>
    obtain ⟨host, last, hHost, -, rfl⟩ := notify_cases hStep
    exact oldest_set hHost rfl

theorem run_oldest {events : List HubEvent} (hRun : s.run events = some s')
    (hNot : ∀ event ∈ events, event.retires = false) : s'.oldest = s.oldest := by
  induction events generalizing s with
  | nil =>
    cases hRun
    rfl
  | cons event events ih =>
    obtain ⟨s₁, hFirst, hRest⟩ := Option.bind_eq_some_iff.mp hRun
    rw [ih hRest fun e he => hNot e (List.mem_cons_of_mem _ he)]
    exact step_oldest hFirst (hNot event List.mem_cons_self)

/-- Retention stops at the end of the list. -/
def Sane (s : Hub) : Prop :=
  ∀ (p : Nat) (host : Host), s.hosts[p]? = some host → host.history.oldest ≤ host.history.next

theorem Sane.steps (h : s.Sane) (hStep : s.Steps s') : s'.Sane := by
  intro p host' hHost'
  obtain ⟨host, hHost, hCase⟩ := hStep.moved hHost'
  have hOld := h p host hHost
  rcases hCase with rfl | hMoves
  · exact hOld
  have hNext := hMoves.next_le
  cases hMoves with
  | push command hFresh hNextReply => exact hOld
  | act hActs =>
    cases hActs with
    | turn faults hPhase hWake =>
      exact (host.answer_oldest faults).trans_le (hOld.trans hNext)
    | panic faults message hPhase hAppends =>
      exact (host.answer_oldest faults).trans_le (hOld.trans hNext)
    | retention oldest hPhase hLe => exact hLe
    | close => exact hOld
    | finish hPhase => exact hOld
  | load hPhase hParked => exact hOld
  | pass hPhase hParked => exact hOld
  | pulse hPhase hTold => exact hOld

/-! ## Batches in a run -/

/-- A batch call begins, with the counter at the turn of each of its records. -/
inductive Batch (s : Hub) : HubEvent → List (Record × UInt64) → Prop
  | alone (records : List Record) :
    Batch s (.sendBatch records) (drawing s.hosts.length s.roundRobin records)
  | among (drawn : List (Record × UInt64)) (roundRobin : UInt64) :
    Batch s (.sendBatchAmong drawn roundRobin) drawn

theorem Batch.begins {event : HubEvent} {drawn : List (Record × UInt64)}
    (h : Batch s event drawn) (hStep : s.step event = some s') :
    ∃ roundRobin, s' = s.begin false (drawn.map Prod.fst) (sentBuckets
      (fillBucketsAmong s.hosts.length 0 (List.replicate s.hosts.length []) drawn)) roundRobin := by
  cases h with
  | alone records =>
    cases hStep
    rw [map_fst_drawing, ← fillBuckets_fst]
    exact ⟨_, rfl⟩
  | among drawn roundRobin =>
    cases hStep
    exact ⟨roundRobin, rfl⟩

/-- The `k`-th call was divided with these counters in the state `s₀`, whatever has become of
it. -/
structure DrawnAt (s₀ : Hub) (k : Nat) (drawn : List (Record × UInt64)) (s : Hub) : Prop where
  count : s.hosts.length = s₀.hosts.length
  present : k < s.calls.length
  drawn : ∀ call, s.calls[k]? = some call → call.DrawnFrom s.hosts.length drawn
  begun : ∀ call, s.calls[k]? = some call →
    call.begun = s₀.hosts.map fun host => host.history.next

theorem Steps.calls_length_le (hStep : s.Steps s') : s.calls.length ≤ s'.calls.length := by
  cases hStep with
  | begin hRoutes roundRobin =>
    change s.calls.length ≤ (s.calls ++ [_]).length
    rw [List.length_append]
    exact Nat.le_add_right _ _
  | reader hr hOwn =>
    change s.calls.length ≤ (s.applied _).calls.length
    rw [applied_calls]
  | call hCall hOwn =>
    change s.calls.length ≤ ((s.applied _).calls.set _ _).length
    rw [List.length_set, applied_calls]
  | _ => exact Nat.le_refl _

theorem DrawnAt.steps {k : Nat} {drawn : List (Record × UInt64)} (h : DrawnAt s₀ k drawn s)
    (hStep : s.Steps s') : DrawnAt s₀ k drawn s' := by
  have hOrigin : ∀ call', s'.calls[k]? = some call' → ∃ call, s.calls[k]? = some call ∧
      (call' = call ∨ ∃ effect, call.Steps s effect call') := by
    intro call' hCall'
    rcases hStep.call_origin hCall' with
      ⟨call, hCall, hSame | ⟨effect, hOwn, -, -⟩⟩ | ⟨single, records, todo, hLater, -, -⟩
    · exact ⟨call, hCall, Or.inl hSame⟩
    · exact ⟨call, hCall, Or.inr ⟨effect, hOwn⟩⟩
    · exact absurd h.present (Nat.not_lt.mpr hLater)
  refine ⟨hStep.hosts_length.trans h.count, h.present.trans_le hStep.calls_length_le, ?_, ?_⟩
  · intro call' hCall'
    rw [hStep.hosts_length]
    obtain ⟨call, hCall, rfl | ⟨effect, hOwn⟩⟩ := hOrigin call' hCall'
    · exact h.drawn call' hCall
    · exact (h.drawn call hCall).own hOwn
  · intro call' hCall'
    obtain ⟨call, hCall, rfl | ⟨effect, hOwn⟩⟩ := hOrigin call' hCall'
    · exact h.begun call' hCall
    · exact hOwn.begun.trans (h.begun call hCall)

theorem Batch.drawnAt {event : HubEvent} {drawn : List (Record × UInt64)}
    (h : Batch s event drawn) (hStep : s.step event = some s') :
    DrawnAt s s.calls.length drawn s' := by
  obtain ⟨roundRobin, rfl⟩ := h.begins hStep
  have hNew : ∀ {call call' : SendCall}, (s.calls ++ [call])[s.calls.length]? = some call' →
      call' = call := by
    intro call call' hCall
    rw [List.getElem?_append_right (Nat.le_refl _), Nat.sub_self] at hCall
    exact (Option.some.inj hCall).symm
  refine ⟨rfl, ?_, ?_, ?_⟩
  · change s.calls.length < (s.calls ++ [_]).length
    simp
  · intro call hCall
    obtain rfl := hNew hCall
    refine ⟨rfl, ?_⟩
    intro ⟨p, bucket⟩ hx
    have hEmpty : ∀ (q : Nat) (b : Bucket),
        (List.replicate s.hosts.length ([] : Bucket))[q]? = some b →
          Chosen s.hosts.length drawn q b := by
      intro q b hb e he
      rw [(List.mem_replicate.mp (List.mem_of_getElem? hb)).2] at he
      cases he
    exact fillBucketsAmong_chosen hEmpty rfl p bucket (mem_sentBuckets.mp hx).1
  · intro call hCall
    obtain rfl := hNew hCall
    rfl

/-- A batch that returns reports where each of its records is, and as long as retention does not
interfere every one of them can be read there. -/
theorem batch_reports_positions {histories : List (History Record)} (hNe : histories ≠ [])
    (hSane : ∀ h ∈ histories, h.oldest ≤ h.next) {before after : List HubEvent}
    (hBefore : (start histories).run before = some s₀) {event : HubEvent}
    {drawn : List (Record × UInt64)} (hBatch : Batch s₀ event drawn)
    (hStep : s₀.step event = some s₁) (hAfter : s₁.run after = some s) {call : SendCall}
    (hCall : s.calls[s₀.calls.length]? = some call) {positions : List RecordPosition}
    (hOk : call.status = .returned (.ok positions)) :
    call.Reported s drawn positions ∧
      ((∀ e ∈ after, e.retires = false) → ∀ (i : Nat) (record : Record) (roundRobin : UInt64),
        drawn[i]? = some (record, roundRobin) → ∃ position, positions[i]? = some position ∧
          s.readAt position.partition position.offset = some record) := by
  have hTracking : s.Tracking :=
    run_induction (fun _ _ hStep h => Tracking.steps h hStep)
      ((tracking_run hNe hBefore).steps (step_cases hStep)) hAfter
  have hDrawn : DrawnAt s₀ s₀.calls.length drawn s :=
    run_induction (fun _ _ hStep h => DrawnAt.steps h hStep) (hBatch.drawnAt hStep) hAfter
  have hTracks := hTracking.each _ call hCall
  have hReported := hTracks.reported (hDrawn.drawn call hCall) hOk
  refine ⟨hReported, ?_⟩
  intro hNot i record roundRobin hi
  obtain ⟨position, hPosition, -, hHeld⟩ := hReported.placed i record roundRobin hi
  refine ⟨position, hPosition, ?_⟩
  obtain ⟨host, hHost, hRecord⟩ := recordAt_eq_some.mp hHeld
  -- the record lies behind everything that was there when the call began
  obtain ⟨host₀, hHost₀⟩ : ∃ host₀, s₀.hosts[position.partition]? = some host₀ := by
    have hLt := (List.getElem?_eq_some_iff.mp hHost).1
    rw [hDrawn.count] at hLt
    exact ⟨_, List.getElem?_eq_getElem hLt⟩
  have hInput : call.records[i]? = some record := by
    rw [(hDrawn.drawn call hCall).records, List.getElem?_map, hi]
    rfl
  have hBehind : host₀.history.next ≤ position.offset := by
    refine (hTracks.located_of_acknowledged hInput ⟨positions, hOk, hPosition⟩).behind _ ?_
    rw [hDrawn.begun call hCall, List.getElem?_map, hHost₀]
    rfl
  have hSane₀ : s₀.Sane := by
    refine run_induction (fun _ _ hStep h => Sane.steps h hStep) ?_ hBefore
    intro p host hHost
    obtain ⟨h, hMem, rfl⟩ := List.mem_map.mp (List.mem_of_getElem? hHost)
    exact hSane h hMem
  have hOldest : host.history.oldest = host₀.history.oldest := by
    have hSame : s.oldest = s₀.oldest := by
      rw [run_oldest hAfter hNot]
      obtain ⟨_, rfl⟩ := hBatch.begins hStep
      rfl
    have hAt := congrArg (fun l => l[position.partition]?) hSame
    simpa [oldest, hHost, hHost₀] using hAt
  have hLe := hSane₀ position.partition host₀ hHost₀
  rw [readAt, hHost, Option.bind_some, History.get, if_pos (by omega)]
  exact hRecord

/-- One record with a key and two without. -/
def mixedBatch : List Record := [⟨1, some [97], []⟩, ⟨2, none, [5]⟩, ⟨3, none, [6]⟩]

/-- Another producer writes to the first partition before the batch does. -/
def overtakenBatch : List HubEvent :=
  [.send ⟨9, some [97], []⟩, .call 1 .issue, .call 0 .issue, .host 0 (.turn [none, none]),
    .signal 0, .call 0 .settle, .call 0 .issue, .host 1 (.turn [none]), .signal 1,
    .call 0 .settle, .call 0 .issue]

theorem batch_reports_positions_overtaken : ∃ s₁ s call,
    (start [History.empty, History.empty]).step (.sendBatch mixedBatch) = some s₁ ∧
    s₁.run overtakenBatch = some s ∧ s.calls[0]? = some call ∧
    call.status = .returned (.ok [⟨0, 1⟩, ⟨0, 2⟩, ⟨1, 0⟩]) ∧
    call.Reported s (drawing 2 0 mixedBatch) [⟨0, 1⟩, ⟨0, 2⟩, ⟨1, 0⟩] := by
  have hSane : ∀ h ∈ [(History.empty : History Record), History.empty], h.oldest ≤ h.next := by
    intro h hh
    have hEmpty : h = History.empty := by simpa using hh
    rw [hEmpty]
    exact Nat.le_refl _
  have hBefore : (start [History.empty, History.empty]).run [] =
      some (start [History.empty, History.empty]) := rfl
  obtain ⟨s₁, s, call, hStep, hAfter, hCall, hOk⟩ : ∃ s₁ s call,
      (start [History.empty, History.empty]).step (.sendBatch mixedBatch) = some s₁ ∧
      s₁.run overtakenBatch = some s ∧ s.calls[0]? = some call ∧
      call.status = .returned (.ok [⟨0, 1⟩, ⟨0, 2⟩, ⟨1, 0⟩]) :=
    ⟨_, _, _, rfl, rfl, rfl, rfl⟩
  exact ⟨s₁, s, call, hStep, hAfter, hCall, hOk, (batch_reports_positions (by simp) hSane hBefore
    (Batch.alone mixedBatch) hStep hAfter hCall hOk).1⟩

end Hub

end Kafko
