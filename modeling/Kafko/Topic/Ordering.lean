import Kafko.Topic.Delivery

/-!
# The order of records with one key

A call divides its records into one bucket per partition (`Division`) and sends the buckets one
after the other. Records with the same key are in the same bucket, in the order of the input, and
a bucket is written at consecutive offsets behind everything the partition held when the call
began. With the order of delivery this gives the order per key from the producers to the
consumers.
-/

namespace Kafko

open Disk

/-! ## Dividing a call into buckets -/

/-- All buckets of a call, sent or not. -/
def SendCall.buckets (call : SendCall) : List (Nat × Bucket) :=
  call.issued.map (fun x => (x.1, x.2.2)) ++ call.todo

/-- The records of a call are divided into buckets, in the order of the partitions. -/
structure Division (partitionCount : Nat) (single : Bool) (records : List Record)
    (buckets : List (Nat × Bucket)) : Prop where
  each : ∀ x ∈ buckets, BucketOk partitionCount records x.1 x.2
  alone : single = true → ∀ x ∈ buckets, x.2.length = 1
  ordered : (buckets.map Prod.fst).Pairwise (· < ·)
  apart : ∀ x ∈ buckets, ∀ y ∈ buckets, ∀ j, j ∈ x.2.map Prod.fst → j ∈ y.2.map Prod.fst →
    x.1 = y.1
  covered : ∀ j < records.length, ∃ x ∈ buckets, j ∈ x.2.map Prod.fst

/-- The buckets are for different partitions. -/
theorem Division.distinct {partitionCount : Nat} {single : Bool} {records : List Record}
    {buckets : List (Nat × Bucket)} (h : Division partitionCount single records buckets) :
    (buckets.map Prod.fst).Nodup :=
  h.ordered.imp Nat.ne_of_lt

theorem Routes.division {s : Hub} {single : Bool} {records : List Record}
    {todo : List (Nat × Bucket)} (h : Routes s single records todo) (hPos : 0 < s.hosts.length) :
    Division s.hosts.length single records todo := by
  cases h with
  | single record roundRobin =>
    refine ⟨?_, ?_, List.pairwise_singleton _ _, ?_, ?_⟩
    · intro x hx
      rw [List.mem_singleton.mp hx]
      refine ⟨?_, List.pairwise_singleton _ _⟩
      intro e he
      rw [List.mem_singleton.mp he]
      exact ⟨rfl, routed_route _ _ _⟩
    · intro _ x hx
      rw [List.mem_singleton.mp hx]
      rfl
    · intro x hx y hy j _ _
      rw [List.mem_singleton.mp hx, List.mem_singleton.mp hy]
    · intro j hj
      obtain rfl : j = 0 := Nat.lt_one_iff.mp hj
      exact ⟨_, List.mem_singleton.mpr rfl, List.mem_singleton.mpr rfl⟩
  | batch drawn =>
    have hOk : BucketsOk s.hosts.length (drawn.map Prod.fst) (drawn.map Prod.fst).length
        (fillBucketsAmong s.hosts.length 0 (List.replicate s.hosts.length []) drawn) :=
      fillBucketsAmong_ok hPos (bucketsOk_empty s.hosts.length _) rfl
    refine ⟨?_, by simp, ordered_sentBuckets _, ?_, ?_⟩
    · intro ⟨p, b⟩ hx
      exact hOk.each p b (mem_sentBuckets.mp hx).1
    · intro ⟨p, b⟩ hx ⟨q, c⟩ hy j hj hj'
      exact hOk.apart p q b c j (mem_sentBuckets.mp hx).1 (mem_sentBuckets.mp hy).1 hj hj'
    · intro j hj
      obtain ⟨p, b, hb, hMem⟩ := hOk.all j hj
      refine ⟨(p, b), mem_sentBuckets.mpr ⟨hb, ?_⟩, hMem⟩
      rintro rfl
      cases hMem

namespace SendCall

variable {s s' : Hub} {call call' : SendCall} {effect : Effect}

/-- The command for a bucket carries its records. -/
theorem records_command {bucket : Bucket} (hAlone : call.single = true → bucket.length = 1)
    (reply : Nat) : (call.command bucket reply).records = bucket.map Prod.snd := by
  unfold command
  split
  · next i record rest hSingle =>
    have hLen := hAlone hSingle
    obtain rfl : rest = [] := List.eq_nil_of_length_eq_zero (by simpa using hLen)
    rfl
  · rfl

/-- A bucket was written at consecutive offsets, and the positions say so. -/
def Settled (s : Hub) (call : SendCall) (p floor : Nat) (bucket : Bucket) : Prop :=
  ∃ base, floor ≤ base ∧ ∀ (k : Nat) (e : Nat × Record), bucket[k]? = some e →
    call.positions[e.1]? = some ⟨p, base + k⟩ ∧ s.recordAt p (base + k) = some e.2

structure Tracks (s : Hub) (call : SendCall) : Prop where
  division : Division s.hosts.length call.single call.records call.buckets
  begun : ∀ (p : Nat) (host : Host), s.hosts[p]? = some host →
    ∃ floor, call.begun[p]? = some floor ∧ floor ≤ host.history.next
  written : ∀ p reply bucket, (p, reply, bucket) ∈ call.issued →
    ∃ floor, call.begun[p]? = some floor ∧ s.Owes p reply (call.command bucket reply) floor
      (WrittenFrom floor (call.command bucket reply))
  sized : call.positions.length = call.records.length
  pending : ∀ x, call.pending = some x → x ∈ call.issued
  settled : ∀ p reply bucket, (p, reply, bucket) ∈ call.issued →
    call.pending ≠ some (p, reply, bucket) →
    ∃ floor, call.begun[p]? = some floor ∧ call.Settled s p floor bucket
  returned : ∀ positions, call.status = .returned (.ok positions) →
    call.todo = [] ∧ call.pending = none ∧ positions = call.positions

theorem mem_buckets {p reply : Nat} {bucket : Bucket} (h : (p, reply, bucket) ∈ call.issued) :
    (p, bucket) ∈ call.buckets :=
  List.mem_append_left _ (List.mem_map.mpr ⟨_, h, rfl⟩)

/-- Nobody else writes to the partition of a bucket on behalf of the same call. -/
theorem Tracks.issued_eq (h : call.Tracks s) {p : Nat} {x y : Nat × Bucket}
    (hx : (p, x) ∈ call.issued) (hy : (p, y) ∈ call.issued) : x = y := by
  have hDistinct := h.division.distinct
  rw [buckets, List.map_append, List.map_map] at hDistinct
  have hEq := List.inj_on_of_nodup_map (List.nodup_append.mp hDistinct).1 hx hy rfl
  exact (Prod.mk.inj hEq).2

theorem Settled.steps {p floor : Nat} {bucket : Bucket} (h : call.Settled s p floor bucket)
    (hStep : s.Steps s') : call.Settled s' p floor bucket := by
  obtain ⟨base, hFloor, hAll⟩ := h
  exact ⟨base, hFloor, fun k e hk => ⟨(hAll k e hk).1, hStep.recordAt (hAll k e hk).2⟩⟩

/-- Lists only grow, so the lower bounds stay. -/
theorem Tracks.begun_steps (h : call.Tracks s) (hStep : s.Steps s') (p : Nat) (host' : Host)
    (hHost' : s'.hosts[p]? = some host') :
    ∃ floor, call.begun[p]? = some floor ∧ floor ≤ host'.history.next := by
  obtain ⟨host, hHost, hCase⟩ := hStep.moved hHost'
  obtain ⟨floor, hFloor, hLe⟩ := h.begun p host hHost
  refine ⟨floor, hFloor, hLe.trans ?_⟩
  rcases hCase with rfl | hMoves
  · exact Nat.le_refl _
  · exact hMoves.next_le

theorem Tracks.steps (h : call.Tracks s) (hStep : s.Steps s') : call.Tracks s' := by
  refine ⟨?_, h.begun_steps hStep, ?_, h.sized, h.pending, ?_, h.returned⟩
  · rw [hStep.hosts_length]
    exact h.division
  · intro p reply bucket hMem
    obtain ⟨floor, hFloor, hOwes⟩ := h.written p reply bucket hMem
    exact ⟨floor, hFloor, hOwes.steps (answered_written _ _) hStep⟩
  · intro p reply bucket hMem hPending
    obtain ⟨floor, hFloor, hSettled⟩ := h.settled p reply bucket hMem hPending
    exact ⟨floor, hFloor, hSettled.steps hStep⟩

/-- The buckets of a call stay as they were routed. -/
theorem buckets_issue {p reply : Nat} {bucket : Bucket} {todo : List (Nat × Bucket)}
    (hTodo : call.todo = (p, bucket) :: todo) :
    { call with
      todo := todo
      pending := some (p, reply, bucket)
      issued := call.issued ++ [(p, reply, bucket)] }.buckets = call.buckets := by
  simp [buckets, hTodo]

/-- The positions of a bucket that has been acknowledged. -/
theorem Tracks.settle (h : call.Tracks s) {p reply : Nat} {bucket : Bucket} {host : Host}
    {result : Reply} (hIssued : (p, reply, bucket) ∈ call.issued)
    (hHost : s.hosts[p]? = some host) (hReply : (reply, .ok result) ∈ host.sent) :
    ∃ floor, call.begun[p]? = some floor ∧ { call with
      pending := none
      positions := scatter p call.positions bucket result.given }.Settled s p floor bucket := by
  have hBucket := h.division.each _ (mem_buckets hIssued)
  have hRecords : (call.command bucket reply).records = bucket.map Prod.snd :=
    records_command (fun hSingle => h.division.alone hSingle _ (mem_buckets hIssued)) reply
  obtain ⟨floor, hFloor, hOwes⟩ := h.written p reply bucket hIssued
  obtain ⟨base, hGiven, hBase, hAt⟩ := hOwes.received hHost hReply result rfl
  rw [hRecords, List.length_map] at hGiven
  refine ⟨floor, hFloor, base, hBase, ?_⟩
  intro k e hk
  have hLt : k < bucket.length := (List.getElem?_eq_some_iff.mp hk).1
  refine ⟨?_, Hub.recordAt_eq_some.mpr ⟨host, hHost, hAt k e.2 ?_⟩⟩
  · refine scatter_at hBucket.ordered ?_ hk ?_
    · intro e' he'
      rw [h.sized]
      exact (List.getElem?_eq_some_iff.mp (hBucket.entries e' he').1).1
    · rw [hGiven, List.getElem?_range' hLt, Nat.one_mul]
  · rw [hRecords, List.getElem?_map, hk]
    rfl

/-- A step of the call itself. -/
theorem Tracks.own (h : call.Tracks s) (hFresh : s.Fresh) (hOwn : call.Steps s effect call')
    (hStep : s.Steps s') (hHosts : s'.hosts = (s.applied effect).hosts)
    (hNext : s'.nextReply = (s.applied effect).nextReply) : call'.Tracks s' := by
  have hAfter := h.steps hStep
  cases hOwn with
  | finish hStatus hPending hTodo =>
    refine ⟨hAfter.division, hAfter.begun, hAfter.written, hAfter.sized, hAfter.pending,
      hAfter.settled, ?_⟩
    intro positions hReturned
    cases hReturned
    exact ⟨hTodo, hPending, rfl⟩
  | issue hStatus hPending hTodo hHost hAccepts =>
    rename_i p bucket todo host
    refine ⟨?_, hAfter.begun, ?_, hAfter.sized, ?_, ?_, ?_⟩
    · rw [buckets_issue hTodo]
      exact hAfter.division
    · intro q reply b hMem
      rcases List.mem_append.mp hMem with hOld | hNew
      · exact hAfter.written q reply b hOld
      · cases List.mem_singleton.mp hNew
        obtain ⟨floor, hFloor, hLe⟩ := h.begun p host hHost
        exact ⟨floor, hFloor, hFresh.owes hHost hLe hHosts hNext⟩
    · intro x hx
      cases hx
      exact List.mem_append_right _ (List.mem_singleton.mpr rfl)
    · intro q reply b hMem hOther
      rcases List.mem_append.mp hMem with hOld | hNew
      · exact hAfter.settled q reply b hOld (by simp [hPending])
      · cases List.mem_singleton.mp hNew
        exact absurd rfl hOther
    · intro positions hReturned
      rw [hStatus] at hReturned
      cases hReturned
  | settle hStatus hPending hHost hReply hResult =>
    rename_i p reply bucket host result offsets
    have hIssued := h.pending _ hPending
    obtain rfl : result.given = offsets := by
      rcases hResult with ⟨offset, rfl, rfl⟩ | rfl <;> rfl
    refine ⟨hAfter.division, hAfter.begun, hAfter.written, ?_, (fun x hx => by cases hx), ?_, ?_⟩
    · rw [length_scatter]
      exact h.sized
    · intro q reply' b hMem _
      by_cases hSame : (q, reply', b) = (p, reply, bucket)
      · cases hSame
        obtain ⟨floor, hFloor, hSettled⟩ := h.settle hIssued hHost hReply
        exact ⟨floor, hFloor, hSettled.steps hStep⟩
      · -- The other buckets have other places in the input.
        have hOther : call.pending ≠ some (q, reply', b) := by
          rw [hPending]
          exact fun hEq => hSame (Option.some.inj hEq).symm
        obtain ⟨floor, hFloor, base, hBase, hAll⟩ := hAfter.settled q reply' b hMem hOther
        refine ⟨floor, hFloor, base, hBase, ?_⟩
        intro k e hk
        refine ⟨?_, (hAll k e hk).2⟩
        rw [scatter_of_notMem]
        · exact (hAll k e hk).1
        · intro hIn
          have hHere : e.1 ∈ b.map Prod.fst := List.mem_map_of_mem (List.mem_of_getElem? hk)
          have hPartition : q = p := h.division.apart _ (mem_buckets hMem) _ (mem_buckets hIssued)
            e.1 hHere hIn
          subst hPartition
          exact hSame (congrArg (q, ·) (h.issued_eq hMem hIssued))
    · intro positions hReturned
      rw [hStatus] at hReturned
      cases hReturned
  | fail hStatus =>
    exact ⟨hAfter.division, hAfter.begun, hAfter.written, hAfter.sized, hAfter.pending,
      hAfter.settled, fun positions hReturned => by cases hReturned⟩
  | abandon hStatus =>
    exact ⟨hAfter.division, hAfter.begun, hAfter.written, hAfter.sized, hAfter.pending,
      hAfter.settled, fun positions hReturned => by cases hReturned⟩

/-- A call that has just been routed. -/
theorem tracks_begin {single : Bool} {records : List Record} {todo : List (Nat × Bucket)}
    (hRoutes : Routes s single records todo) (hPos : 0 < s.hosts.length) :
    (⟨single, records, todo, none, [], List.replicate records.length ⟨0, 0⟩, .running,
      s.hosts.map fun host => host.history.next⟩ : SendCall).Tracks s := by
  refine ⟨hRoutes.division hPos, ?_, ?_, List.length_replicate, ?_, ?_, ?_⟩
  · intro p host hHost
    refine ⟨host.history.next, ?_, Nat.le_refl _⟩
    rw [List.getElem?_map, hHost]
    rfl
  · intro p reply bucket hMem
    cases hMem
  · intro x hx
    cases hx
  · intro p reply bucket hMem
    cases hMem
  · intro positions hReturned
    cases hReturned

end SendCall

/-! ## Every reachable state -/

/-- The call has returned this position for its `i`-th record. -/
def SendCall.Acknowledged (call : SendCall) (i : Nat) (position : RecordPosition) : Prop :=
  ∃ positions, call.status = .returned (.ok positions) ∧ positions[i]? = some position

/-- The writer has answered the bucket of the `i`-th record, whatever became of the call. -/
def SendCall.WrittenAt (s : Hub) (call : SendCall) (i : Nat) (position : RecordPosition) : Prop :=
  ∃ (reply k : Nat) (bucket : Bucket) (record : Record) (host : Host) (result : Reply),
    (position.partition, reply, bucket) ∈ call.issued ∧ bucket[k]? = some (i, record) ∧
    s.hosts[position.partition]? = some host ∧ (reply, .ok result) ∈ host.sent ∧
    result.given[k]? = some position.offset

namespace SendCall

variable {s : Hub} {call : SendCall} {i : Nat} {record : Record} {position : RecordPosition}

/-- Where the record of a call is: in the partition it was routed to, behind everything that was
there when the call began. -/
structure Located (s : Hub) (call : SendCall) (record : Record) (position : RecordPosition) :
    Prop where
  routed : Routed s.hosts.length position.partition record
  held : s.recordAt position.partition position.offset = some record
  behind : ∀ floor, call.begun[position.partition]? = some floor → floor ≤ position.offset

/-- An acknowledged record was in a bucket that was sent and settled. -/
theorem Tracks.bucket_of_acknowledged (h : call.Tracks s) (hi : call.records[i]? = some record)
    (hAck : call.Acknowledged i position) :
    ∃ (p reply : Nat) (bucket : Bucket) (k : Nat), (p, reply, bucket) ∈ call.issued ∧
      bucket[k]? = some (i, record) ∧ call.positions[i]? = some position ∧
      call.pending = none := by
  obtain ⟨positions, hStatus, hPosition⟩ := hAck
  obtain ⟨hTodo, hPending, rfl⟩ := h.returned positions hStatus
  obtain ⟨⟨p, bucket⟩, hx, hIn⟩ := h.division.covered i (List.getElem?_eq_some_iff.mp hi).1
  rw [buckets, hTodo, List.append_nil] at hx
  obtain ⟨⟨_, reply, _⟩, hIssued, hEq⟩ := List.mem_map.mp hx
  obtain ⟨rfl, rfl⟩ := Prod.mk.inj hEq
  obtain ⟨⟨_, r⟩, he, rfl⟩ := List.mem_map.mp hIn
  obtain ⟨k, hk⟩ := List.mem_iff_getElem?.mp he
  have hEntry := ((h.division.each _ (mem_buckets hIssued)).entries _ he).1
  obtain rfl : r = record := Option.some.inj (hEntry.symm.trans hi)
  exact ⟨_, reply, _, k, hIssued, hk, hPosition, hPending⟩

theorem Tracks.located_of_acknowledged (h : call.Tracks s) (hi : call.records[i]? = some record)
    (hAck : call.Acknowledged i position) : call.Located s record position := by
  obtain ⟨p, reply, bucket, k, hIssued, hk, hPosition, hPending⟩ :=
    h.bucket_of_acknowledged hi hAck
  obtain ⟨floor, hFloor, base, hBase, hAll⟩ :=
    h.settled p reply bucket hIssued (by simp [hPending])
  obtain ⟨hPlace, hHeld⟩ := hAll k _ hk
  obtain rfl := Option.some.inj (hPosition.symm.trans hPlace)
  have hEntry := (h.division.each _ (mem_buckets hIssued)).entries _ (List.mem_of_getElem? hk)
  refine ⟨hEntry.2, hHeld, ?_⟩
  intro floor' hFloor'
  obtain rfl : floor = floor' := Option.some.inj (hFloor.symm.trans hFloor')
  exact Nat.le_add_right_of_le hBase

theorem Tracks.located_of_writtenAt (h : call.Tracks s) (hi : call.records[i]? = some record)
    (hWritten : call.WrittenAt s i position) : call.Located s record position := by
  obtain ⟨reply, k, bucket, r, host, result, hIssued, hk, hHost, hReply, hGiven⟩ := hWritten
  have hEntry := (h.division.each _ (mem_buckets hIssued)).entries _ (List.mem_of_getElem? hk)
  obtain rfl : r = record := Option.some.inj (hEntry.1.symm.trans hi)
  obtain ⟨floor, hFloor, hOwes⟩ := h.written _ reply bucket hIssued
  obtain ⟨base, hRange, hBase, hRecords⟩ := hOwes.received hHost hReply result rfl
  have hCommand : (call.command bucket reply).records = bucket.map Prod.snd :=
    records_command (fun hSingle => h.division.alone hSingle _ (mem_buckets hIssued)) reply
  rw [hCommand] at hRecords
  rw [hRange] at hGiven
  obtain ⟨hLt, hOffset⟩ := List.getElem?_eq_some_iff.mp hGiven
  rw [List.getElem_range', Nat.one_mul] at hOffset
  refine ⟨hEntry.2, Hub.recordAt_eq_some.mpr ⟨host, hHost, ?_⟩, ?_⟩
  · rw [← hOffset]
    apply hRecords k r
    rw [List.getElem?_map, hk]
    rfl
  · intro floor' hFloor'
    obtain rfl : floor = floor' := Option.some.inj (hFloor.symm.trans hFloor')
    rw [← hOffset]
    exact Nat.le_add_right_of_le hBase

/-- Two records with one key in one call. -/
theorem Tracks.ordered (h : call.Tracks s) {j : Nat} {x y : Record} {key : Bytes}
    {positionX positionY : RecordPosition} (hij : i < j) (hi : call.records[i]? = some x)
    (hj : call.records[j]? = some y) (hKeyX : x.key = some key) (hKeyY : y.key = some key)
    (hAckX : call.Acknowledged i positionX) (hAckY : call.Acknowledged j positionY) :
    positionX.offset < positionY.offset := by
  obtain ⟨p, reply, bucket, k, hIssued, hk, hPlaceX, hPending⟩ := h.bucket_of_acknowledged hi hAckX
  obtain ⟨q, reply', bucket', l, hIssued', hl, hPlaceY, -⟩ := h.bucket_of_acknowledged hj hAckY
  have hOk := h.division.each _ (mem_buckets hIssued)
  have hOk' := h.division.each _ (mem_buckets hIssued')
  have hPartition : p = q :=
    ((hOk.entries _ (List.mem_of_getElem? hk)).2 key hKeyX).trans
      ((hOk'.entries _ (List.mem_of_getElem? hl)).2 key hKeyY).symm
  subst hPartition
  obtain ⟨rfl, rfl⟩ := Prod.mk.inj (h.issued_eq hIssued hIssued')
  obtain ⟨floor, -, base, -, hAll⟩ := h.settled p reply bucket hIssued (by simp [hPending])
  obtain rfl := Option.some.inj (hPlaceX.symm.trans (hAll k _ hk).1)
  obtain rfl := Option.some.inj (hPlaceY.symm.trans (hAll l _ hl).1)
  -- The places in the input increase along a bucket.
  have hkl : k < l := by
    by_contra hNot
    have hFst : ∀ {m : Nat} {e : Nat × Record}, bucket[m]? = some e →
        (bucket.map Prod.fst)[m]? = some e.1 := by
      intro m e hm
      rw [List.getElem?_map, hm]
      rfl
    obtain ⟨hkLt, hkEq⟩ := List.getElem?_eq_some_iff.mp (hFst hk)
    obtain ⟨hlLt, hlEq⟩ := List.getElem?_eq_some_iff.mp (hFst hl)
    rcases Nat.lt_or_eq_of_le (Nat.le_of_not_lt hNot) with hLt | rfl
    · have hBack := List.pairwise_iff_getElem.mp hOk.ordered l k hlLt hkLt hLt
      rw [hkEq, hlEq] at hBack
      exact Nat.lt_asymm hij hBack
    · rw [hkEq] at hlEq
      exact Nat.ne_of_lt hij hlEq
  exact Nat.add_lt_add_left hkl base

end SendCall

namespace Hub

variable {s s₁ : Hub} {x y : Record} {positionX positionY : RecordPosition}

structure Tracking (s : Hub) : Prop where
  delivering : s.Delivering
  occupied : 0 < s.hosts.length
  each : ∀ (k : Nat) (call : SendCall), s.calls[k]? = some call → call.Tracks s

theorem Tracking.steps {s' : Hub} (h : s.Tracking) (hStep : s.Steps s') : s'.Tracking := by
  refine ⟨h.delivering.steps hStep, ?_, ?_⟩
  · rw [hStep.hosts_length]
    exact h.occupied
  · intro k call' hCall'
    rcases hStep.call_origin hCall' with
      ⟨call, hCall, rfl | ⟨effect, hOwn, hHosts, hNext⟩⟩ | ⟨single, records, todo, -, hRoutes, rfl⟩
    · exact (h.each k call' hCall).steps hStep
    · exact (h.each k call hCall).own h.delivering.watching.fresh hOwn hStep hHosts hNext
    · exact (SendCall.tracks_begin hRoutes h.occupied).steps hStep

theorem tracking_run {histories : List (History Record)} {events : List HubEvent}
    (hNe : histories ≠ []) (hRun : (start histories).run events = some s) : s.Tracking := by
  refine run_induction (fun _ _ hStep h => Tracking.steps h hStep) ?_ hRun
  refine ⟨delivering_start histories, ?_, ?_⟩
  · show 0 < (histories.map Host.start).length
    rw [List.length_map]
    exact List.length_pos_iff.mpr hNe
  · intro k call hCall
    cases hCall

/-- A partition had `next` records when there were `count` calls: later calls find at least as
many. -/
structure Later (count p next : Nat) (s : Hub) : Prop where
  host : ∃ host, s.hosts[p]? = some host ∧ next ≤ host.history.next
  begun : ∀ (k : Nat) (call : SendCall), count ≤ k → s.calls[k]? = some call →
    ∀ floor, call.begun[p]? = some floor → next ≤ floor

theorem Later.steps {count p next : Nat} {s' : Hub} (h : Later count p next s)
    (hStep : s.Steps s') : Later count p next s' := by
  obtain ⟨host, hHost, hLe⟩ := h.host
  refine ⟨?_, ?_⟩
  · obtain ⟨host', hHost', hCase⟩ := hStep.moves hHost
    refine ⟨host', hHost', hLe.trans ?_⟩
    rcases hCase with rfl | hMoves
    · exact Nat.le_refl _
    · exact hMoves.next_le
  · intro k call' hk hCall' floor hFloor
    rcases hStep.call_origin hCall' with
      ⟨call, hCall, rfl | ⟨effect, hOwn, -, -⟩⟩ | ⟨single, records, todo, -, hRoutes, rfl⟩
    · exact h.begun k call' hk hCall floor hFloor
    · apply h.begun k call hk hCall floor
      rw [← hOwn.begun]
      exact hFloor
    · rw [List.getElem?_map, hHost] at hFloor
      obtain rfl := Option.some.inj hFloor
      exact hLe

/-- `x` was acknowledged in the state `s₁` and `y` was sent after it, or both were in one call that
returned, `x` first. -/
inductive Precedes (s₁ s : Hub) (x y : Record) (positionX positionY : RecordPosition) : Prop
  | earlier {callX callY : SendCall} {k l i j : Nat} (hCallX : s₁.calls[k]? = some callX)
    (hX : callX.records[i]? = some x) (hAckX : callX.Acknowledged i positionX)
    (hLater : s₁.calls.length ≤ l) (hCallY : s.calls[l]? = some callY)
    (hY : callY.records[j]? = some y)
    (hAtY : callY.Acknowledged j positionY ∨ callY.WrittenAt s j positionY)
  | together {call : SendCall} {k i j : Nat} (hCall : s.calls[k]? = some call) (hij : i < j)
    (hX : call.records[i]? = some x) (hAckX : call.Acknowledged i positionX)
    (hY : call.records[j]? = some y) (hAckY : call.Acknowledged j positionY)

/-- Where the two records are. -/
theorem Tracking.precedes (h₁ : s₁.Tracking) (h : s.Tracking) {events : List HubEvent}
    (hRun : s₁.run events = some s) {key : Bytes} (hKeyX : x.key = some key)
    (hKeyY : y.key = some key) (hPrec : Precedes s₁ s x y positionX positionY) :
    positionX.partition = positionY.partition ∧ positionX.offset < positionY.offset ∧
      s.recordAt positionX.partition positionX.offset = some x ∧
      s.recordAt positionY.partition positionY.offset = some y := by
  cases hPrec with
  | earlier hCallX hX hAckX hLater hCallY hY hAtY =>
    have hTracksY := h.each _ _ hCallY
    have hPlaceX := (h₁.each _ _ hCallX).located_of_acknowledged hX hAckX
    have hPlaceY := hAtY.elim (hTracksY.located_of_acknowledged hY)
      (hTracksY.located_of_writtenAt hY)
    have hCount : s.hosts.length = s₁.hosts.length :=
      run_induction (P := fun s => s.hosts.length = s₁.hosts.length)
        (fun _ _ hStep hEq => hStep.hosts_length.trans hEq) rfl hRun
    have hPartition : positionX.partition = positionY.partition := by
      rw [hPlaceX.routed key hKeyX, hPlaceY.routed key hKeyY, hCount]
    have hHeldX : s.recordAt positionX.partition positionX.offset = some x :=
      run_induction (P := fun s => s.recordAt positionX.partition positionX.offset = some x)
        (fun _ _ hStep hHeld => hStep.recordAt hHeld) hPlaceX.held hRun
    refine ⟨hPartition, ?_, hHeldX, hPlaceY.held⟩
    obtain ⟨host₁, hHost₁, hRecord⟩ := recordAt_eq_some.mp hPlaceX.held
    have hStart : Later s₁.calls.length positionX.partition host₁.history.next s₁ := by
      refine ⟨⟨host₁, hHost₁, Nat.le_refl _⟩, ?_⟩
      intro k call hk hCall
      rw [List.getElem?_eq_none hk] at hCall
      cases hCall
    have hEnd : Later s₁.calls.length positionX.partition host₁.history.next s :=
      run_induction (fun _ _ hStep hLater => Later.steps hLater hStep) hStart hRun
    obtain ⟨hostY, hHostY, -⟩ := recordAt_eq_some.mp hPlaceY.held
    obtain ⟨floor, hFloor, -⟩ := hTracksY.begun _ hostY hHostY
    have hBelow : positionX.offset < host₁.history.next := (List.getElem?_eq_some_iff.mp hRecord).1
    have hNext : host₁.history.next ≤ floor :=
      hEnd.begun _ _ hLater hCallY floor (by rw [hPartition]; exact hFloor)
    exact hBelow.trans_le (hNext.trans (hPlaceY.behind floor hFloor))
  | together hCall hij hX hAckX hY hAckY =>
    have hTracks := h.each _ _ hCall
    have hPlaceX := hTracks.located_of_acknowledged hX hAckX
    have hPlaceY := hTracks.located_of_acknowledged hY hAckY
    refine ⟨?_, hTracks.ordered hij hX hY hKeyX hKeyY hAckX hAckY, hPlaceX.held, hPlaceY.held⟩
    rw [hPlaceX.routed key hKeyX, hPlaceY.routed key hKeyY]

/-- Order per key, end to end. -/
theorem per_key_order {histories : List (History Record)} (hNe : histories ≠ [])
    {before after : List HubEvent} (hBefore : (start histories).run before = some s₁)
    (hAfter : s₁.run after = some s) {key : Bytes} (hKeyX : x.key = some key)
    (hKeyY : y.key = some key) (hPrec : Precedes s₁ s x y positionX positionY) :
    positionX.partition = positionY.partition ∧ positionX.offset < positionY.offset ∧
      ∀ r ∈ s.readers, startAt r.start positionX.partition ≤ positionX.offset →
        ∀ sooner record later, r.delivered = sooner ++ (positionY, record) :: later →
          record = y ∧ (positionX, x) ∈ sooner := by
  have hTracking₁ := tracking_run hNe hBefore
  have hTracking : s.Tracking :=
    run_induction (fun _ _ hStep h => Tracking.steps h hStep) hTracking₁ hAfter
  obtain ⟨hPartition, hLt, hHeldX, hHeldY⟩ :=
    hTracking₁.precedes hTracking hAfter hKeyX hKeyY hPrec
  refine ⟨hPartition, hLt, ?_⟩
  intro r hr hStart sooner record later hDelivered
  have hReader := hTracking.delivering.each r hr
  have hHeld : ∀ d ∈ sooner ++ (positionY, record) :: later,
      s.recordAt d.1.partition d.1.offset = some d.2 := by
    rw [← hDelivered]
    exact hReader.held
  have hConsecutive := hReader.consecutive
  rw [hDelivered] at hConsecutive
  obtain ⟨⟨position, found⟩, hd, rfl⟩ := hConsecutive.before hPartition hStart hLt
  have hFound := hHeld _ (List.mem_append_left _ hd)
  have hRecord := hHeld _ (List.mem_append_right _ List.mem_cons_self)
  obtain rfl := Option.some.inj (hHeldX.symm.trans hFound)
  exact ⟨Option.some.inj (hRecord.symm.trans hHeldY), hd⟩

/-- A keyed record is sent and acknowledged. -/
def sendFirst : List HubEvent :=
  [.send ⟨1, some [97], []⟩, .call 0 .issue, .host 0 (.turn [none]), .signal 0, .call 0 .settle,
    .call 0 .issue]

/-- A second one follows, and a consumer takes both. -/
def sendSecondAndTake : List HubEvent :=
  [.send ⟨2, some [97], []⟩, .call 1 .issue, .host 0 (.turn [none]), .signal 0, .call 1 .settle,
    .call 1 .issue, .join [0, 0], .reader 0 .next, .reader 0 .ask, .host 0 (.turn [none]),
    .signal 0, .reader 0 .receive, .reader 0 .next, .reader 0 .ask, .host 1 (.turn [none]),
    .signal 1, .reader 0 .receive, .reader 0 .ask, .host 0 (.turn [none]), .reader 0 .receive]

theorem per_key_order_two_calls : ∃ s₁ s,
    (start [History.empty, History.empty]).run sendFirst = some s₁ ∧
    s₁.run sendSecondAndTake = some s ∧
    (s.readers.map fun r => r.delivered) =
      [[(⟨0, 0⟩, ⟨1, some [97], []⟩), (⟨0, 1⟩, ⟨2, some [97], []⟩)]] ∧
    ∀ r ∈ s.readers, startAt r.start 0 ≤ 0 →
      ∀ sooner record later, r.delivered = sooner ++ (⟨0, 1⟩, record) :: later →
        record = ⟨2, some [97], []⟩ ∧ (⟨0, 0⟩, ⟨1, some [97], []⟩) ∈ sooner := by
  refine ⟨_, _, rfl, rfl, rfl, ?_⟩
  refine (@per_key_order _ _ ⟨1, some [97], []⟩ ⟨2, some [97], []⟩ ⟨0, 0⟩ ⟨0, 1⟩
    [History.empty, History.empty] (by simp) sendFirst sendSecondAndTake rfl rfl [97] rfl rfl
    ?_).2.2
  exact .earlier (k := 0) (l := 1) (i := 0) (j := 0) rfl rfl ⟨_, rfl, rfl⟩ (Nat.le_refl _) rfl rfl
    (Or.inl ⟨_, rfl, rfl⟩)

end Hub

end Kafko
