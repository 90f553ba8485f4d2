import Kafko.Topic.Consumer

/-!
# Routing records to partitions

`producer.rs` and the routing half of `topic.rs`. A record with a key goes to the partition its
key hashes to, a record without one to the next partition in turn. A batch is first divided into
one bucket per partition, each record with its place in the input, and the buckets are then sent
one after the other.
-/

namespace Kafko

open Disk

/-- FNV-1a on 64 bits; the multiplication wraps. -/
def fnv1a64 (bytes : Bytes) : UInt64 :=
  bytes.foldl (fun hash b => (hash ^^^ b.toUInt64) * 0x100000001b3) 0xcbf29ce484222325

def partitionIndex (key : Bytes) (partitionCount : Nat) : Nat :=
  (fnv1a64 key).toNat % partitionCount

/-- The next partition of a keyless record, and the round-robin counter after it. -/
def nextRoundRobin (partitionCount : Nat) (roundRobin : UInt64) : Nat × UInt64 :=
  (roundRobin.toNat % partitionCount, roundRobin + 1)

def route (partitionCount : Nat) (roundRobin : UInt64) : Option Bytes → Nat × UInt64
  | some key => (partitionIndex key partitionCount, roundRobin)
  | none => nextRoundRobin partitionCount roundRobin

/-- The records for one partition with their places in the input. -/
abbrev Bucket := List (Nat × Record)

/-- The bucketing loop of `append_batch_routed`, from the `i`-th record on. -/
def fillBuckets (partitionCount : Nat) : (i : Nat) → UInt64 → List Bucket → List Record →
    List Bucket × UInt64
  | _, roundRobin, buckets, [] => (buckets, roundRobin)
  | i, roundRobin, buckets, record :: records =>
    let (p, roundRobin) := route partitionCount roundRobin record.key
    fillBuckets partitionCount (i + 1) roundRobin
      (buckets.modify p fun bucket => bucket ++ [(i, record)]) records

/-- The records of a batch, each with the counter at its turn, when nobody else draws from it. -/
def drawing (partitionCount : Nat) : UInt64 → List Record → List (Record × UInt64)
  | _, [] => []
  | roundRobin, record :: records =>
    (record, roundRobin) ::
      drawing partitionCount (route partitionCount roundRobin record.key).2 records

/-- The same loop on one of several threads: other producers move the counter between two
records, so each record comes with the counter at its turn. -/
def fillBucketsAmong (partitionCount : Nat) : (i : Nat) → List Bucket → List (Record × UInt64) →
    List Bucket
  | _, buckets, [] => buckets
  | i, buckets, (record, roundRobin) :: rest =>
    fillBucketsAmong partitionCount (i + 1)
      (buckets.modify (route partitionCount roundRobin record.key).1
        fun bucket => bucket ++ [(i, record)]) rest

/-- The buckets that are sent, each with its partition; empty ones are passed over. -/
def sentBuckets (buckets : List Bucket) : List (Nat × Bucket) :=
  ((List.range buckets.length).zip buckets).filter fun (_, bucket) => !bucket.isEmpty

/-- `positions[input_idx] = RecordPosition::new(p, offset)` for a bucket that was written. -/
def scatter (p : Nat) : List RecordPosition → Bucket → List Nat → List RecordPosition
  | positions, (i, _) :: bucket, offset :: offsets =>
    scatter p (positions.set i ⟨p, offset⟩) bucket offsets
  | positions, _, _ => positions

theorem partitionIndex_lt (key : Bytes) {partitionCount : Nat} (h : 0 < partitionCount) :
    partitionIndex key partitionCount < partitionCount := Nat.mod_lt _ h

theorem route_lt {partitionCount : Nat} (h : 0 < partitionCount) (roundRobin : UInt64)
    (key : Option Bytes) : (route partitionCount roundRobin key).1 < partitionCount := by
  cases key with
  | some key => exact partitionIndex_lt key h
  | none => exact Nat.mod_lt _ h

/-! ## What the buckets hold -/

/-- Where a record of a call may be sent. -/
def Routed (partitionCount p : Nat) (r : Record) : Prop :=
  ∀ key, r.key = some key → p = partitionIndex key partitionCount

theorem routed_route (partitionCount : Nat) (roundRobin : UInt64) (r : Record) :
    Routed partitionCount (route partitionCount roundRobin r.key).1 r := by
  intro key hKey
  rw [hKey]
  rfl

/-- A bucket of partition `p` for the records of a call, in the order of the input. -/
structure BucketOk (partitionCount : Nat) (records : List Record) (p : Nat) (bucket : Bucket) :
    Prop where
  entries : ∀ e ∈ bucket, records[e.1]? = some e.2 ∧ Routed partitionCount p e.2
  ordered : (bucket.map Prod.fst).Pairwise (· < ·)

/-- The buckets for the first `i` records of a call. -/
structure BucketsOk (partitionCount : Nat) (records : List Record) (i : Nat)
    (buckets : List Bucket) : Prop where
  each : ∀ (p : Nat) (bucket : Bucket), buckets[p]? = some bucket →
    BucketOk partitionCount records p bucket
  below : ∀ bucket ∈ buckets, ∀ e ∈ bucket, e.1 < i
  all : ∀ j < i, ∃ (p : Nat) (bucket : Bucket), buckets[p]? = some bucket ∧
    j ∈ bucket.map Prod.fst
  apart : ∀ (p q : Nat) (b c : Bucket) (j : Nat), buckets[p]? = some b → buckets[q]? = some c →
    j ∈ b.map Prod.fst → j ∈ c.map Prod.fst → p = q
  count : buckets.length = partitionCount

theorem BucketsOk.push {partitionCount i p : Nat} {records : List Record} {buckets : List Bucket}
    {r : Record} (h : BucketsOk partitionCount records i buckets) (hr : records[i]? = some r)
    (hp : p < partitionCount) (hRouted : Routed partitionCount p r) :
    BucketsOk partitionCount records (i + 1)
      (buckets.modify p fun bucket => bucket ++ [(i, r)]) := by
  have hGet : ∀ (q : Nat) (b : Bucket),
      (buckets.modify p fun bucket => bucket ++ [(i, r)])[q]? = some b →
      ∃ b₀, buckets[q]? = some b₀ ∧ (b = b₀ ∨ q = p ∧ b = b₀ ++ [(i, r)]) := by
    intro q b hq
    rw [List.getElem?_modify] at hq
    obtain ⟨b₀, hb₀, hEq⟩ := Option.map_eq_some_iff.mp hq
    refine ⟨b₀, hb₀, ?_⟩
    split at hEq
    · next hqp => exact Or.inr ⟨hqp.symm, hEq.symm⟩
    · exact Or.inl hEq.symm
  -- The new place is in no other bucket.
  have hNew : ∀ (q : Nat) (b : Bucket), buckets[q]? = some b → i ∉ b.map Prod.fst := by
    intro q b hq hMem
    obtain ⟨e, he, rfl⟩ := List.mem_map.mp hMem
    exact Nat.lt_irrefl _ (h.below b (List.mem_of_getElem? hq) e he)
  refine ⟨?_, ?_, ?_, ?_, ?_⟩
  · intro q b hq
    obtain ⟨b₀, hb₀, rfl | ⟨rfl, rfl⟩⟩ := hGet q b hq
    · exact h.each q b hb₀
    · have hOld := h.each q b₀ hb₀
      refine ⟨?_, ?_⟩
      · intro e he
        rcases List.mem_append.mp he with he | he
        · exact hOld.entries e he
        · rw [List.mem_singleton.mp he]
          exact ⟨hr, hRouted⟩
      · rw [List.map_append, List.pairwise_append]
        refine ⟨hOld.ordered, List.pairwise_singleton _ _, ?_⟩
        intro a ha b hb
        obtain ⟨e, he, rfl⟩ := List.mem_map.mp ha
        obtain rfl : b = i := by simpa using hb
        exact h.below b₀ (List.mem_of_getElem? hb₀) e he
  · intro b hb e he
    obtain ⟨q, hq⟩ := List.mem_iff_getElem?.mp hb
    obtain ⟨b₀, hb₀, rfl | ⟨rfl, rfl⟩⟩ := hGet q b hq
    · exact Nat.lt_succ_of_lt (h.below b (List.mem_of_getElem? hb₀) e he)
    · rcases List.mem_append.mp he with he | he
      · exact Nat.lt_succ_of_lt (h.below b₀ (List.mem_of_getElem? hb₀) e he)
      · rw [List.mem_singleton.mp he]
        exact Nat.lt_succ_self i
  · intro j hj
    rcases Nat.lt_succ_iff_lt_or_eq.mp hj with hj | rfl
    · obtain ⟨q, b, hq, hMem⟩ := h.all j hj
      by_cases hqp : p = q
      · subst hqp
        refine ⟨p, b ++ [(i, r)], ?_, ?_⟩
        · rw [List.getElem?_modify_eq, hq]
          rfl
        · rw [List.map_append]
          exact List.mem_append_left _ hMem
      · refine ⟨q, b, ?_, hMem⟩
        rw [List.getElem?_modify, hq]
        simp [hqp]
    · have hLt : p < buckets.length := by rwa [h.count]
      refine ⟨p, buckets[p] ++ [(j, r)], ?_, ?_⟩
      · rw [List.getElem?_modify_eq, List.getElem?_eq_getElem hLt]
        rfl
      · simp
  · intro q q' b b' j hq hq' hj hj'
    obtain ⟨b₀, hb₀, rfl | ⟨rfl, rfl⟩⟩ := hGet q b hq <;>
      obtain ⟨b₁, hb₁, rfl | ⟨rfl, rfl⟩⟩ := hGet q' b' hq'
    · exact h.apart q q' _ _ j hb₀ hb₁ hj hj'
    · rw [List.map_append, List.mem_append] at hj'
      rcases hj' with hj' | hj'
      · exact h.apart q q' _ _ j hb₀ hb₁ hj hj'
      · obtain rfl : j = i := by simpa using hj'
        exact absurd hj (hNew q _ hb₀)
    · rw [List.map_append, List.mem_append] at hj
      rcases hj with hj | hj
      · exact h.apart q q' _ _ j hb₀ hb₁ hj hj'
      · obtain rfl : j = i := by simpa using hj
        exact absurd hj' (hNew q' _ hb₁)
    · rfl
  · rw [List.length_modify, h.count]

theorem map_fst_drawing (partitionCount : Nat) (roundRobin : UInt64) (records : List Record) :
    (drawing partitionCount roundRobin records).map Prod.fst = records := by
  induction records generalizing roundRobin with
  | nil => rfl
  | cons record records ih => rw [drawing, List.map_cons, ih]

theorem fillBuckets_fst (partitionCount i : Nat) (roundRobin : UInt64) (buckets : List Bucket)
    (records : List Record) : (fillBuckets partitionCount i roundRobin buckets records).1 =
      fillBucketsAmong partitionCount i buckets (drawing partitionCount roundRobin records) := by
  induction records generalizing i roundRobin buckets with
  | nil => rfl
  | cons record records ih => rw [fillBuckets, drawing, fillBucketsAmong, ih]

theorem drop_eq_cons {α : Type} {xs rest : List α} {x : α} {i : Nat}
    (h : xs.drop i = x :: rest) : xs[i]? = some x ∧ xs.drop (i + 1) = rest := by
  refine ⟨?_, ?_⟩
  · rw [← List.head?_drop, h, List.head?_cons]
  · rw [← List.tail_drop, h, List.tail_cons]

theorem fillBucketsAmong_ok {partitionCount : Nat} (hPos : 0 < partitionCount)
    {all rest : List (Record × UInt64)} {i : Nat} {buckets : List Bucket}
    (h : BucketsOk partitionCount (all.map Prod.fst) i buckets) (hRest : all.drop i = rest) :
    BucketsOk partitionCount (all.map Prod.fst) (all.map Prod.fst).length
      (fillBucketsAmong partitionCount i buckets rest) := by
  induction rest generalizing i buckets with
  | nil =>
    have hLe : (all.map Prod.fst).length ≤ i := by
      rw [List.length_map]
      exact List.drop_eq_nil_iff.mp hRest
    refine ⟨h.each, ?_, fun j hj => h.all j (hj.trans_le hLe), h.apart, h.count⟩
    intro b hb e he
    obtain ⟨q, hq⟩ := List.mem_iff_getElem?.mp hb
    exact (List.getElem?_eq_some_iff.mp ((h.each q b hq).entries e he).1).1
  | cons first rest ih =>
    obtain ⟨record, roundRobin⟩ := first
    obtain ⟨hAt, hTail⟩ := drop_eq_cons hRest
    rw [fillBucketsAmong]
    refine ih (h.push ?_ (route_lt hPos _ _) (routed_route _ _ _)) hTail
    rw [List.getElem?_map, hAt]
    rfl

theorem bucketsOk_empty (partitionCount : Nat) (records : List Record) :
    BucketsOk partitionCount records 0 (List.replicate partitionCount []) := by
  have hEmpty : ∀ bucket ∈ List.replicate partitionCount ([] : Bucket), bucket = [] :=
    fun bucket hb => (List.mem_replicate.mp hb).2
  refine ⟨?_, ?_, ?_, ?_, List.length_replicate⟩
  · intro p bucket hb
    rw [hEmpty bucket (List.mem_of_getElem? hb)]
    exact ⟨by simp, List.Pairwise.nil⟩
  · intro bucket hb e he
    rw [hEmpty bucket hb] at he
    cases he
  · intro j hj
    exact absurd hj (Nat.not_lt_zero j)
  · intro p q b c j hb hc hj
    rw [hEmpty b (List.mem_of_getElem? hb)] at hj
    cases hj

theorem mem_sentBuckets {buckets : List Bucket} {p : Nat} {bucket : Bucket} :
    (p, bucket) ∈ sentBuckets buckets ↔ buckets[p]? = some bucket ∧ bucket ≠ [] := by
  rw [sentBuckets, List.mem_filter]
  have hZip : (p, bucket) ∈ (List.range buckets.length).zip buckets ↔
      buckets[p]? = some bucket := by
    constructor
    · intro hMem
      obtain ⟨i, hi⟩ := List.mem_iff_getElem?.mp hMem
      rw [List.getElem?_zip_eq_some] at hi
      obtain ⟨hRange, hBucket⟩ := hi
      obtain ⟨hLt, hEq⟩ := List.getElem?_eq_some_iff.mp hRange
      rw [List.getElem_range] at hEq
      subst hEq
      exact hBucket
    · intro hBucket
      refine List.mem_iff_getElem?.mpr ⟨p, ?_⟩
      rw [List.getElem?_zip_eq_some]
      exact ⟨List.getElem?_range (List.getElem?_eq_some_iff.mp hBucket).1, hBucket⟩
  rw [hZip]
  simp

/-- The buckets are sent in the order of the partitions. -/
theorem ordered_sentBuckets (buckets : List Bucket) :
    ((sentBuckets buckets).map Prod.fst).Pairwise (· < ·) := by
  have hAll : (((List.range buckets.length).zip buckets).map Prod.fst).Pairwise (· < ·) := by
    rw [List.map_fst_zip (by simp)]
    exact List.pairwise_lt_range
  exact hAll.sublist (List.filter_sublist.map Prod.fst)

/-! ## Where the offsets end up -/

theorem length_scatter (p : Nat) (positions : List RecordPosition) (bucket : Bucket)
    (offsets : List Nat) : (scatter p positions bucket offsets).length = positions.length := by
  induction bucket generalizing positions offsets with
  | nil => rfl
  | cons e bucket ih =>
    cases offsets with
    | nil => rfl
    | cons offset offsets => rw [scatter, ih, List.length_set]

theorem scatter_of_notMem {p : Nat} {bucket : Bucket} {i : Nat}
    (hi : i ∉ bucket.map Prod.fst) (positions : List RecordPosition) (offsets : List Nat) :
    (scatter p positions bucket offsets)[i]? = positions[i]? := by
  induction bucket generalizing positions offsets with
  | nil => rfl
  | cons e bucket ih =>
    rw [List.map_cons, List.mem_cons, not_or] at hi
    cases offsets with
    | nil => rfl
    | cons offset offsets =>
      rw [scatter, ih hi.2, List.getElem?_set_ne (Ne.symm hi.1)]

/-- The `k`-th record of a bucket is given its `k`-th offset. -/
theorem scatter_at {p : Nat} {bucket : Bucket} {positions : List RecordPosition}
    {offsets : List Nat} (hOrdered : (bucket.map Prod.fst).Pairwise (· < ·))
    (hIn : ∀ e ∈ bucket, e.1 < positions.length) {k offset : Nat} {e : Nat × Record}
    (he : bucket[k]? = some e) (ho : offsets[k]? = some offset) :
    (scatter p positions bucket offsets)[e.1]? = some ⟨p, offset⟩ := by
  induction bucket generalizing positions offsets k with
  | nil => cases he
  | cons first bucket ih =>
    cases offsets with
    | nil => cases ho
    | cons o offsets =>
      rw [List.map_cons, List.pairwise_cons] at hOrdered
      rw [scatter]
      cases k with
      | zero =>
        obtain rfl : first = e := Option.some.inj he
        obtain rfl : o = offset := Option.some.inj ho
        have hLater : first.1 ∉ bucket.map Prod.fst := by
          intro hMem
          exact absurd (hOrdered.1 _ hMem) (Nat.lt_irrefl _)
        rw [scatter_of_notMem hLater,
          List.getElem?_set_self (hIn first List.mem_cons_self)]
      | succ k =>
        refine ih hOrdered.2 ?_ he ho
        intro e' he'
        rw [List.length_set]
        exact hIn e' (List.mem_cons_of_mem _ he')

end Kafko
