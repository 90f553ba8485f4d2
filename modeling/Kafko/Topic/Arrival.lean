import Kafko.Topic.Liveness
import Kafko.Topic.Returns

/-!
# Everything that is sent arrives

As long as nothing is closed, fails, is retired or is dropped, a call of a producer returns `Ok`,
and a consumer that goes on calling gets every record of it once, at the position that was
returned (`everything_arrives`).
-/

namespace Kafko

open Disk Systems

variable {histories : List (History Record)} {e : Execution (Hub.courses histories)} {s s' : Hub}
  {c k : Nat} {event : HubEvent} {call : SendCall}

/-- A call that goes on or has returned `Ok`. -/
def SendCall.Fine (call : SendCall) : Prop :=
  call.status = .running ∨ ∃ positions, call.status = .returned (.ok positions)

/-- Nothing is delivered twice. -/
theorem Consecutive.filter_eq {start : List Nat} {ds : List (RecordPosition × Record)}
    (h : Consecutive start ds) {position : RecordPosition} {record : Record}
    (hMem : (position, record) ∈ ds) :
    ds.filter (fun d => d.1 = position) = [(position, record)] := by
  obtain ⟨before, after, rfl⟩ := List.append_of_mem hMem
  have hNodup : (offsetsOf position.partition (before ++ (position, record) :: after)).Nodup := by
    rw [h position.partition]
    exact List.nodup_range'
  have hSplit : offsetsOf position.partition (before ++ (position, record) :: after) =
      offsetsOf position.partition before ++
        position.offset :: offsetsOf position.partition after := by
    rw [← List.singleton_append, offsetsOf_append, offsetsOf_append, offsetsOf_single, if_pos rfl]
    rfl
  rw [hSplit] at hNodup
  have hOther : ∀ ds : List (RecordPosition × Record),
      position.offset ∉ offsetsOf position.partition ds →
      ds.filter (fun d => d.1 = position) = [] := by
    intro ds hNot
    rw [List.filter_eq_nil_iff]
    intro d hd hEq
    obtain rfl : d.1 = position := of_decide_eq_true hEq
    exact hNot (List.mem_map.mpr ⟨d, List.mem_filter.mpr ⟨hd, decide_eq_true rfl⟩, rfl⟩)
  obtain ⟨-, hRest, hApart⟩ := List.nodup_append'.mp hNodup
  have hBefore := hOther before fun hIn => hApart hIn List.mem_cons_self
  have hAfter := hOther after (List.nodup_cons.mp hRest).1
  rw [List.filter_append, List.filter_cons_of_pos (by simp), hBefore, hAfter]
  rfl

namespace Hub

/-- In a calm topic a call does not fail. -/
theorem Calm.callStep_fine (h : s.Calm) {inner : CallEvent} (hNot : inner ≠ .abandon)
    (hStep : s.callStep k call inner = some s') (hCall : s.calls[k]? = some call) :
    ∃ call', s'.calls[k]? = some call' ∧ call'.Fine := by
  have hLt := (List.getElem?_eq_some_iff.mp hCall).1
  have hSet : ∀ call' : SendCall, (s.calls.set k call')[k]? = some call' :=
    fun _ => List.getElem?_set_self hLt
  cases inner with
  | issue =>
    rw [callStep] at hStep
    split at hStep
    · next hStatus hPending =>
      split at hStep
      · cases hStep
        exact ⟨_, hSet _, Or.inr ⟨_, rfl⟩⟩
      · next p bucket todo hTodo =>
        obtain ⟨host, hHost, hRest⟩ := Option.bind_eq_some_iff.mp hStep
        rw [if_pos (h p host hHost).accepts] at hRest
        obtain ⟨s₁, hSend, hEq⟩ := Option.bind_eq_some_iff.mp hRest
        cases hEq
        obtain rfl := enqueue_eq hSend
        exact ⟨_, hSet _, Or.inl hStatus⟩
    · cases hStep
  | settle =>
    rw [callStep] at hStep
    split at hStep
    · next p reply bucket hStatus hPending =>
      obtain ⟨host, hHost, hRest⟩ := Option.bind_eq_some_iff.mp hStep
      split at hRest
      · cases hRest
        exact ⟨_, hSet _, Or.inl hStatus⟩
      · cases hRest
        exact ⟨_, hSet _, Or.inl hStatus⟩
      · cases hRest
      · next error hReply =>
        exact absurd (Host.mem_sent_of_reply hReply) ((h p host hHost).sent reply error)
      · obtain ⟨_, hGuard, -⟩ := Option.bind_eq_some_iff.mp hRest
        have hEnded := (Option.guard_eq_some' ()).mp hGuard
        rcases (h p host hHost).phase with hPhase | hPhase | hPhase <;> simp [hPhase] at hEnded
    · cases hStep
  | abandon => exact absurd rfl hNot

/-- A call that has returned stays as it is. -/
theorem returned_later {t u : Nat} (hCall : (e.state t).calls[k]? = some call)
    (hStatus : call.status ≠ .running) (hLe : t ≤ u) : (e.state u).calls[k]? = some call := by
  refine Execution.always (e := e) (I := fun s => s.calls[k]? = some call) ?_ hCall hLe
  intro s event s' hSame hStep
  rcases step_call hStep hSame with ⟨_, effect, call', -, hOwn, -⟩ | ⟨-, hSame'⟩
  · have hRunning : call.status = .running := by
      cases hOwn <;> assumption
    exact absurd hRunning hStatus
  · exact hSame'

/-- What was delivered stays delivered. -/
theorem delivered_later {t u : Nat} {r : Reader} (hr : (e.state t).readers[c]? = some r)
    (hLe : t ≤ u) : ∃ r', (e.state u).readers[c]? = some r' ∧ r.delivered <+: r'.delivered := by
  refine Execution.always (e := e)
    (I := fun s => ∃ r', s.readers[c]? = some r' ∧ r.delivered <+: r'.delivered) ?_
    ⟨r, hr, List.prefix_rfl⟩ hLe
  intro s event s' hThere hStep
  obtain ⟨r₁, hr₁, hBefore⟩ := hThere
  rcases step_reader hStep hr₁ with ⟨_, _, r₂, -, -, hOwn, -, hr₂⟩ | ⟨-, hSame | hTold⟩
  · refine ⟨r₂, hr₂, ?_⟩
    cases hOwn with
    | take hStage hHost hReply => exact hBefore.trans (List.prefix_append _ _)
    | _ => exact hBefore
  · exact ⟨r₁, hSame, hBefore⟩
  · exact ⟨_, hTold, hBefore⟩

/-- A call keeps its records, and where it began. -/
theorem call_later {t u : Nat} (hCall : (e.state t).calls[k]? = some call) (hLe : t ≤ u) :
    ∃ call', (e.state u).calls[k]? = some call' ∧ call'.records = call.records ∧
      call'.begun = call.begun := by
  refine Execution.always (e := e) (I := fun s => ∃ call', s.calls[k]? = some call' ∧
    call'.records = call.records ∧ call'.begun = call.begun) ?_ ⟨call, hCall, rfl, rfl⟩ hLe
  intro s event s' hThere hStep
  obtain ⟨call₁, hCall₁, hRecords, hBegun⟩ := hThere
  rcases step_call hStep hCall₁ with ⟨_, effect, call₂, -, hOwn, hCall₂⟩ | ⟨-, hSame⟩
  · refine ⟨call₂, hCall₂, Eq.trans ?_ hRecords, hOwn.begun.trans hBegun⟩
    cases hOwn <;> rfl
  · exact ⟨call₁, hSame, hRecords, hBegun⟩

/-- A call that is made later begins no earlier. -/
theorem begun_behind {t u p : Nat} {host : Host} (hNew : (e.state t).calls.length ≤ k)
    (hHost : (e.state t).hosts[p]? = some host) (hCall : (e.state u).calls[k]? = some call)
    (hLe : t ≤ u) : host.history.next ≤ startAt call.begun p := by
  have hAlways := Execution.always (e := e) (t := t) (u := u) (I := fun s =>
    (∀ call, s.calls[k]? = some call → host.history.next ≤ startAt call.begun p) ∧
      ∃ host', s.hosts[p]? = some host' ∧ host.history.next ≤ host'.history.next) ?_ ?_ hLe
  · exact hAlways.1 call hCall
  · rintro s event s' ⟨hBegun, host₁, hHost₁, hNext⟩ hStep
    refine ⟨?_, ?_⟩
    · intro call' hCall'
      rcases (step_cases hStep).call_origin hCall' with
        ⟨call₁, hCall₁, rfl | ⟨effect, hOwn, -, -⟩⟩ | ⟨_, _, _, -, -, rfl⟩
      · exact hBegun _ hCall₁
      · rw [hOwn.begun]
        exact hBegun _ hCall₁
      · rw [startAt, List.getElem?_map, hHost₁]
        exact hNext
    · obtain ⟨host₂, hHost₂, rfl | hMoves⟩ := (step_cases hStep).moves hHost₁
      · exact ⟨host₂, hHost₂, hNext⟩
      · obtain ⟨added, hAdded⟩ := hMoves.records
        refine ⟨host₂, hHost₂, hNext.trans ?_⟩
        rw [History.next, History.next, hAdded, List.length_append]
        exact Nat.le_add_right _ _
  · refine ⟨?_, host, hHost, Nat.le_refl _⟩
    intro call' hCall'
    exact absurd (List.getElem?_eq_some_iff.mp hCall').1 (Nat.not_lt_of_le hNew)

theorem tracking_at (hTopic : histories ≠ []) (e : Execution (courses histories)) (t : Nat) :
    (e.state t).Tracking := by
  refine Execution.always (e := e) (fun _ _ _ h hStep => h.steps (step_cases hStep)) ?_ (Nat.zero_le t)
  rw [show e.state 0 = start histories from e.starts]
  have hRun : (start histories).run [] = some (start histories) := rfl
  exact tracking_run hTopic hRun

/-- While nothing goes wrong no call fails. -/
theorem fine_at (hWhole : ∀ h ∈ histories, h.oldest = 0)
    (hSmooth : ∀ t event, e.label t = some event → event.Smooth) (t : Nat) :
    ∀ (k : Nat) (call : SendCall), (e.state t).calls[k]? = some call → call.Fine := by
  induction t with
  | zero =>
    rw [show e.state 0 = start histories from e.starts]
    intro k call hCall
    cases hCall
  | succ t ih =>
    intro k call' hCall'
    rcases e.next t with ⟨-, hState⟩ | ⟨event, hLabel, hStep⟩
    · rw [hState] at hCall'
      exact ih k call' hCall'
    · rcases (step_cases hStep).call_origin hCall' with ⟨call, hCall, -⟩ | ⟨_, _, _, -, -, rfl⟩
      · rcases step_call hStep hCall with ⟨inner, _, _, rfl, -, -⟩ | ⟨-, hSame⟩
        · have hEvent := hSmooth t _ hLabel
          cases hEvent with
          | call _ _ hNot =>
            obtain ⟨call₀, hCall₀, hInner⟩ := Option.bind_eq_some_iff.mp hStep
            obtain ⟨call₁, hCall₁, hFine⟩ :=
              (calm_at hWhole hSmooth t).callStep_fine hNot hInner hCall₀
            obtain rfl : call₁ = call' := Option.some.inj (hCall₁.symm.trans hCall')
            exact hFine
        · obtain rfl : call = call' := Option.some.inj (hSame.symm.trans hCall')
          exact ih k call hCall
      · exact Or.inl rfl

section Smooth

variable (hWhole : ∀ h ∈ histories, h.oldest = 0)
  (hSmooth : ∀ t event, e.label t = some event → event.Smooth) (hWriters : FairWriters e)
  (hReader : FairReader e c) (hCalls : e.WeaklyFair fun event => event = .reader c .next)

include hWhole hSmooth hWriters hReader hCalls

/-- A record whose call has returned `Ok` is delivered sooner or later. -/
theorem record_arrives (hTopic : histories ≠ []) {u : Nat} {r : Reader}
    {positions : List RecordPosition} (hCall : (e.state u).calls[k]? = some call)
    (hOk : call.status = .returned (.ok positions)) (hr : (e.state u).readers[c]? = some r)
    (hStart : ∀ p, startAt r.start p ≤ startAt call.begun p) {i : Nat} {position : RecordPosition}
    {record : Record} (hPosition : positions[i]? = some position)
    (hRecord : call.records[i]? = some record) :
    Leads (fun t => u ≤ t) fun t =>
      ∃ r', (e.state t).readers[c]? = some r' ∧ (position, record) ∈ r'.delivered := by
  intro t hut
  have hTracks := (tracking_at hTopic e u).each k call hCall
  have hLocated := hTracks.located_of_acknowledged hRecord ⟨positions, hOk, hPosition⟩
  have hHeld := recordAt_kept hLocated.held hut
  obtain ⟨r₁, hr₁, hStart₁⟩ := start_kept hr hut
  have hFrom : startAt r₁.start position.partition ≤ position.offset := by
    obtain ⟨host, hHost, -⟩ := recordAt_eq_some.mp hLocated.held
    obtain ⟨floor, hFloor, -⟩ := hTracks.begun _ host hHost
    rw [hStart₁]
    refine (hStart _).trans ?_
    rw [startAt, hFloor]
    exact hLocated.behind floor hFloor
  obtain ⟨v, hv, r', hr', hPassed⟩ : ∃ v, t ≤ v ∧ ∃ r', (e.state v).readers[c]? = some r' ∧
      position.offset < r'.consumer.position position.partition := by
    by_cases hAhead : r₁.consumer.position position.partition ≤ position.offset
    · obtain ⟨v, hv, r', hr', hPassed⟩ := position_reached hWriters hReader hCalls
        (fun t _ => keepsCall_at hWhole hSmooth c t)
        (fun t _ => notOvertaken_at hWhole hSmooth c _ t) hr₁ hHeld hAhead
      exact ⟨v, hv, r', hr', by omega⟩
    · exact ⟨t, Nat.le_refl t, r₁, hr₁, Nat.lt_of_not_le hAhead⟩
  obtain ⟨r₂, hr₂, hStart₂⟩ := start_kept hr₁ hv
  obtain rfl : r₂ = r' := Option.some.inj (hr₂.symm.trans hr')
  rw [← hStart₂] at hFrom
  exact ⟨v, hv, r₂, hr₂, delivered_of_position hr₂ (recordAt_kept hHeld hv) hFrom hPassed⟩

/-- All records of such a call have arrived at some later moment. -/
theorem records_arrive (hTopic : histories ≠ []) {u : Nat} {r : Reader}
    {positions : List RecordPosition} (hCall : (e.state u).calls[k]? = some call)
    (hOk : call.status = .returned (.ok positions))
    (hLen : positions.length = call.records.length) (hr : (e.state u).readers[c]? = some r)
    (hStart : ∀ p, startAt r.start p ≤ startAt call.begun p) :
    ∃ t, u ≤ t ∧ (e.state t).calls[k]? = some call ∧ ∃ r', (e.state t).readers[c]? = some r' ∧
      ∀ (i : Nat) (record : Record), call.records[i]? = some record →
        ∃ position, positions[i]? = some position ∧ (position, record) ∈ r'.delivered ∧
          r'.delivered.filter (fun d => d.1 = position) = [(position, record)] := by
  have hArrive : ∀ i < positions.length, Leads (fun t => u ≤ t) fun t =>
      ∀ position record, positions[i]? = some position → call.records[i]? = some record →
        ∃ r', (e.state t).readers[c]? = some r' ∧ (position, record) ∈ r'.delivered := by
    intro i hi t hut
    have hPosition := List.getElem?_eq_getElem hi
    obtain ⟨record, hRecord⟩ : ∃ record, call.records[i]? = some record :=
      ⟨_, List.getElem?_eq_getElem (hLen ▸ hi)⟩
    obtain ⟨v, hv, hThere⟩ := record_arrives hWhole hSmooth hWriters hReader hCalls hTopic hCall hOk
      hr hStart hPosition hRecord t hut
    refine ⟨v, hv, ?_⟩
    intro position record' hPosition' hRecord'
    obtain rfl := Option.some.inj (hPosition.symm.trans hPosition')
    obtain rfl := Option.some.inj (hRecord.symm.trans hRecord')
    exact hThere
  obtain ⟨t, hut, hAll⟩ := Leads.all (P := fun t => u ≤ t) (fun t h => Nat.le_succ_of_le h)
    (fun i hi t _ hThere position record hPosition hRecord => by
      obtain ⟨r', hr', hDelivered⟩ := hThere position record hPosition hRecord
      obtain ⟨r₂, hr₂, hBefore⟩ := delivered_later hr' (Nat.le_succ t)
      exact ⟨r₂, hr₂, hBefore.subset hDelivered⟩) hArrive u (Nat.le_refl u)
  obtain ⟨r', hr', -⟩ := start_kept hr hut
  refine ⟨t, hut, returned_later hCall (by simp [hOk]) hut, r', hr', ?_⟩
  intro i record hRecord
  have hi : i < positions.length := by
    rw [hLen]
    exact (List.getElem?_eq_some_iff.mp hRecord).1
  have hPosition := List.getElem?_eq_getElem hi
  obtain ⟨r₂, hr₂, hDelivered⟩ := hAll i hi _ record hPosition hRecord
  obtain rfl : r₂ = r' := Option.some.inj (hr₂.symm.trans hr')
  have hConsecutive := ((delivering_at e t).each r₂ (List.mem_of_getElem? hr₂)).consecutive
  exact ⟨positions[i], hPosition, hDelivered, hConsecutive.filter_eq hDelivered⟩

omit hReader hCalls in
/-- A call returns `Ok`, with a position for each record. -/
theorem call_returns_ok (hTopic : histories ≠ []) (hFair : FairCall e k) {T : Nat}
    (hCall : (e.state T).calls[k]? = some call) :
    ∃ u, T ≤ u ∧ ∃ call' positions, (e.state u).calls[k]? = some call' ∧
      call'.status = .returned (.ok positions) ∧ positions.length = call.records.length ∧
      call'.records = call.records ∧ call'.begun = call.begun := by
  obtain ⟨u, hu, call', hCall', hEnded⟩ := call_ends hTopic hWriters hFair T ⟨call, hCall⟩
  obtain ⟨positions, hOk⟩ : ∃ positions, call'.status = .returned (.ok positions) :=
    (fine_at hWhole hSmooth u k call' hCall').resolve_left hEnded
  obtain ⟨call'', hCall'', hRecords, hBegun⟩ := call_later hCall hu
  obtain rfl : call'' = call' := Option.some.inj (hCall''.symm.trans hCall')
  have hLen : positions.length = call.records.length := by
    have hTracks := (tracking_at hTopic e u).each k call'' hCall'
    obtain ⟨-, -, rfl⟩ := hTracks.returned positions hOk
    rw [hTracks.sized, hRecords]
  exact ⟨u, hu, call'', positions, hCall', hOk, hLen, hRecords, hBegun⟩

/-- While nothing goes wrong, a consumer that goes on calling gets every record of a call of a
producer once, at the position the call returns for it. -/
theorem everything_arrives (hTopic : histories ≠ []) (hFair : FairCall e k) {T : Nat} {r : Reader}
    (hCall : (e.state T).calls[k]? = some call) (hr : (e.state T).readers[c]? = some r)
    (hStart : ∀ p, startAt r.start p ≤ startAt call.begun p) :
    ∃ t, T ≤ t ∧ ∃ call' positions r', (e.state t).calls[k]? = some call' ∧
      call'.status = .returned (.ok positions) ∧ positions.length = call.records.length ∧
      (e.state t).readers[c]? = some r' ∧
      ∀ (i : Nat) (record : Record), call.records[i]? = some record →
        ∃ position, positions[i]? = some position ∧
          r'.delivered.filter (fun d => d.1 = position) = [(position, record)] := by
  obtain ⟨u, hu, call', positions, hCall', hOk, hLen, hRecords, hBegun⟩ :=
    call_returns_ok hWhole hSmooth hWriters hTopic hFair hCall
  obtain ⟨r₁, hr₁, hStart₁⟩ := start_kept hr hu
  obtain ⟨t, hut, hReturned, r', hr', hAll⟩ := records_arrive hWhole hSmooth hWriters hReader hCalls
    hTopic hCall' hOk (by rw [hRecords, hLen]) hr₁ (by rw [hStart₁, hBegun]; exact hStart)
  refine ⟨t, hu.trans hut, call', positions, r', hReturned, hOk, hLen, hr', ?_⟩
  intro i record hRecord
  obtain ⟨position, hPosition, -, hOnce⟩ := hAll i record (by rw [hRecords]; exact hRecord)
  exact ⟨position, hPosition, hOnce⟩

end Smooth

/-- A record is sent and taken. -/
def sendAndTake : List HubEvent :=
  [.join [0], .send ⟨7, none, []⟩, .call 0 .issue, .host 0 (.turn [none]), .signal 0,
    .call 0 .settle, .call 0 .issue, .reader 0 .next, .reader 0 .ask, .host 0 (.turn [none]),
    .signal 0, .reader 0 .receive, .reader 0 .next]

theorem smooth_sendAndTake (h : event ∈ sendAndTake) : event.Smooth := by
  simp only [sendAndTake, List.mem_cons, List.not_mem_nil, or_false] at h
  rcases h with rfl | rfl | rfl | rfl | rfl | rfl | rfl | rfl | rfl | rfl | rfl | rfl | rfl
  · exact .join [0]
  · exact .send ⟨7, none, []⟩
  · exact .call 0 .issue (by simp)
  · exact smooth_alone
  · exact .signal 0
  · exact .call 0 .settle (by simp)
  · exact .call 0 .issue (by simp)
  · exact .reader 0 .next (by simp)
  · exact .reader 0 .ask (by simp)
  · exact smooth_alone
  · exact .signal 0
  · exact .reader 0 .receive (by simp)
  · exact .reader 0 .next (by simp)

theorem not_enabled_call (hCall : s.calls[k]? = some call) (hStatus : call.status ≠ .running)
    {inner : CallEvent} : ¬ (courses histories).Enabled (fun event => event = .call k inner) s := by
  intro hEnabled
  obtain ⟨_, s', rfl, hStep⟩ := hEnabled
  rcases step_call hStep hCall with ⟨_, _, _, -, hOwn, -⟩ | ⟨hOther, -⟩
  · have hRunning : call.status = .running := by
      cases hOwn <;> assumption
    exact hStatus hRunning
  · exact hOther inner rfl

theorem everything_arrives_taken : ∃ (e : Execution (courses [History.empty])) (t : Nat)
    (positions : List RecordPosition) (r : Reader), FairWriters e ∧ FairReader e 0 ∧
      (e.state t).readers[0]? = some r ∧ ∃ position, positions[0]? = some position ∧
        r.delivered.filter (fun d => d.1 = position) = [(position, ⟨7, none, []⟩)] := by
  obtain ⟨done, hRun, hDone⟩ : ∃ done : SendCall, (start [History.empty]).run sendAndTake =
      some (looksAgain [done] 1 [(0, .ok (.offset 0)), (1, .ok (.record (some ⟨7, none, []⟩)))] 2) ∧
      done.status = .returned (.ok [⟨0, 0⟩]) := ⟨_, rfl, rfl⟩
  obtain ⟨e, hWriters, hReader, hCalls, hSmooth, hBegins, hBack⟩ :=
    exists_looking hRun ⟨_, 2, by simp, rfl⟩ fun event hMem => smooth_sendAndTake hMem
  have hAfter : e.state 13 = _ := state_eq sendAndTake hBegins hRun
  have hEnded : ∀ t, 13 ≤ t → (e.state t).calls[0]? = some done := by
    intro t ht
    refine returned_later ?_ (by simp [hDone]) ht
    rw [hAfter]
    rfl
  have hFair : FairCall e 0 := by
    refine ⟨Execution.stronglyFair_of_disabled (n := 13) fun t ht => ?_, ?_⟩
    · exact not_enabled_call (hEnded t ht) (by simp [hDone])
    · apply Execution.weaklyFair_of_disabled
      intro t
      exact ⟨max t 13, Nat.le_max_left t 13,
        not_enabled_call (hEnded _ (Nat.le_max_right t 13)) (by simp [hDone])⟩
  have hBegun : e.state 2 = _ := state_eq (sendAndTake.take 2) (fun i event hi => by
    apply hBegins
    rw [List.getElem?_take] at hi
    split at hi
    · exact hi
    · cases hi) rfl
  obtain ⟨call, hCall, hRecords, hFloor⟩ : ∃ call, (e.state 2).calls[0]? = some call ∧
      call.records = [⟨7, none, []⟩] ∧ call.begun = [0] := by
    rw [hBegun]
    exact ⟨_, rfl, rfl, rfl⟩
  obtain ⟨r, hr, hFrom⟩ : ∃ r, (e.state 2).readers[0]? = some r ∧ r.start = [0] := by
    rw [hBegun]
    exact ⟨_, rfl, rfl⟩
  obtain ⟨t, -, call', positions, r', -, -, -, hr', hAll⟩ :=
    everything_arrives (by simp [History.empty]) hSmooth hWriters hReader hCalls (by simp) hFair hCall
      hr (fun p => by rw [hFrom, hFloor])
  exact ⟨e, t, positions, r', hWriters, hReader, hr', hAll 0 _ (by rw [hRecords]; rfl)⟩

end Hub

end Kafko
