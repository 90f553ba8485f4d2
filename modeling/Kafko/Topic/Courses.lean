import Kafko.Topic.Arrival
import Kafko.Topic.Plant

/-!
# What a topic on its disks gets done

The results about what happens sooner or later are about the hub, whose partitions are lists. An
execution of the plant has one of the hub beside it (`topic_executes_hub`), and if the tasks of the
plant are scheduled fairly, those of the hub are. A writer counts as ready when it stands in its
`select!` and there is something in its inbox, whatever its log and its files look like; in a fair
execution the records it meets are within the limits of the format. So the results hold of the
plant, and the records are those that are read back from the files.
-/

namespace Kafko

open Disk Systems

namespace PlantEvent

/-- The writer takes commands from its inbox. -/
inductive Recv (p : Nat) : PlantEvent → Prop
  | turn : Recv p (.turn p)
  | panic : Recv p (.panic p)

/-- A task outside of the writers. -/
inductive Task (A : HubEvent → Prop) : PlantEvent → Prop
  | task {event : HubEvent} (h : A event) : Task A (.floor event)

/-- Nothing is closed, retired or dropped, and no writer panics. -/
inductive Smooth : PlantEvent → Prop
  | floor {event : HubEvent} (h : event.Smooth) : Smooth (.floor event)
  | turn (p : Nat) : Smooth (.turn p)

end PlantEvent

namespace Plant

/-- The plant with every event visible. -/
def courses (X : Crates) (logs : List (Log × World FileName)) : System Plant PlantEvent :=
  ⟨fun t => t = start logs, Step X⟩

/-- The writer is in its `select!`, and there are commands in its inbox. -/
def Wakes (t : Plant) (p : Nat) : Prop :=
  ∃ host, t.floor.hosts[p]? = some host ∧ host.phase = .serving ∧ host.inbox ≠ []

/-- The writer is in its `select!`, and its inbox is closed and empty. -/
def Drained (t : Plant) (p : Nat) : Prop :=
  ∃ host, t.floor.hosts[p]? = some host ∧ host.phase = .serving ∧ host.closed = true ∧
    host.inbox = []

/-- What the log of a partition reads back at an offset. -/
def reads (X : Crates) (t : Plant) (p offset : Nat) : Option Record :=
  match t.writers[p]? with
  | some (writer, w) =>
    match (Log.readRecordAt X offset Env.quiet writer.log w).1 with
    | .ok found => found
    | _ => none
  | none => none

/-- Retention has not overtaken the consumer in partition `q`. -/
def NotOvertaken (t : Plant) (c q : Nat) : Prop :=
  ∀ (r : Reader) (writer : PartitionWriter) (w : World FileName), t.floor.readers[c]? = some r →
    t.writers[q]? = some (writer, w) → writer.log.oldestBase ≤ r.consumer.position q

variable {X : Crates} {logs : List (Log × World FileName)} {records : List (List Record)}

/-- The writers of the plant are scheduled fairly. -/
structure WritersRun (e : Execution (courses X logs)) : Prop where
  recv : ∀ p, e.GetsTurn (fun t => t.Wakes p) (PlantEvent.Recv p)
  finish : ∀ p, e.GetsTurn (fun t => t.Drained p) fun event => event = .finish p
  signal : ∀ p, e.WeaklyFair (PlantEvent.Task fun event => event = .signal p)
  notify : ∀ p, e.WeaklyFair (PlantEvent.Task fun event => event = .notify p)

/-- The consumer is scheduled fairly, and gets its turn when an inbox has room. -/
structure ReaderRuns (e : Execution (courses X logs)) (c : Nat) : Prop where
  continues : e.WeaklyFair (PlantEvent.Task (HubEvent.Continues c))
  asks : e.StronglyFair (PlantEvent.Task fun event => event = .reader c .ask)

/-- So is a call of a producer. -/
structure CallRuns (e : Execution (courses X logs)) (k : Nat) : Prop where
  issues : e.StronglyFair (PlantEvent.Task fun event => event = .call k .issue)
  settles : e.WeaklyFair (PlantEvent.Task fun event => event = .call k .settle)

/-! ## What the hub sees of the plant -/

variable {t : Plant} {s : Hub} {A : HubEvent → Prop} {histories : List (History Record)} {p : Nat}

theorem Mirrors.hosts (h : Mirrors X t s) (p : Nat) :
    t.floor.hosts[p]? = (s.hosts[p]?).map Host.forget := by
  rw [h.floor, Hub.forget_getElem?]

theorem Mirrors.calls (h : Mirrors X t s) (k : Nat) :
    t.floor.calls[k]? = (s.calls[k]?).map SendCall.forget := by
  rw [h.floor]
  exact List.getElem?_map

theorem Mirrors.host (h : Mirrors X t s) {host : Host} (hHost : s.hosts[p]? = some host) :
    t.floor.hosts[p]? = some host.forget := by
  rw [h.hosts, hHost]
  rfl

theorem Mirrors.readers (h : Mirrors X t s) : t.floor.readers = s.readers := by
  rw [h.floor]
  rfl

theorem Mirrors.writer (h : Mirrors X t s) {host : Host} (hHost : s.hosts[p]? = some host) :
    ∃ writer w n, t.writers[p]? = some (writer, w) ∧
      Refines X writer.log w.store host.history n := by
  have hp : p < t.writers.length := by
    rw [h.count]
    exact (List.getElem?_eq_some_iff.mp hHost).1
  have hWriter : t.writers[p]? = some (t.writers[p].1, t.writers[p].2) :=
    List.getElem?_eq_getElem hp
  obtain ⟨n, hRef⟩ := h.files hHost hWriter
  exact ⟨_, _, n, hWriter, hRef⟩

theorem Mirrors.hostOf (h : Mirrors X t s) {writer : PartitionWriter} {w : World FileName}
    (hWriter : t.writers[p]? = some (writer, w)) :
    ∃ host n, s.hosts[p]? = some host ∧ Refines X writer.log w.store host.history n := by
  have hp : p < s.hosts.length := by
    rw [← h.count]
    exact (List.getElem?_eq_some_iff.mp hWriter).1
  obtain ⟨n, hRef⟩ := h.files (List.getElem?_eq_getElem hp) hWriter
  exact ⟨_, n, List.getElem?_eq_getElem hp, hRef⟩

/-- Reading the file is reading the list. -/
theorem Mirrors.reads_eq (h : Mirrors X t s) {host : Host} (hHost : s.hosts[p]? = some host)
    (offset : Nat) : t.reads X p offset = host.history.get offset := by
  obtain ⟨writer, w, n, hWriter, hRef⟩ := h.writer hHost
  obtain ⟨_, _, hRead, -⟩ := read_quiet Env.quiet_quiet hRef offset
  rw [reads, hWriter]
  simp only [hRead]

/-- What is read back from a file was written to its partition. -/
theorem Mirrors.recordAt (h : Mirrors X t s) {offset : Nat} {record : Record}
    (hReads : t.reads X p offset = some record) : s.recordAt p offset = some record := by
  obtain ⟨writer, w, hWriter⟩ : ∃ writer w, t.writers[p]? = some (writer, w) := by
    cases hWriter : t.writers[p]? with
    | none => simp [reads, hWriter] at hReads
    | some found => exact ⟨_, _, rfl⟩
  obtain ⟨host, n, hHost, -⟩ := h.hostOf hWriter
  rw [h.reads_eq hHost, History.get] at hReads
  split at hReads
  · exact Hub.recordAt_eq_some.mpr ⟨host, hHost, hReads⟩
  · cases hReads

/-- A task outside of the writers can run in the plant if it can in the hub. -/
theorem Mirrors.enabled (h : Mirrors X t s) (hFloor : ∀ event, A event → event.OnFloor)
    (hEnabled : (Hub.courses histories).Enabled A s) :
    (courses X logs).Enabled (PlantEvent.Task A) t := by
  obtain ⟨event, s', hA, hStep⟩ := hEnabled
  have hThere : t.floor.step event = some s'.forget := by
    rw [h.floor, Hub.forget_step s (hFloor event hA), show s.step event = some s' from hStep]
    rfl
  exact ⟨.floor event, _, .task hA, .floor (hFloor event hA) hThere⟩

theorem Mirrors.wakes (h : Mirrors X t s)
    (hEnabled : (Hub.courses histories).Enabled (HubEvent.Recv p) s) : t.Wakes p := by
  obtain ⟨event, s', hRecv, hStep⟩ := hEnabled
  have hReady : ∃ host, s.hosts[p]? = some host ∧ host.phase = .serving ∧ host.inbox ≠ [] := by
    cases hRecv with
    | turn faults =>
      obtain ⟨host, host', hHost, hAct, -⟩ := Hub.host_cases hStep
      obtain ⟨_, hGuard, -⟩ := Option.bind_eq_some_iff.mp hAct
      obtain ⟨hPhase, -, hWakeable⟩ := (Option.guard_eq_some' ()).mp hGuard
      refine ⟨host, hHost, hPhase, fun hNil => ?_⟩
      simp [hNil, Wakeable] at hWakeable
    | panic faults message =>
      obtain ⟨host, host', hHost, hAct, -⟩ := Hub.host_cases hStep
      obtain ⟨_, hGuard, -⟩ := Option.bind_eq_some_iff.mp hAct
      obtain ⟨hPhase, hLess, -⟩ := (Option.guard_eq_some' ()).mp hGuard
      exact ⟨host, hHost, hPhase, List.ne_nil_of_length_pos (Nat.zero_lt_of_lt hLess)⟩
  obtain ⟨host, hHost, hPhase, hInbox⟩ := hReady
  exact ⟨host.forget, h.host hHost, hPhase, hInbox⟩

theorem Mirrors.drained (h : Mirrors X t s)
    (hEnabled : (Hub.courses histories).Enabled (fun event => event = .host p .finish) s) :
    t.Drained p := by
  obtain ⟨_, s', rfl, hStep⟩ := hEnabled
  obtain ⟨host, host', hHost, hAct, -⟩ := Hub.host_cases hStep
  obtain ⟨_, hGuard, -⟩ := Option.bind_eq_some_iff.mp hAct
  obtain ⟨hPhase, hClosed, hInbox⟩ := (Option.guard_eq_some' ()).mp hGuard
  exact ⟨host.forget, h.host hHost, hPhase, hClosed, hInbox⟩

theorem Shows.task {t' : Plant} {event : PlantEvent} {shown : HubEvent} (h : Shows t' event shown)
    (hTask : PlantEvent.Task A event) : A shown := by
  cases hTask with
  | task hA =>
    cases h with
    | floor => exact hA

theorem Shows.recv {t' : Plant} {event : PlantEvent} {shown : HubEvent} (h : Shows t' event shown)
    (hRecv : PlantEvent.Recv p event) : HubEvent.Recv p shown := by
  cases hRecv with
  | turn =>
    cases h with
    | turn => exact .turn _
  | panic =>
    cases h with
    | panic => exact .panic _ _

theorem Shows.smooth {t' : Plant} {event : PlantEvent} {shown : HubEvent} (h : Shows t' event shown)
    (hSmooth : event.Smooth) (hFaultless : t'.Faultless) : shown.Smooth := by
  cases hSmooth with
  | floor hEvent =>
    cases h with
    | floor => exact hEvent
  | turn p =>
    cases h with
    | turn hNone => exact .turn p _ (hNone hFaultless)

/-! ## Executions -/

variable {e : Execution (courses X logs)} {e' : Execution (Hub.courses histories)} {c k q : Nat}

theorem lockstep (hX : X.Lawful)
    (hLogs : List.Forall₂ (fun (l : Log × World FileName) (h : History Record) =>
      ∃ n, Refines X l.1 l.2.store h n) logs histories) :
    Lockstep (courses X logs) (Hub.courses histories) Shows (Mirrors X) where
  starts t hStart := by
    obtain rfl : t = start logs := hStart
    exact ⟨_, rfl, .starts hLogs⟩
  step t event t' s hMirrors hStep := hMirrors.step hX hStep

theorem weaklyFair_beside (h : Beside Shows (Mirrors X) e e')
    (hFloor : ∀ event, A event → event.OnFloor) (hFair : e.WeaklyFair (PlantEvent.Task A)) :
    e'.WeaklyFair A :=
  h.weaklyFair hFair (fun _ _ hMirrors hEnabled => hMirrors.enabled hFloor hEnabled)
    fun _ _ _ hShows hTask => hShows.task hTask

theorem stronglyFair_beside (h : Beside Shows (Mirrors X) e e')
    (hFloor : ∀ event, A event → event.OnFloor) (hFair : e.StronglyFair (PlantEvent.Task A)) :
    e'.StronglyFair A :=
  h.stronglyFair hFair (fun _ _ hMirrors hEnabled => hMirrors.enabled hFloor hEnabled)
    fun _ _ _ hShows hTask => hShows.task hTask

theorem WritersRun.beside (hRun : WritersRun e) (h : Beside Shows (Mirrors X) e e') :
    FairWriters e' where
  recv p := by
    apply h.weaklyFair (hRun.recv p)
    · exact fun _ _ hMirrors hEnabled => hMirrors.wakes hEnabled
    · exact fun _ _ _ hShows hRecv => hShows.recv hRecv
  finish p := by
    apply h.weaklyFair (hRun.finish p)
    · exact fun _ _ hMirrors hEnabled => hMirrors.drained hEnabled
    · rintro _ _ _ hShows rfl
      cases hShows
      rfl
  signal p := weaklyFair_beside h (by rintro _ rfl; trivial) (hRun.signal p)
  notify p := weaklyFair_beside h (by rintro _ rfl; trivial) (hRun.notify p)

theorem ReaderRuns.beside (hRun : ReaderRuns e c) (h : Beside Shows (Mirrors X) e e') :
    FairReader e' c where
  continues := by
    refine weaklyFair_beside h ?_ hRun.continues
    rintro _ ⟨event, -, -⟩
    trivial
  asks := stronglyFair_beside h (by rintro _ rfl; trivial) hRun.asks

theorem CallRuns.beside (hRun : CallRuns e k) (h : Beside Shows (Mirrors X) e e') :
    FairCall e' k where
  issues := stronglyFair_beside h (by rintro _ rfl; trivial) hRun.issues
  settles := weaklyFair_beside h (by rintro _ rfl; trivial) hRun.settles

theorem smooth_beside (h : Beside Shows (Mirrors X) e e')
    (hSmooth : ∀ t event, e.label t = some event → event.Smooth)
    (hFaultless : ∀ t, (e.state t).Faultless) (t : Nat) (shown : HubEvent)
    (hShown : e'.label t = some shown) : shown.Smooth := by
  have hRel := h.label t
  rw [hShown] at hRel
  generalize hHere : e.label t = here at hRel
  cases hRel with
  | some hShows => exact hShows.smooth (hSmooth t _ hHere) (hFaultless (t + 1))

/-- A consumer that starts no later than the logs end before a call is made starts no later than
that call. -/
theorem begins_behind (h : Beside Shows (Mirrors X) e e') {T₀ T : Nat} (hLe : T₀ ≤ T)
    {call : SendCall} {r : Reader} (hNew : (e'.state T₀).calls.length ≤ k)
    (hCall : (e'.state T).calls[k]? = some call) (hr : r ∈ (e'.state T).readers)
    (hStart : ∀ (p : Nat) (writer : PartitionWriter) (w : World FileName),
      (e.state T₀).writers[p]? = some (writer, w) → startAt r.start p ≤ writer.log.nextOffset)
    (p : Nat) : startAt r.start p ≤ startAt call.begun p := by
  cases hHost : (e'.state T₀).hosts[p]? with
  | none =>
    -- there is no such partition, and all of its cursors are zero
    have hDelivers := (Hub.delivering_at e' T).each r hr
    have hSized := (Hub.delivering_at e' T).watching.each r hr
    have hOut : r.consumer.cursors.length ≤ p := by
      rw [hSized.sized, Hub.hosts_length_at, ← Hub.hosts_length_at e' T₀]
      exact List.getElem?_eq_none_iff.mp hHost
    have hZero : r.consumer.position p = 0 := by
      rw [Consumer.position, List.getElem?_eq_none hOut]
      rfl
    have hCursors := hDelivers.cursors p
    omega
  | some host =>
    obtain ⟨writer, w, n, hWriter, hRef⟩ := (h.state T₀).writer hHost
    have hNext := hStart p writer w hWriter
    rw [hRef.nextOffset] at hNext
    exact hNext.trans (Hub.begun_behind hNew hHost hCall hLe)

end Plant

open Plant

/-- Whatever a topic on its disks does for ever, a topic of lists does beside it: everybody outside
of the writers sees the same at every moment, the files hold the lists, and who is scheduled fairly
there is scheduled fairly here. -/
theorem topic_executes_hub {X : Crates} (hX : X.Lawful) {logs : List (Log × World FileName)}
    {records : List (List Record)}
    (hLogs : List.Forall₂ (fun (l : Log × World FileName) rs => Reached X l.1 l.2 rs) logs records)
    (e : Execution (Plant.courses X logs)) :
    ∃ e' : Execution (Hub.courses (Plant.opened logs records)),
      (∀ t, (e.state t).floor = (e'.state t).forget) ∧
      (∀ (t p : Nat) (host : Host), (e'.state t).hosts[p]? = some host →
        ∀ offset, (e.state t).reads X p offset = host.history.get offset) ∧
      (WritersRun e → FairWriters e') ∧ (∀ c, ReaderRuns e c → FairReader e' c) ∧
      ∀ k, CallRuns e k → FairCall e' k := by
  obtain ⟨e', h⟩ := (lockstep hX (opened_refines hX hLogs)).execution e
  refine ⟨e', fun t => (h.state t).floor, ?_, fun hRun => hRun.beside h,
    fun c hRun => hRun.beside h, fun k hRun => hRun.beside h⟩
  exact fun t p host hHost offset => (h.state t).reads_eq hHost offset

namespace Plant

variable {X : Crates} {logs : List (Log × World FileName)} {records : List (List Record)}
  {e : Execution (courses X logs)} {c k q : Nat} (hX : X.Lawful)
  (hLogs : List.Forall₂ (fun (l : Log × World FileName) rs => Reached X l.1 l.2 rs) logs records)

include hX hLogs

theorem opened_ne_nil (hTopic : logs ≠ []) : opened logs records ≠ [] := by
  have hLen := (opened_refines hX hLogs).length_eq
  intro hNil
  rw [hNil] at hLen
  exact hTopic (List.eq_nil_of_length_eq_zero hLen)

/-- Every record that can be read back at or behind the cursor of a consumer that goes on calling is
delivered, if its calls do not fail and retention does not overtake it. -/
theorem read_is_delivered (hWriters : WritersRun e) (hReader : ReaderRuns e c)
    (hCalls : e.WeaklyFair (PlantEvent.Task fun event => event = .reader c .next)) {T : Nat}
    (hLoses : ∀ t, T ≤ t → ¬ (e.state t).floor.LosesCall (e.state (t + 1)).floor c)
    (hKept : ∀ t, T ≤ t → (e.state t).NotOvertaken c q) {r : Reader} {o : Nat} {record : Record}
    (hr : (e.state T).floor.readers[c]? = some r)
    (hRecord : (e.state T).reads X q o = some record) (hAhead : r.consumer.position q ≤ o) :
    ∃ t, T ≤ t ∧ ∃ r', (e.state t).floor.readers[c]? = some r' ∧
      (⟨q, o⟩, record) ∈ r'.delivered := by
  obtain ⟨e', h⟩ := (lockstep hX (opened_refines hX hLogs)).execution e
  have hSame : ∀ t, (e.state t).floor.readers = (e'.state t).readers := fun t => (h.state t).readers
  have hLoses' : ∀ t, T ≤ t → ¬ (e'.state t).LosesCall (e'.state (t + 1)) c := by
    rintro t hT ⟨r, again, hr, hAwait, hLost⟩
    refine hLoses t hT ⟨r, again, ?_, hAwait, ?_⟩
    · rwa [hSame]
    · rwa [hSame]
  have hKept' : ∀ t, T ≤ t → (e'.state t).NotOvertaken c q := by
    intro t hT r host hr hHost
    obtain ⟨writer, w, n, hWriter, hRef⟩ := (h.state t).writer hHost
    rw [← hRef.oldestBase]
    exact hKept t hT r writer w (by rwa [hSame]) hWriter
  have hCalls' := weaklyFair_beside h (by rintro _ rfl; trivial) hCalls
  have hRecord' := (h.state T).recordAt hRecord
  rw [hSame] at hr
  obtain ⟨t, hT, r', hr', hPosition⟩ := Hub.position_reached (hWriters.beside h) (hReader.beside h)
    hCalls' hLoses' hKept' hr hRecord' hAhead
  exact ⟨t, hT, r', by rwa [hSame],
    Hub.delivered_of_passed hT hr hRecord' hAhead hr' hPosition⟩

/-- A call of a producer comes to an end, whatever happens to the writers and their files. -/
theorem call_comes_to_end (hTopic : logs ≠ []) (hWriters : WritersRun e) (hCall : CallRuns e k)
    {T : Nat} {call : SendCall} (hHere : (e.state T).floor.calls[k]? = some call) :
    ∃ t, T ≤ t ∧ ∃ call', (e.state t).floor.calls[k]? = some call' ∧ call'.status ≠ .running := by
  obtain ⟨e', h⟩ := (lockstep hX (opened_refines hX hLogs)).execution e
  rw [(h.state T).calls] at hHere
  obtain ⟨full, hFull, -⟩ := Option.map_eq_some_iff.mp hHere
  obtain ⟨t, hT, call', hCall', hEnded⟩ := Hub.call_ends (opened_ne_nil hX hLogs hTopic)
    (hWriters.beside h) (hCall.beside h) T ⟨full, hFull⟩
  exact ⟨t, hT, call'.forget, by rw [(h.state t).calls, hCall']; rfl, hEnded⟩

/-- A topic on its disks all of whose partitions are shut down comes to its end: each writer answers
what is in its inbox, if it does not panic, and ends. -/
theorem comes_to_end (hWriters : WritersRun e) {T : Nat}
    (hEnding : ∀ p < logs.length, (e.state T).floor.Closed p ∨ (e.state T).floor.Ended p) :
    ∃ t, T ≤ t ∧ (∀ p < logs.length, (e.state t).floor.Ended p) ∧
      ∀ (p reply : Nat) (host host' : Host), (e.state T).floor.hosts[p]? = some host →
        (e.state t).floor.hosts[p]? = some host' →
        (∃ command ∈ host.inbox, command.channel = some reply) → host'.panicked = none →
        ∃ result, (reply, result) ∈ host'.sent := by
  obtain ⟨e', h⟩ := (lockstep hX (opened_refines hX hLogs)).execution e
  have hLen : (opened logs records).length = logs.length :=
    (opened_refines hX hLogs).length_eq.symm
  have hHosts : ∀ (t p : Nat) (host : Host), (e.state t).floor.hosts[p]? = some host →
      ∃ full, (e'.state t).hosts[p]? = some full ∧ full.forget = host := by
    intro t p host hHost
    rw [(h.state t).hosts] at hHost
    exact Option.map_eq_some_iff.mp hHost
  have hEnding' : ∀ p < (opened logs records).length,
      (e'.state T).Closed p ∨ (e'.state T).Ended p := by
    intro p hp
    rcases hEnding p (hLen ▸ hp) with ⟨host, hHost, hClosed⟩ | ⟨host, hHost, hPhase⟩
    · obtain ⟨full, hFull, rfl⟩ := hHosts T p host hHost
      exact Or.inl ⟨full, hFull, hClosed⟩
    · obtain ⟨full, hFull, rfl⟩ := hHosts T p host hHost
      exact Or.inr ⟨full, hFull, hPhase⟩
  obtain ⟨t, hT, hEnded⟩ := Hub.all_ended (hWriters.beside h) T hEnding'
  refine ⟨t, hT, ?_, ?_⟩
  · intro p hp
    obtain ⟨host, hHost, hPhase⟩ := hEnded p (hLen ▸ hp)
    exact ⟨host.forget, (h.state t).host hHost, hPhase⟩
  · intro p reply host host' hHost hHost' hAsked hCalm
    obtain ⟨full, hFull, rfl⟩ := hHosts T p host hHost
    obtain ⟨full', hFull', rfl⟩ := hHosts t p host' hHost'
    have hAsked' : ∃ command ∈ full.inbox, command.channel = some reply := hAsked
    have hCalm' : full'.panicked = none := hCalm
    have hTold := Hub.answered_of_ended hEnded hT hFull hFull' hAsked' hCalm'
    exact hTold

/-- While nothing goes wrong, a consumer that goes on calling, and whose cursors started no later
than the logs ended before a call was made, gets every record of the call once, at the position
the call returns for it, and the record can be read back there. -/
theorem arrives_and_stays (hTopic : logs ≠ []) (hWhole : ∀ l ∈ logs, l.1.oldestBase = 0)
    (hSmooth : ∀ t event, e.label t = some event → event.Smooth)
    (hFaultless : ∀ t, (e.state t).Faultless) (hWriters : WritersRun e) (hReader : ReaderRuns e c)
    (hCalls : e.WeaklyFair (PlantEvent.Task fun event => event = .reader c .next))
    (hFair : CallRuns e k) {T₀ T : Nat} (hLe : T₀ ≤ T) {call : SendCall} {r : Reader}
    (hNew : (e.state T₀).floor.calls.length ≤ k)
    (hCall : (e.state T).floor.calls[k]? = some call)
    (hr : (e.state T).floor.readers[c]? = some r)
    (hStart : ∀ (p : Nat) (writer : PartitionWriter) (w : World FileName),
      (e.state T₀).writers[p]? = some (writer, w) → startAt r.start p ≤ writer.log.nextOffset) :
    ∃ t, T ≤ t ∧ ∃ call' positions r', (e.state t).floor.calls[k]? = some call' ∧
      call'.status = .returned (.ok positions) ∧ positions.length = call.records.length ∧
      (e.state t).floor.readers[c]? = some r' ∧
      ∀ (i : Nat) (record : Record), call.records[i]? = some record →
        ∃ position, positions[i]? = some position ∧
          r'.delivered.filter (fun d => d.1 = position) = [(position, record)] ∧
          (e.state t).reads X position.partition position.offset = some record := by
  obtain ⟨e', h⟩ := (lockstep hX (opened_refines hX hLogs)).execution e
  have hReaders : ∀ t, (e.state t).floor.readers = (e'.state t).readers :=
    fun t => (h.state t).readers
  have hTopic' := opened_ne_nil hX hLogs hTopic
  have hWhole' : ∀ history ∈ opened logs records, history.oldest = 0 := by
    intro history hMem
    obtain ⟨i, hi, rfl⟩ := List.mem_iff_getElem.mp hMem
    simp only [opened, List.getElem_zipWith]
    exact hWhole _ (List.getElem_mem _)
  have hSmooth' := smooth_beside h hSmooth hFaultless
  have hWriters' := hWriters.beside h
  have hCalls' := weaklyFair_beside h (by rintro _ rfl; trivial) hCalls
  rw [(h.state T).calls] at hCall
  obtain ⟨full, hFull, rfl⟩ := Option.map_eq_some_iff.mp hCall
  rw [hReaders] at hr
  have hNew' : (e'.state T₀).calls.length ≤ k := by
    rw [(h.state T₀).floor] at hNew
    simpa [Hub.forget] using hNew
  have hBegun := begins_behind h hLe hNew' hFull (List.mem_of_getElem? hr) hStart
  obtain ⟨u, hu, call', positions, hCall', hOk, hLen, hRecords, hFrom⟩ :=
    Hub.call_returns_ok hWhole' hSmooth' hWriters' hTopic' (hFair.beside h) hFull
  obtain ⟨r₁, hr₁, hStart₁⟩ := Hub.start_kept hr hu
  obtain ⟨t, hut, hReturned, r', hr', hAll⟩ := Hub.records_arrive hWhole' hSmooth' hWriters'
    (hReader.beside h) hCalls' hTopic' hCall' hOk (by rw [hRecords, hLen]) hr₁
    (by rw [hStart₁, hFrom]; exact hBegun)
  refine ⟨t, hu.trans hut, call'.forget, positions, r',
    by rw [(h.state t).calls, hReturned]; rfl, hOk, hLen, by rwa [hReaders], ?_⟩
  intro i record hRecord
  obtain ⟨position, hPosition, hDelivered, hOnce⟩ := hAll i record (by rw [hRecords]; exact hRecord)
  refine ⟨position, hPosition, hOnce, ?_⟩
  obtain ⟨host, hHost, hHeld⟩ := Hub.recordAt_eq_some.mp
    (((Hub.delivering_at e' t).each r' (List.mem_of_getElem? hr')).held _ hDelivered)
  rw [(h.state t).reads_eq hHost, History.get,
    if_pos ((Hub.calm_at hWhole' hSmooth' t _ host hHost).oldest.trans_le (Nat.zero_le _))]
  exact hHeld

end Plant

end Kafko
