import Kafko.Partition.Batching

/-!
# Partitions as the rest of a topic sees them

Seen from outside, a partition is its append-only list and a task that answers commands in the
order of its inbox; calls of the file system may fail, and then the command is answered with an
error and the list stays as it is. `History.respondAll` is this view, the failures being an
argument. A wake-up of the writer is one step of it: the writer takes a run of appends, or one
other command, or a run of appends with the command that ended it (`Wakeable`).
-/

namespace Kafko

open Disk

namespace History

/-- How the list answers a command that may fail. -/
def respond (fault : Option KafkoError) (h : History Record) (command : PartitionCommand) :
    List (Nat × Except KafkoError Reply) × History Record :=
  match fault, command.channel with
  | some e, some reply => ([(reply, .error e)], h)
  | _, _ => h.serve none command

def respondAll (h : History Record) : List (Option KafkoError) → List PartitionCommand →
    List (Nat × Except KafkoError Reply) × History Record
  | fault :: faults, command :: commands =>
    let first := h.respond fault command
    let rest := respondAll first.2 faults commands
    (first.1 ++ rest.1, rest.2)
  | _, _ => ([], h)

variable {h : History Record}

@[simp] theorem respond_none (command : PartitionCommand) :
    h.respond none command = h.serve none command := rfl

/-- Only a command that did not fail is answered with a reply. -/
theorem respond_ok {fault : Option KafkoError} {command : PartitionCommand} {channel : Nat}
    {reply : Reply} (hMem : (channel, .ok reply) ∈ (h.respond fault command).1) :
    h.respond fault command = h.serve none command ∧
      (channel, .ok reply) ∈ (h.serve none command).1 := by
  have hServe : h.respond fault command = h.serve none command := by
    unfold respond at hMem ⊢
    split
    · next hFault hChannel =>
      rw [hChannel] at hMem
      simp at hMem
    · rfl
  rw [← hServe]
  exact ⟨rfl, hMem⟩

theorem respondAll_singleton (fault : Option KafkoError) (command : PartitionCommand) :
    h.respondAll [fault] [command] = h.respond fault command := by
  simp [respondAll]

theorem respondAll_append {faults faults' : List (Option KafkoError)}
    {commands commands' : List PartitionCommand} (hLen : faults.length = commands.length) :
    h.respondAll (faults ++ faults') (commands ++ commands') =
      ((h.respondAll faults commands).1 ++
        ((h.respondAll faults commands).2.respondAll faults' commands').1,
      ((h.respondAll faults commands).2.respondAll faults' commands').2) := by
  induction faults generalizing h commands with
  | nil =>
    obtain rfl := List.length_eq_zero_iff.mp hLen.symm
    simp [respondAll]
  | cons fault faults ih =>
    obtain ⟨command, commands, rfl⟩ := List.exists_cons_of_length_eq_add_one hLen.symm
    have hRest := ih (h := (h.respond fault command).2) (show faults.length = commands.length by
      simpa using hLen)
    simp only [List.cons_append, respondAll, hRest, List.append_assoc]

theorem respond_history (fault : Option KafkoError) (command : PartitionCommand) :
    ∃ added, (h.respond fault command).2 = h.append added := by
  have hServe : ∃ added, (h.serve none command).2 = h.append added := ⟨_, serve_history command⟩
  unfold respond
  split
  · exact ⟨[], (append_nil h).symm⟩
  · exact hServe

/-- The list only grows. -/
theorem respondAll_history (faults : List (Option KafkoError)) (commands : List PartitionCommand) :
    ∃ added, (h.respondAll faults commands).2 = h.append added := by
  induction faults generalizing h commands with
  | nil => exact ⟨[], (append_nil h).symm⟩
  | cons fault faults ih =>
    cases commands with
    | nil => exact ⟨[], (append_nil h).symm⟩
    | cons command commands =>
      obtain ⟨added, hFirst⟩ := h.respond_history fault command
      obtain ⟨added', hRest⟩ := ih (h := (h.respond fault command).2) commands
      refine ⟨added ++ added', ?_⟩
      rw [← append_append, ← hFirst]
      exact hRest

/-- A fault that nobody is told of changes nothing. -/
theorem respond_untold {fault : Option KafkoError} {command : PartitionCommand}
    (hNone : ∀ reply error, (reply, .error error) ∉ (h.respond fault command).1) :
    h.respond fault command = h.respond none command := by
  cases fault with
  | none => rfl
  | some e =>
    cases hChannel : command.channel with
    | none => simp [respond, hChannel]
    | some reply =>
      refine absurd ?_ (hNone reply e)
      simp [respond, hChannel]

/-- If nobody is told of a fault there might as well be none. -/
theorem respondAll_untold {faults : List (Option KafkoError)} {commands : List PartitionCommand}
    (hNone : ∀ reply error, (reply, .error error) ∉ (h.respondAll faults commands).1) :
    h.respondAll (faults.map fun _ => none) commands = h.respondAll faults commands := by
  induction faults generalizing h commands with
  | nil => rfl
  | cons fault faults ih =>
    cases commands with
    | nil => rfl
    | cons command commands =>
      have hFirst : h.respond fault command = h.respond none command :=
        respond_untold fun reply error hMem => hNone reply error (List.mem_append_left _ hMem)
      have hRest : (h.respond fault command).2.respondAll (faults.map fun _ => none) commands =
          (h.respond fault command).2.respondAll faults commands :=
        ih fun reply error hMem => hNone reply error (List.mem_append_right _ hMem)
      rw [List.map_cons, respondAll, respondAll, ← hFirst, hRest]

/-- The faults can be chosen such that there is none if nobody is told of one. -/
theorem exists_told {faults : List (Option KafkoError)} {commands : List PartitionCommand}
    (hLen : faults.length = commands.length) :
    ∃ told : List (Option KafkoError), told.length = commands.length ∧
      h.respondAll told commands = h.respondAll faults commands ∧
      ((∀ reply error, (reply, .error error) ∉ (h.respondAll faults commands).1) →
        ∀ fault ∈ told, fault = none) := by
  by_cases hNone : ∀ reply error, (reply, .error error) ∉ (h.respondAll faults commands).1
  · refine ⟨faults.map fun _ => none, by rw [List.length_map, hLen], respondAll_untold hNone, ?_⟩
    intro _ fault hMem
    obtain ⟨_, -, rfl⟩ := List.mem_map.mp hMem
    rfl
  · exact ⟨faults, hLen, rfl, fun h => absurd h hNone⟩

theorem serve_channel_of_mem {refusal : Option KafkoError} {command : PartitionCommand} {reply : Nat}
    {result : Except KafkoError Reply} (hMem : (reply, result) ∈ (h.serve refusal command).1) :
    command.channel = some reply := by
  cases hOp : command.op with
  | some op =>
    obtain ⟨t, res, hChannel, hServe⟩ := serve_channel refusal h
      (show command.op.isSome by simp [hOp])
    rw [hServe, List.mem_singleton, Prod.mk.injEq] at hMem
    rw [hChannel, hMem.1]
  | none =>
    cases command with
    | poison => cases hMem
    | failNextAppend kind => cases hMem
    | _ => cases hOp

theorem respond_channel {fault : Option KafkoError} {command : PartitionCommand} {reply : Nat}
    {result : Except KafkoError Reply} (hMem : (reply, result) ∈ (h.respond fault command).1) :
    command.channel = some reply := by
  unfold respond at hMem
  split at hMem
  · next hChannel =>
    rw [List.mem_singleton, Prod.mk.injEq] at hMem
    rw [hChannel, hMem.1]
  · exact serve_channel_of_mem hMem

/-- Every answer comes from a command, and was given in a state between the old one and the new
one; if the command was the last, the new state is the one after it. -/
theorem respondAll_answer {faults : List (Option KafkoError)} {commands : List PartitionCommand}
    {reply : Nat} {result : Except KafkoError Reply}
    (hMem : (reply, result) ∈ (h.respondAll faults commands).1) :
    ∃ before command after fault added added', commands = before ++ command :: after ∧
      (reply, result) ∈ ((h.append added).respond fault command).1 ∧
      (h.respondAll faults commands).2 = ((h.append added).respond fault command).2.append added' ∧
      (after = [] → added' = []) := by
  induction faults generalizing h commands with
  | nil => cases hMem
  | cons fault faults ih =>
    cases commands with
    | nil => cases hMem
    | cons command commands =>
      rw [respondAll] at hMem ⊢
      rcases List.mem_append.mp hMem with hHere | hLater
      · obtain ⟨added', hRest⟩ := respondAll_history (h := (h.respond fault command).2) faults
          commands
        refine ⟨[], command, commands, fault, [], added', rfl, ?_, ?_, ?_⟩
        · rwa [append_nil]
        · rw [append_nil]
          exact hRest
        · rintro rfl
          have hSame : (h.respond fault command).2.append added' = (h.respond fault command).2 := by
            rw [← hRest]
            cases faults <;> rfl
          have hLen := congrArg next hSame
          rw [next_append] at hLen
          exact List.eq_nil_of_length_eq_zero (by omega)
      · obtain ⟨first, hFirst⟩ := h.respond_history fault command
        obtain ⟨before, command', after, fault', added, added', hSplit, hAnswer, hState, hLast⟩ :=
          ih hLater
        refine ⟨command :: before, command', after, fault', first ++ added, added', ?_, ?_, ?_,
          hLast⟩
        · rw [hSplit]
          rfl
        · rwa [← append_append, ← hFirst]
        · rw [← append_append, ← hFirst]
          exact hState

/-- Without failures the list answers as it always does. -/
theorem respondAll_replicate_none (commands : List PartitionCommand) :
    h.respondAll (List.replicate commands.length none) commands = h.serveAll none commands := by
  induction commands generalizing h with
  | nil => rfl
  | cons command commands ih =>
    simp only [List.length_cons, List.replicate_succ, respondAll, serveAll, respond_none, ih]

/-- Appends that fail together. -/
theorem respondAll_appends_refused (e : KafkoError) {rs : List Record} {ts : List Nat}
    (hLen : rs.length = ts.length) :
    h.respondAll (List.replicate rs.length (some e)) (List.zipWith .append rs ts) =
      (ts.map fun reply => (reply, .error e), h) := by
  induction rs generalizing ts with
  | nil =>
    obtain rfl := List.length_eq_zero_iff.mp hLen.symm
    rfl
  | cons r rs ih =>
    obtain ⟨t, ts, rfl⟩ := List.exists_cons_of_length_eq_add_one hLen.symm
    have hRest := ih (show rs.length = ts.length by simpa using hLen)
    simp only [List.length_cons, List.replicate_succ, List.zipWith_cons_cons, respondAll]
    rw [show h.respond (some e) (.append r t) = ([(t, .error e)], h) from rfl, hRest]
    rfl

end History

def PartitionCommand.isAppend : PartitionCommand → Bool
  | append _ _ => true
  | _ => false

/-- What one wake-up takes from the inbox. -/
def Wakeable (taken : List PartitionCommand) : Prop :=
  taken ≠ [] ∧ (∀ command ∈ taken.dropLast, command.isAppend = true) ∧ .poison ∉ taken

instance (taken : List PartitionCommand) : Decidable (Wakeable taken) :=
  inferInstanceAs (Decidable (_ ∧ _))

/-! ## The writer refines this view -/

namespace PartitionWriter

variable {X : Crates} {env : Env FileName} {s s' : PartitionWriter} {w w' : World FileName}
  {h : History Record} {n : Nat} {α : Type} {command : PartitionCommand}

/-- The commands were answered, some of them with errors. -/
def Responds (X : Crates) (s : PartitionWriter) (h : History Record)
    (commands : List PartitionCommand) (s' : PartitionWriter) (w' : World FileName) : Prop :=
  ∃ faults n', faults.length = commands.length ∧ s'.inbox = s.inbox ∧
    s'.sent = s.sent ++ (h.respondAll faults commands).1 ∧
    Refines X s'.log w'.store (h.respondAll faults commands).2 n'

def respondsPost (X : Crates) (s : PartitionWriter) (h : History Record)
    (commands : List PartitionCommand) : Post FileName KafkoError PartitionWriter Unit where
  ok := fun _ s' w' => Responds X s h commands s' w'
  err := fun _ _ _ => False
  panic := fun _ _ _ => True
  crash := fun _ _ => True

/-- One command that was carried out, or that failed. -/
theorem responds_single {command : PartitionCommand} (fault : Option KafkoError) {m : Nat}
    (hInbox : s'.inbox = s.inbox) (hSent : s'.sent = s.sent ++ (h.respond fault command).1)
    (hRef : Refines X s'.log w'.store (h.respond fault command).2 m) :
    Responds X s h [command] s' w' := by
  refine ⟨[fault], m, rfl, hInbox, ?_, ?_⟩
  · rw [History.respondAll_singleton]
    exact hSent
  · rw [History.respondAll_singleton]
    exact hRef

theorem wp_takeFailNextKind_responds {k : Option ErrorKind → LogIO PartitionWriter Unit}
    {commands : List PartitionCommand}
    (hNext : ∀ kind, wp env (k kind) (respondsPost X s h commands)
      { s with failNextKind := none } w) :
    wp env (takeFailNextKind >>= k) (respondsPost X s h commands) s w :=
  hNext s.failNextKind

/-- A call of the log through its specification. -/
theorem wp_onLog_responds {m : LogIO Log α} {k : Except KafkoError α → LogIO PartitionWriter Unit}
    {P : Post FileName KafkoError Log α} {s₀ : PartitionWriter} {commands : List PartitionCommand}
    (hm : wp env m P s.log w)
    (hOk : ∀ a log' w', P.ok a log' w' →
      wp env (k (.ok a)) (respondsPost X s₀ h commands) { s with log := log' } w')
    (hErr : ∀ e log' w', P.err e log' w' →
      wp env (k (.error e)) (respondsPost X s₀ h commands) { s with log := log' } w') :
    wp env (Fx.attempt (onLog m) >>= k) (respondsPost X s₀ h commands) s w := by
  rw [wp_bind, wp_attempt, onLog, wp_zoom]
  exact wp_mono hm hOk hErr (fun _ _ _ _ => trivial) (fun _ _ _ => trivial)

theorem flushAppendBatch_responds (hX : X.Lawful) (hClean : Clean env)
    (hRef : Refines X s.log w.store h n) {rs : List Record} {ts : List Nat} (hNe : rs ≠ [])
    (hLen : rs.length = ts.length) (hOp : LogOp.Admissible X s.log (.appendBatch rs)) :
    wp env (flushAppendBatch X rs ts) (respondsPost X s h (List.zipWith .append rs ts)) s w := by
  have hCount : (List.zipWith PartitionCommand.append rs ts).length = rs.length := by simp [hLen]
  have hRefused : ∀ (e : KafkoError) (log' : Log) (w' : World FileName) (n' : Nat),
      Refines X log' w'.store h n' → wp env (sendAll (ts.map fun t => (t, .error e)))
        (respondsPost X s h (List.zipWith .append rs ts))
        { s with failNextKind := none, log := log' } w' := by
    intro e log' w' n' hRef'
    refine ⟨List.replicate rs.length (some e), n', by simp [hLen], rfl, ?_, ?_⟩
    · rw [History.respondAll_appends_refused e hLen]
    · rw [History.respondAll_appends_refused e hLen]
      exact hRef'
  have hEmpty : rs.isEmpty = false := by simpa using hNe
  rw [flushAppendBatch, hEmpty]
  refine wp_takeFailNextKind_responds fun kind => ?_
  cases kind with
  | some kind => exact hRefused _ s.log w n hRef
  | none =>
    refine wp_onLog_responds (exec_appendBatch hX hClean hRef hOp hNe) ?_ ?_
    · rintro offsets log' w' ⟨rfl, -, -, hRef'⟩
      dsimp only
      rw [getLast?_offsets hNe]
      refine ⟨List.replicate rs.length none, durableCount s.log log' h.next n, by simp [hLen], rfl,
        ?_, ?_⟩
      · rw [← hCount, History.respondAll_replicate_none, History.serveAll_appends hLen, hCount]
      · rw [← hCount, History.respondAll_replicate_none, History.serveAll_appends hLen]
        exact hRef'
    · rintro e log' w' ⟨-, hRef', -⟩
      exact hRefused e log' w' _ hRef'

theorem handleSingleCommand_responds (hX : X.Lawful) (hClean : Clean env)
    (hRef : Refines X s.log w.store h n) (command : PartitionCommand)
    (hOp : ∀ op, command.op = some op → op.Admissible X s.log) :
    wp env (handleSingleCommand X command) (respondsPost X s h [command]) s w := by
  cases command with
  | append r t =>
    refine wp_takeFailNextKind_responds fun kind => ?_
    cases kind with
    | some kind => exact responds_single (some (.io kind)) rfl rfl hRef
    | none =>
      refine wp_onLog_responds (exec_append hX hClean hRef (hOp _ rfl)) ?_ ?_
      · rintro offset log' w' ⟨rfl, -, -, hRef'⟩
        exact responds_single none rfl rfl hRef'
      · rintro e log' w' ⟨-, hRef', -⟩
        exact responds_single (some e) rfl rfl hRef'
  | appendBatch rs t =>
    refine wp_takeFailNextKind_responds fun kind => ?_
    cases kind with
    | some kind => exact responds_single (some (.io kind)) rfl rfl hRef
    | none =>
      by_cases hNil : rs = []
      · subst hNil
        exact responds_single none rfl rfl hRef
      · have hEmpty : rs.isEmpty = false := by simpa using hNil
        refine wp_onLog_responds (exec_appendBatch hX hClean hRef (hOp _ rfl) hNil) ?_ ?_
        · rintro offsets log' w' ⟨rfl, -, -, hRef'⟩
          dsimp only
          rw [getLast?_offsets hNil]
          refine responds_single (m := durableCount s.log log' h.next n) none rfl ?_ ?_
          · simp only [History.respond_none, History.serve, hEmpty, Bool.false_eq_true, if_false]
          · simp only [History.respond_none, History.serve, hEmpty, Bool.false_eq_true, if_false]
            exact hRef'
        · rintro e log' w' ⟨-, hRef', -⟩
          exact responds_single (some e) rfl rfl hRef'
  | readAt offset t =>
    refine wp_onLog_responds (exec_readRecordAt hClean.fullReads hRef offset) ?_ ?_
    · rintro record log' w' ⟨rfl, -, hRef'⟩
      exact responds_single none rfl rfl hRef'
    · rintro e log' w' ⟨-, -, hRef'⟩
      exact responds_single (some e) rfl rfl hRef'
  | sync t =>
    refine wp_onLog_responds (exec_sync hRef) ?_ ?_
    · rintro _ log' w' ⟨rfl, hRef'⟩
      exact responds_single none rfl rfl hRef'
    · rintro e log' w' ⟨-, rfl, hRef'⟩
      exact responds_single (some e) rfl rfl hRef'
  | poison => trivial
  | failNextAppend kind => exact responds_single none rfl (by simp [History.serve]) hRef

/-- What one turn of the loop has done: the commands it took were answered in order. -/
structure TurnTaken (X : Crates) (s : PartitionWriter) (h : History Record)
    (taken : List PartitionCommand) (faults : List (Option KafkoError)) (s' : PartitionWriter)
    (w' : World FileName) : Prop where
  wakeable : Wakeable taken
  matched : faults.length = taken.length
  inbox : s.inbox = taken ++ s'.inbox
  sent : s'.sent = s.sent ++ (h.respondAll faults taken).1
  refines : ∃ n', Refines X s'.log w'.store (h.respondAll faults taken).2 n'

theorem zipWith_append_isAppend {rs : List Record} {ts : List Nat} {command : PartitionCommand}
    (h : command ∈ List.zipWith .append rs ts) : ∃ r t, command = .append r t := by
  obtain ⟨i, hi, rfl⟩ := List.getElem_of_mem h
  exact ⟨_, _, List.getElem_zipWith⟩

/-- A run of appends and what ended it can be taken in one wake-up. -/
theorem wakeable_drained {rs : List Record} {ts : List Nat} {other : Option PartitionCommand}
    (hNe : List.zipWith PartitionCommand.append rs ts ≠ []) (hOther : other ≠ some .poison) :
    Wakeable (List.zipWith .append rs ts ++ other.toList) := by
  refine ⟨?_, ?_, ?_⟩
  · intro hNil
    exact hNe (List.append_eq_nil_iff.mp hNil).1
  · intro command hMem
    have hIn : command ∈ List.zipWith .append rs ts := by
      cases other with
      | none =>
        rw [Option.toList_none, List.append_nil] at hMem
        exact List.mem_of_mem_dropLast hMem
      | some other =>
        rwa [Option.toList_some, List.dropLast_concat] at hMem
    obtain ⟨r, t, rfl⟩ := zipWith_append_isAppend hIn
    rfl
  · intro hMem
    rcases List.mem_append.mp hMem with hIn | hIn
    · obtain ⟨r, t, hEq⟩ := zipWith_append_isAppend hIn
      cases hEq
    · exact hOther (Option.mem_toList.mp hIn)

theorem not_poison_of_ok (h : handleSingleCommand X command env s w = (.ok (), s', w')) :
    command ≠ .poison := by
  rintro rfl
  cases h

/-- What the writer gives to the log during one wake-up is admissible when its turn comes. -/
def AdmissibleTurn (X : Crates) (env : Env FileName) (ready : List Bool) (s : PartitionWriter)
    (w : World FileName) : Prop :=
  match s.inbox with
  | [] => True
  | .append r t :: inbox =>
    let drained := drainAppends s.log.config.batchMaxRecords s.log.config.batchMaxBytes ready inbox
      [r] [t] r.wireSize
    LogOp.Admissible X s.log (.appendBatch drained.records) ∧
      ∀ other, drained.other = some other → ∀ op, other.op = some op → ∀ s₁ w₁,
        flushAppendBatch X drained.records drained.replies env { s with inbox := drained.inbox } w =
          (.ok (), s₁, w₁) → op.Admissible X s₁.log
  | command :: _ => ∀ op, command.op = some op → op.Admissible X s.log

/-- The appends of one wake-up and the command that ended them. -/
theorem flushDrained_responds (hX : X.Lawful) (hClean : Clean env)
    (hRef : Refines X s.log w.store h n) {drained : Drained} (hNe : drained.records ≠ [])
    (hLen : drained.records.length = drained.replies.length)
    (hBatch : LogOp.Admissible X s.log (.appendBatch drained.records))
    (hOther : ∀ other, drained.other = some other → ∀ op, other.op = some op → ∀ s₁ w₁,
      flushAppendBatch X drained.records drained.replies env s w = (.ok (), s₁, w₁) →
        op.Admissible X s₁.log)
    (hRun : flushDrained X drained env s w = (.ok (), s', w')) :
    drained.other ≠ some .poison ∧
      Responds X s h (List.zipWith .append drained.records drained.replies ++
        drained.other.toList) s' w' := by
  obtain ⟨_, s₁, w₁, hFlush, hRest⟩ := Fx.bind_eq_ok hRun
  have hFlushed := ok_of_wp (flushAppendBatch_responds hX hClean hRef hNe hLen hBatch) hFlush
  obtain ⟨faults, n₁, hFaults, hInbox, hSent, hRef₁⟩ := hFlushed
  cases hOpt : drained.other with
  | none =>
    rw [hOpt] at hRest
    cases hRest
    refine ⟨by simp, faults, n₁, ?_, hInbox, ?_, ?_⟩
    · rw [Option.toList_none, List.append_nil, hFaults]
    · rwa [Option.toList_none, List.append_nil]
    · rwa [Option.toList_none, List.append_nil]
  | some other =>
    rw [hOpt] at hRest
    have hSingle := ok_of_wp (handleSingleCommand_responds hX hClean hRef₁ other
      (fun op hOp => hOther other hOpt op hOp s₁ w₁ hFlush)) hRest
    obtain ⟨faults', n₂, hFaults', hInbox', hSent', hRef₂⟩ := hSingle
    refine ⟨?_, faults ++ faults', n₂, ?_, hInbox'.trans hInbox, ?_, ?_⟩
    · intro hPoison
      exact not_poison_of_ok hRest (Option.some.inj hPoison)
    · simp [hFaults, hFaults']
    · rw [Option.toList_some, History.respondAll_append hFaults, hSent', hSent, List.append_assoc]
    · rw [Option.toList_some, History.respondAll_append hFaults]
      exact hRef₂

theorem wakeable_alone (hAlone : command ≠ .poison) : Wakeable [command] := by
  refine ⟨by simp, by simp, ?_⟩
  simpa using hAlone.symm

/-- The writer refines the view from outside: a wake-up that does not panic answers the commands it
takes from the inbox, in order. -/
theorem takeTurn_responds (hX : X.Lawful) (hClean : Clean env)
    (hRef : Refines X s.log w.store h n) {ready : List Bool} (hInbox : s.inbox ≠ [])
    (hOps : AdmissibleTurn X env ready s w)
    (hRun : takeTurn X (.recv ready) env s w = (.ok (), s', w')) :
    ∃ taken faults, TurnTaken X s h taken faults s' w' := by
  obtain ⟨first, inbox, hCons⟩ := List.exists_cons_of_ne_nil hInbox
  rw [run_recv_cons hCons] at hRun
  have hRef' : Refines X { s with inbox := inbox }.log w.store h n := hRef
  unfold AdmissibleTurn at hOps
  rw [hCons] at hOps
  have hAlone : (∀ op, first.op = some op → op.Admissible X s.log) →
      handleSingleCommand X first env { s with inbox := inbox } w = (.ok (), s', w') →
      ∃ taken faults, TurnTaken X s h taken faults s' w' := by
    intro hOp hHandle
    obtain ⟨faults, n', hFaults, hRest, hSent, hRef''⟩ :=
      ok_of_wp (handleSingleCommand_responds hX hClean hRef' first hOp) hHandle
    refine ⟨[first], faults, wakeable_alone (not_poison_of_ok hHandle), hFaults, ?_, hSent,
      n', hRef''⟩
    rw [hRest, hCons]
    rfl
  cases first with
  | append r t =>
    rw [run_process_append rfl] at hRun
    obtain ⟨hLen, hPrefix, hSplit⟩ := drainAppends_split s.log.config.batchMaxRecords
      s.log.config.batchMaxBytes ready inbox [r] [t] r.wireSize rfl
    dsimp only at hRun hOps
    generalize hDrained : drainAppends s.log.config.batchMaxRecords s.log.config.batchMaxBytes ready
      inbox [r] [t] r.wireSize = drained at hLen hPrefix hSplit hOps hRun
    have hNe : drained.records ≠ [] := by
      intro hNil
      rw [hNil] at hPrefix
      simp at hPrefix
    have hZip : List.zipWith PartitionCommand.append drained.records drained.replies ≠ [] := by
      intro hNil
      have hZero := congrArg List.length hNil
      rw [List.length_zipWith, ← hLen, Nat.min_self, List.length_nil] at hZero
      exact hNe (List.eq_nil_of_length_eq_zero hZero)
    have hRef'' : Refines X { s with inbox := drained.inbox }.log w.store h n := hRef
    obtain ⟨hPoison, faults, n', hFaults, hRest, hSent, hRef₁⟩ :=
      flushDrained_responds hX hClean hRef'' hNe hLen hOps.1 hOps.2 hRun
    refine ⟨_, faults, wakeable_drained hZip hPoison, hFaults, ?_, hSent, n', hRef₁⟩
    rw [hRest, hCons]
    exact hSplit.symm
  | appendBatch rs t => exact hAlone hOps hRun
  | readAt offset t => exact hAlone hOps hRun
  | sync t => exact hAlone hOps hRun
  | poison => exact hAlone hOps hRun
  | failNextAppend kind => exact hAlone hOps hRun

/-- A retention tick, whether the pass succeeds or not. -/
theorem retentionTick_retires (hClean : Clean env) (hRef : Refines X s.log w.store h n)
    (hRun : takeTurn X .retentionTick env s w = (.ok (), s', w')) :
    ∃ oldest, h.oldest ≤ oldest ∧ oldest ≤ h.next ∧
      Refines X s'.log w'.store (h.retire oldest) n ∧ s'.inbox = s.inbox := by
  have hSpec : wp env (takeTurn X .retentionTick)
      { ok := fun _ s' w' => ∃ oldest, h.oldest ≤ oldest ∧ oldest ≤ h.next ∧
          Refines X s'.log w'.store (h.retire oldest) n ∧ s'.inbox = s.inbox
        err := fun _ _ _ => True
        panic := fun _ _ _ => True
        crash := fun _ _ => True } s w := by
    rw [takeTurn, wp_bind, wp_attempt, onLog, wp_zoom]
    refine wp_mono (exec_applyRetention hClean hRef) ?_ ?_ (fun _ _ _ _ => trivial)
      (fun _ _ _ => trivial)
    · rintro k log' w' ⟨-, oldest, hLe, hNext, hRef'⟩
      exact ⟨oldest, hLe, hNext, hRef', rfl⟩
    · rintro e log' w' ⟨-, -, oldest, hLe, hNext, hRef'⟩
      exact ⟨oldest, hLe, hNext, hRef', rfl⟩
  exact ok_of_wp hSpec hRun

theorem finish_keeps (hRef : Refines X s.log w.store h n)
    (hRun : finish env s w = (.ok (), s', w')) : ∃ n', Refines X s'.log w'.store h n' := by
  have hSpec : wp env finish
      { ok := fun _ s' w' => ∃ n', Refines X s'.log w'.store h n'
        err := fun _ _ _ => True
        panic := fun _ _ _ => True
        crash := fun _ _ => True } s w := by
    rw [finish, wp_bind, wp_attempt, onLog, wp_zoom]
    refine wp_mono (exec_sync hRef) ?_ ?_ (fun _ _ _ _ => trivial) (fun _ _ _ => trivial)
    · rintro - log' w' ⟨rfl, hRef'⟩
      exact ⟨h.next, hRef'⟩
    · rintro e log' w' ⟨-, rfl, hRef'⟩
      exact ⟨n, hRef'⟩
  exact ok_of_wp hSpec hRun

end PartitionWriter

end Kafko
