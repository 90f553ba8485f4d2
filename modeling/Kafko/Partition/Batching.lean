import Kafko.Partition.Writer
import Kafko.Storage.Failures

/-!
# Batching can not be observed

The writer may answer a run of appends with one `append_batch` or with one `append` each; it
rotates at different places and produces different files. Both ways are compared with the
same thing, the append-only list answering the commands one after the other (`serveAll`), so
they agree with each other.

`batchedOps` lists the log operations a batching writer performs. It is used to say, in the
words of `AdmissibleRun`, that the records a run writes are small enough for the format.
-/

namespace Kafko

open Disk

/-! ## The list answers commands -/

/-- The log operation behind a command. -/
def PartitionCommand.op : PartitionCommand → Option LogOp
  | append record _ => some (.append record)
  | appendBatch records _ => some (.appendBatch records)
  | readAt offset _ => some (.readRecordAt offset)
  | sync _ => some .sync
  | poison => none
  | failNextAppend _ => none

namespace History

/-- How the list answers one command. With a codec that is not linked every append is refused. -/
def serve (refusal : Option KafkoError) (h : History Record) :
    PartitionCommand → List (Nat × Except KafkoError Reply) × History Record
  | .append record reply =>
    match refusal with
    | none => ([(reply, .ok (.offset h.next))], h.append [record])
    | some e => ([(reply, .error e)], h)
  | .appendBatch records reply =>
    if records.isEmpty then ([(reply, .ok (.offsets []))], h)
    else match refusal with
      | none => ([(reply, .ok (.offsets (List.range' h.next records.length)))], h.append records)
      | some e => ([(reply, .error e)], h)
  | .readAt offset reply => ([(reply, .ok (.record (h.get offset)))], h)
  | .sync reply => ([(reply, .ok .done)], h)
  | .poison => ([], h)
  | .failNextAppend _ => ([], h)

def serveAll (refusal : Option KafkoError) (h : History Record) :
    List PartitionCommand → List (Nat × Except KafkoError Reply) × History Record
  | [] => ([], h)
  | command :: commands =>
    ((h.serve refusal command).1 ++ (serveAll refusal (h.serve refusal command).2 commands).1,
      (serveAll refusal (h.serve refusal command).2 commands).2)

variable {refusal : Option KafkoError} {h : History Record}

theorem serveAll_append (cs ds : List PartitionCommand) : h.serveAll refusal (cs ++ ds) =
    ((h.serveAll refusal cs).1 ++ ((h.serveAll refusal cs).2.serveAll refusal ds).1,
      ((h.serveAll refusal cs).2.serveAll refusal ds).2) := by
  induction cs generalizing h with
  | nil => rfl
  | cons c cs ih => simp only [List.cons_append, serveAll, ih, List.append_assoc]

theorem serveAll_singleton (c : PartitionCommand) :
    h.serveAll refusal [c] = h.serve refusal c := by
  simp [serveAll]

/-- A run of appends is answered as one batch. -/
theorem serveAll_appends {rs : List Record} {ts : List Nat} (hLen : rs.length = ts.length) :
    h.serveAll none (List.zipWith .append rs ts) =
      (((List.range' h.next rs.length).zip ts).map fun (offset, reply) =>
        (reply, .ok (.offset offset)), h.append rs) := by
  induction rs generalizing h ts with
  | nil => simp [serveAll, append]
  | cons r rs ih =>
    obtain ⟨t, ts, rfl⟩ := List.exists_cons_of_length_eq_add_one hLen.symm
    have hRest := ih (h := h.append [r]) (show rs.length = ts.length by simpa using hLen)
    simp only [List.zipWith_cons_cons, serveAll, serve, hRest, next_append, List.length_singleton]
    simp [List.range'_succ, append]

theorem serveAll_appends_refused {e : KafkoError} {rs : List Record} {ts : List Nat}
    (hLen : rs.length = ts.length) :
    h.serveAll (some e) (List.zipWith .append rs ts) =
      (ts.map fun reply => (reply, .error e), h) := by
  induction rs generalizing ts with
  | nil =>
    obtain rfl := List.length_eq_zero_iff.mp hLen.symm
    rfl
  | cons r rs ih =>
    obtain ⟨t, ts, rfl⟩ := List.exists_cons_of_length_eq_add_one hLen.symm
    have hRest := ih (show rs.length = ts.length by simpa using hLen)
    simp only [List.zipWith_cons_cons, serveAll, serve, hRest]
    rfl

end History

/-! ## What one wake-up takes from the inbox -/

theorem drainAppends_split (maxRecords maxBytes : Nat) (ready : List Bool)
    (inbox : List PartitionCommand) (records : List Record) (replies : List Nat) (bytes : Nat)
    (hLen : records.length = replies.length) :
    (drainAppends maxRecords maxBytes ready inbox records replies bytes).records.length =
        (drainAppends maxRecords maxBytes ready inbox records replies bytes).replies.length ∧
      records <+: (drainAppends maxRecords maxBytes ready inbox records replies bytes).records ∧
      List.zipWith .append (drainAppends maxRecords maxBytes ready inbox records replies bytes).records
          (drainAppends maxRecords maxBytes ready inbox records replies bytes).replies ++
        (drainAppends maxRecords maxBytes ready inbox records replies bytes).other.toList ++
        (drainAppends maxRecords maxBytes ready inbox records replies bytes).inbox =
      List.zipWith .append records replies ++ inbox := by
  fun_induction drainAppends maxRecords maxBytes ready inbox records replies bytes with
  | case1 records replies bytes ready record reply inbox hRoom ih =>
    obtain ⟨hSame, hPrefix, hAll⟩ := ih (by simp [hLen])
    refine ⟨hSame, (List.prefix_append _ _).trans hPrefix, ?_⟩
    rw [hAll, List.zipWith_append hLen]
    simp
  | case2 => exact ⟨hLen, List.prefix_rfl, by simp⟩
  | case3 => exact ⟨hLen, List.prefix_rfl, by simp⟩
  | case4 => exact ⟨hLen, List.prefix_rfl, by simp⟩
  | case5 => exact ⟨hLen, List.prefix_rfl, by simp⟩

/-- The log operations of a batching writer, wake-up by wake-up. -/
def batchedOps (batchMaxRecords batchMaxBytes : Nat) :
    List (List Bool) → List PartitionCommand → List LogOp
  | ready :: patterns, .append record reply :: inbox =>
    let drained := drainAppends batchMaxRecords batchMaxBytes ready inbox [record] [reply]
      record.wireSize
    .appendBatch drained.records :: ((drained.other.bind PartitionCommand.op).toList ++
      batchedOps batchMaxRecords batchMaxBytes patterns drained.inbox)
  | _ :: patterns, other :: inbox =>
    other.op.toList ++ batchedOps batchMaxRecords batchMaxBytes patterns inbox
  | _, _ => []

/-- The log operations of a writer that takes one command at a time. -/
def singleOps (commands : List PartitionCommand) : List LogOp :=
  commands.filterMap PartitionCommand.op

/-! ## One command -/

/-- The error with which every append fails if the codec of the log is not linked. -/
def LogConfig.refusal (X : Crates) (config : LogConfig) : Option KafkoError :=
  if config.compression.isAvailable X then none
  else some (.compressionUnavailable config.compression)

/-- A writer whose log refines a history and that no test has told to fail. -/
structure Serving (X : Crates) (config : LogConfig) (s : PartitionWriter) (w : World FileName)
    (h : History Record) : Prop where
  refines : ∃ n, Refines X s.log w.store h n
  sameConfig : s.log.config = config
  noFault : s.failNextKind = none
  hwm : s.hwm = h.next

namespace PartitionWriter

variable {X : Crates} {env : Env FileName} {config : LogConfig} {s : PartitionWriter}
  {w : World FileName} {h : History Record} {α : Type}

theorem run_takeFailNextKind (h : s.failNextKind = none) :
    takeFailNextKind env s w = (.ok none, s, w) := by
  have hSame : { s with failNextKind := none } = s := by
    cases s
    simp_all
  change (Res.ok s.failNextKind, { s with failNextKind := none }, w) = _
  rw [hSame, h]

theorem run_attempt_ok {m : LogIO Log α} {a : α} {log' : Log} {w' : World FileName}
    (hRun : m env s.log w = (.ok a, log', w')) :
    Fx.attempt (onLog m) env s w = (.ok (.ok a), { s with log := log' }, w') := by
  unfold Fx.attempt onLog Fx.zoom
  rw [hRun]

theorem run_attempt_err {m : LogIO Log α} {e : KafkoError} {log' : Log} {w' : World FileName}
    (hRun : m env s.log w = (.err e, log', w')) :
    Fx.attempt (onLog m) env s w = (.ok (.error e), { s with log := log' }, w') := by
  unfold Fx.attempt onLog Fx.zoom
  rw [hRun]

/-- How an append of an undisturbed log ends. -/
theorem append_quiet {log : Log} {n : Nat} {op : LogOp} {value : α} {prog : LogIO Log α}
    (hEnv : env.Quiet) (hProg : wp env prog (appendOutcome env X log h n op value) log w) :
    ∃ log' w' n', log'.config = log.config ∧
      ((log.config.refusal X = none ∧ prog env log w = (.ok value, log', w') ∧
          Refines X log' w'.store (h.append op.records) n') ∨
        ∃ e, log.config.refusal X = some e ∧ prog env log w = (.err e, log', w') ∧
          Refines X log' w'.store h n') := by
  rcases hRun : prog env log w with ⟨r, log', w'⟩
  rw [wp, hRun] at hProg
  cases r with
  | ok a =>
    obtain ⟨rfl, hConfig, hCodec, hRef⟩ := hProg
    refine ⟨log', w', _, hConfig, Or.inl ⟨?_, rfl, hRef⟩⟩
    rw [LogConfig.refusal, if_pos hCodec]
  | err e =>
    obtain ⟨hConfig, hRef, ⟨rfl, hCodec⟩ | hNoisy⟩ := hProg
    · refine ⟨log', w', _, hConfig, Or.inr ⟨_, ?_, rfl, hRef⟩⟩
      rw [LogConfig.refusal, hCodec]
      rfl
    · exact absurd hEnv.steady hNoisy
  | panic m => exact hProg.elim
  | crash => exact absurd hEnv.alive hProg.1

theorem exec_of_ok {f : α → Reply} {m : LogIO Log α} {log log' : Log} {w' : World FileName} {a : α}
    (hRun : m env log w = (.ok a, log', w')) :
    (m >>= fun a => pure (f a)) env log w = (.ok (f a), log', w') :=
  Fx.run_bind hRun

theorem exec_of_err {f : α → Reply} {m : LogIO Log α} {log log' : Log} {w' : World FileName}
    {e : KafkoError} (hRun : m env log w = (.err e, log', w')) :
    (m >>= fun a => pure (f a)) env log w = (.err e, log', w') := by
  change Fx.bind m _ env log w = _
  rw [Fx.bind, hRun]

/-- What one command has done: the log made the move of its operation, and the list's answers
were sent. -/
structure Served (X : Crates) (env : Env FileName) (config : LogConfig) (s : PartitionWriter)
    (w : World FileName) (h : History Record) (op : LogOp)
    (answers : List (Nat × Except KafkoError Reply))
    (h' : History Record) (s' : PartitionWriter) (w' : World FileName) : Prop where
  log : s'.log = (op.exec X env s.log w).2.1
  world : w' = (op.exec X env s.log w).2.2
  inbox : s'.inbox = s.inbox
  sent : s'.sent = s.sent ++ answers
  serving : Serving X config s' w' h'

theorem handle_append (hX : X.Lawful) (hEnv : env.Quiet) (hs : Serving X config s w h) {r : Record}
    {t : Nat} (hOp : LogOp.Admissible X s.log (.append r)) :
    ∃ s' w', handleSingleCommand X (.append r t) env s w = (.ok (), s', w') ∧
      Served X env config s w h (.append r) (h.serve (config.refusal X) (.append r t)).1
        (h.serve (config.refusal X) (.append r t)).2 s' w' := by
  obtain ⟨n, hRef⟩ := hs.refines
  obtain ⟨log', w', n', hConfig, hResult⟩ :=
    append_quiet hEnv (exec_append hX (clean_of_quiet hEnv) hRef hOp)
  rw [hs.sameConfig] at hConfig hResult
  rw [handleSingleCommand, Fx.run_bind (run_takeFailNextKind hs.noFault)]
  dsimp only
  rcases hResult with ⟨hCodec, hRun, hRef'⟩ | ⟨e, hCodec, hRun, hRef'⟩
  · have hExec : (LogOp.append r).exec X env s.log w = (.ok (.offset h.next), log', w') :=
      exec_of_ok hRun
    rw [Fx.run_bind (run_attempt_ok hRun), hCodec]
    refine ⟨_, _, rfl, ?_, ?_, rfl, rfl, ⟨n', hRef'⟩, hConfig, hs.noFault, ?_⟩
    · rw [hExec]
    · rw [hExec]
    · exact (History.next_append h [r]).symm
  · have hExec : (LogOp.append r).exec X env s.log w = (.err e, log', w') := exec_of_err hRun
    rw [Fx.run_bind (run_attempt_err hRun), hCodec]
    refine ⟨_, _, rfl, ?_, ?_, rfl, rfl, ⟨n', hRef'⟩, hConfig, hs.noFault, hs.hwm⟩
    · rw [hExec]
    · rw [hExec]

/-- A batch that is not empty, up to the sending of its result. -/
theorem run_appendBatch (hX : X.Lawful) (hEnv : env.Quiet) (hs : Serving X config s w h)
    {rs : List Record} (hNe : rs ≠ []) (hOp : LogOp.Admissible X s.log (.appendBatch rs)) :
    ∃ log' w' n', log'.config = config ∧ (LogOp.appendBatch rs).exec X env s.log w =
        ((LogOp.appendBatch rs).exec X env s.log w |>.1, log', w') ∧
      ((config.refusal X = none ∧
          Log.appendBatch X rs env s.log w =
            (.ok (List.range' h.next rs.length), log', w') ∧
          Refines X log' w'.store (h.append rs) n') ∨
        ∃ e, config.refusal X = some e ∧ Log.appendBatch X rs env s.log w = (.err e, log', w') ∧
          Refines X log' w'.store h n') := by
  obtain ⟨n, hRef⟩ := hs.refines
  obtain ⟨log', w', n', hConfig, hResult⟩ :=
    append_quiet hEnv (exec_appendBatch hX (clean_of_quiet hEnv) hRef hOp hNe)
  rw [hs.sameConfig] at hConfig hResult
  refine ⟨log', w', n', hConfig, ?_, hResult⟩
  rcases hResult with ⟨-, hRun, -⟩ | ⟨e, -, hRun, -⟩
  · have hExec : (LogOp.appendBatch rs).exec X env s.log w = (.ok (.offsets _), log', w') :=
      exec_of_ok hRun
    rw [hExec]
  · have hExec : (LogOp.appendBatch rs).exec X env s.log w = (.err e, log', w') :=
      exec_of_err hRun
    rw [hExec]

theorem getLast?_offsets {rs : List Record} (hNe : rs ≠ []) (next : Nat) :
    (List.range' next rs.length).getLast? = some (next + rs.length - 1) := by
  have hLen := List.length_pos_of_ne_nil hNe
  rw [List.getLast?_range', if_neg (by omega)]

theorem handle_appendBatch (hX : X.Lawful) (hEnv : env.Quiet) (hs : Serving X config s w h)
    {rs : List Record} {t : Nat} (hOp : LogOp.Admissible X s.log (.appendBatch rs)) :
    ∃ s' w', handleSingleCommand X (.appendBatch rs t) env s w = (.ok (), s', w') ∧
      Served X env config s w h (.appendBatch rs)
        (h.serve (config.refusal X) (.appendBatch rs t)).1
        (h.serve (config.refusal X) (.appendBatch rs t)).2 s' w' := by
  rw [handleSingleCommand, flushExplicitBatch, Fx.run_bind (run_takeFailNextKind hs.noFault)]
  dsimp only
  by_cases hNil : rs = []
  · subst hNil
    have hRun : Log.appendBatch X [] env s.log w = (.ok [], s.log, w) := rfl
    rw [Fx.run_bind (run_attempt_ok hRun)]
    exact ⟨_, _, rfl, rfl, rfl, rfl, rfl, hs.refines, hs.sameConfig, hs.noFault, hs.hwm⟩
  · have hEmpty : rs.isEmpty = false := by simpa using hNil
    obtain ⟨log', w', n', hConfig, hExec, hResult⟩ := run_appendBatch hX hEnv hs hNil hOp
    rcases hResult with ⟨hCodec, hRun, hRef⟩ | ⟨e, hCodec, hRun, hRef⟩
    · rw [Fx.run_bind (run_attempt_ok hRun), hCodec]
      dsimp only
      rw [getLast?_offsets hNil]
      simp only [History.serve, hEmpty, Bool.false_eq_true, if_false]
      refine ⟨_, _, rfl, ?_, ?_, rfl, rfl, ⟨n', hRef⟩, hConfig, hs.noFault, ?_⟩
      · rw [hExec]
      · rw [hExec]
      · have hLen := List.length_pos_of_ne_nil hNil
        change h.next + rs.length - 1 + 1 = _
        rw [History.next_append]
        omega
    · rw [Fx.run_bind (run_attempt_err hRun), hCodec]
      simp only [History.serve, hEmpty, Bool.false_eq_true, if_false]
      refine ⟨_, _, rfl, ?_, ?_, rfl, rfl, ⟨n', hRef⟩, hConfig, hs.noFault, hs.hwm⟩
      · rw [hExec]
      · rw [hExec]

theorem handle_readAt (hEnv : env.Quiet) (hs : Serving X config s w h) (offset t : Nat) :
    ∃ s' w', handleSingleCommand X (.readAt offset t) env s w = (.ok (), s', w') ∧
      Served X env config s w h (.readRecordAt offset) [(t, .ok (.record (h.get offset)))] h s'
        w' := by
  obtain ⟨n, hRef⟩ := hs.refines
  have hSpec := exec_readRecordAt hEnv.fullReads hRef offset
  rcases hRun : Log.readRecordAt X offset env s.log w with ⟨r, log', w'⟩
  rw [wp, hRun] at hSpec
  cases r with
  | ok record =>
    obtain ⟨rfl, hShape, hRef'⟩ := hSpec
    have hExec : (LogOp.readRecordAt offset).exec X env s.log w =
        (.ok (.record (h.get offset)), log', w') := exec_of_ok hRun
    rw [handleSingleCommand, Fx.run_bind (run_attempt_ok hRun)]
    refine ⟨_, _, rfl, ?_, ?_, rfl, rfl, ⟨n, hRef'⟩, hShape.config.trans hs.sameConfig, hs.noFault,
      hs.hwm⟩
    · rw [hExec]
    · rw [hExec]
  | err e => exact absurd hEnv.steady hSpec.1
  | panic m => exact hSpec.elim
  | crash => exact absurd hEnv.alive hSpec.1

theorem handle_sync (hEnv : env.Quiet) (hs : Serving X config s w h) (t : Nat) :
    ∃ s' w', handleSingleCommand X (.sync t) env s w = (.ok (), s', w') ∧
      Served X env config s w h .sync [(t, .ok .done)] h s' w' := by
  obtain ⟨n, hRef⟩ := hs.refines
  have hSpec : wp env Log.sync _ s.log w := exec_sync hRef
  rcases hRun : Log.sync env s.log w with ⟨r, log', w'⟩
  rw [wp, hRun] at hSpec
  cases r with
  | ok u =>
    obtain ⟨rfl, hRef'⟩ := hSpec
    have hExec : LogOp.sync.exec X env s.log w = (.ok .done, s.log, w') :=
      exec_of_ok (f := fun _ => .done) hRun
    rw [handleSingleCommand, Fx.run_bind (run_attempt_ok hRun)]
    refine ⟨_, _, rfl, ?_, ?_, rfl, rfl, ⟨h.next, hRef'⟩, hs.sameConfig, hs.noFault, hs.hwm⟩
    · rw [hExec]
    · rw [hExec]
  | err e => exact absurd hEnv.steady hSpec.1
  | panic m => exact hSpec.elim
  | crash => exact absurd hEnv.alive hSpec.1

/-- The step lemma: an undisturbed writer answers a command as the list does. -/
theorem handleSingleCommand_serves (hX : X.Lawful) (hEnv : env.Quiet)
    (hs : Serving X config s w h) {command : PartitionCommand} {op : LogOp}
    (hCommand : command.op = some op) (hOp : op.Admissible X s.log) :
    ∃ s' w', handleSingleCommand X command env s w = (.ok (), s', w') ∧
      Served X env config s w h op (h.serve (config.refusal X) command).1
        (h.serve (config.refusal X) command).2 s' w' := by
  cases command with
  | append r t =>
    obtain rfl := Option.some.inj hCommand
    exact handle_append hX hEnv hs hOp
  | appendBatch rs t =>
    obtain rfl := Option.some.inj hCommand
    exact handle_appendBatch hX hEnv hs hOp
  | readAt offset t =>
    obtain rfl := Option.some.inj hCommand
    exact handle_readAt hEnv hs offset t
  | sync t =>
    obtain rfl := Option.some.inj hCommand
    exact handle_sync hEnv hs t
  | poison => cases hCommand
  | failNextAppend kind => cases hCommand

/-- A coalesced batch is answered as the appends it consists of. -/
theorem flushAppendBatch_serves (hX : X.Lawful) (hEnv : env.Quiet)
    (hs : Serving X config s w h) {rs : List Record} {ts : List Nat} (hNe : rs ≠ [])
    (hLen : rs.length = ts.length) (hOp : LogOp.Admissible X s.log (.appendBatch rs)) :
    ∃ s' w', flushAppendBatch X rs ts env s w = (.ok (), s', w') ∧
      Served X env config s w h (.appendBatch rs)
        (h.serveAll (config.refusal X) (List.zipWith .append rs ts)).1
        (h.serveAll (config.refusal X) (List.zipWith .append rs ts)).2 s' w' := by
  have hEmpty : rs.isEmpty = false := by simpa using hNe
  rw [flushAppendBatch, hEmpty]
  simp only [Bool.false_eq_true, if_false]
  rw [Fx.run_bind (run_takeFailNextKind hs.noFault)]
  dsimp only
  obtain ⟨log', w', n', hConfig, hExec, hResult⟩ := run_appendBatch hX hEnv hs hNe hOp
  rcases hResult with ⟨hCodec, hRun, hRef⟩ | ⟨e, hCodec, hRun, hRef⟩
  · rw [Fx.run_bind (run_attempt_ok hRun), hCodec, History.serveAll_appends hLen]
    dsimp only
    rw [getLast?_offsets hNe]
    refine ⟨_, _, rfl, ?_, ?_, rfl, rfl, ⟨n', hRef⟩, hConfig, hs.noFault, ?_⟩
    · rw [hExec]
    · rw [hExec]
    · have hPos := List.length_pos_of_ne_nil hNe
      change h.next + rs.length - 1 + 1 = _
      rw [History.next_append]
      omega
  · rw [Fx.run_bind (run_attempt_err hRun), hCodec, History.serveAll_appends_refused hLen]
    refine ⟨_, _, rfl, ?_, ?_, rfl, rfl, ⟨n', hRef⟩, hConfig, hs.noFault, hs.hwm⟩
    · rw [hExec]
    · rw [hExec]

/-! ## Whole runs -/

theorem handleEach_serves (hX : X.Lawful) (hEnv : env.Quiet) (hs : Serving X config s w h)
    {commands : List PartitionCommand} (hPlain : ∀ c ∈ commands, c.op.isSome)
    (hOps : AdmissibleRun X env (singleOps commands) s.log w) :
    ∃ s' w', handleEach X commands env s w = (.ok (), s', w') ∧
      s'.sent = s.sent ++ (h.serveAll (config.refusal X) commands).1 ∧
      Serving X config s' w' (h.serveAll (config.refusal X) commands).2 := by
  induction commands generalizing s w h with
  | nil => exact ⟨s, w, rfl, by simp [History.serveAll], hs⟩
  | cons command commands ih =>
    obtain ⟨op, hCommand⟩ := Option.isSome_iff_exists.mp (hPlain command List.mem_cons_self)
    rw [singleOps, List.filterMap_cons_some hCommand] at hOps
    obtain ⟨hOp, hRest⟩ := hOps
    obtain ⟨s₁, w₁, hRun, hServed⟩ := handleSingleCommand_serves hX hEnv hs hCommand hOp
    rw [← hServed.log, ← hServed.world] at hRest
    obtain ⟨s₂, w₂, hRun', hSent, hs₂⟩ := ih hServed.serving
      (fun c hc => hPlain c (List.mem_cons_of_mem _ hc)) hRest
    refine ⟨s₂, w₂, ?_, ?_, hs₂⟩
    · rw [handleEach, Fx.run_bind hRun, hRun']
    · rw [hSent, hServed.sent, List.append_assoc]
      rfl

theorem run_recv_nil (hInbox : s.inbox = []) (ready : List Bool) :
    takeTurn X (.recv ready) env s w = (.ok (), s, w) := by
  cases s
  cases hInbox
  rfl

theorem run_recv_cons {first : PartitionCommand} {inbox : List PartitionCommand}
    (hInbox : s.inbox = first :: inbox) (ready : List Bool) :
    takeTurn X (.recv ready) env s w =
      processWithBatching X ready first env { s with inbox := inbox } w := by
  cases s
  cases hInbox
  rfl

/-- What the writer does with the commands it took along. -/
def flushDrained (X : Crates) (drained : Drained) : LogIO PartitionWriter Unit := do
  flushAppendBatch X drained.records drained.replies
  match drained.other with
  | some other => handleSingleCommand X other
  | none => pure ()

theorem run_process_append {ready : List Bool} {r : Record} {t : Nat} {drained : Drained}
    (hDrained : drainAppends s.log.config.batchMaxRecords s.log.config.batchMaxBytes ready s.inbox
      [r] [t] r.wireSize = drained) :
    processWithBatching X ready (.append r t) env s w =
      flushDrained X drained env { s with inbox := drained.inbox } w := by
  subst hDrained
  rfl

/-- The appends of one wake-up and the command that ended them. -/
theorem flushDrained_serves (hX : X.Lawful) (hEnv : env.Quiet) (hs : Serving X config s w h)
    {drained : Drained} (hNe : drained.records ≠ [])
    (hLen : drained.records.length = drained.replies.length)
    (hPlain : ∀ c ∈ drained.other, c.op.isSome) {ops : List LogOp}
    (hOps : AdmissibleRun X env (.appendBatch drained.records ::
      ((drained.other.bind PartitionCommand.op).toList ++ ops)) s.log w) :
    ∃ s' w', flushDrained X drained env s w = (.ok (), s', w') ∧ s'.inbox = s.inbox ∧
      s'.sent = s.sent ++ (h.serveAll (config.refusal X)
        (List.zipWith .append drained.records drained.replies ++ drained.other.toList)).1 ∧
      Serving X config s' w' (h.serveAll (config.refusal X)
        (List.zipWith .append drained.records drained.replies ++ drained.other.toList)).2 ∧
      AdmissibleRun X env ops s'.log w' := by
  obtain ⟨s₁, w₁, hFlush, hServed⟩ := flushAppendBatch_serves hX hEnv hs hNe hLen hOps.1
  have hRest := hOps.2
  rw [← hServed.log, ← hServed.world] at hRest
  rw [flushDrained, Fx.run_bind hFlush]
  cases hOther : drained.other with
  | none =>
    rw [hOther] at hRest
    refine ⟨s₁, w₁, rfl, hServed.inbox, ?_, ?_, hRest⟩
    · rw [Option.toList_none, List.append_nil]
      exact hServed.sent
    · rw [Option.toList_none, List.append_nil]
      exact hServed.serving
  | some other =>
    obtain ⟨op, hOp⟩ := Option.isSome_iff_exists.mp (hPlain other hOther)
    rw [hOther, Option.bind_some, hOp, Option.toList_some, List.singleton_append] at hRest
    obtain ⟨s₂, w₂, hRun, hServed'⟩ := handleSingleCommand_serves hX hEnv hServed.serving hOp
      hRest.1
    have hLast := hRest.2
    rw [← hServed'.log, ← hServed'.world] at hLast
    refine ⟨s₂, w₂, hRun, hServed'.inbox.trans hServed.inbox, ?_, ?_, hLast⟩
    · rw [Option.toList_some, History.serveAll_append, History.serveAll_singleton, hServed'.sent,
        hServed.sent, List.append_assoc]
    · rw [Option.toList_some, History.serveAll_append, History.serveAll_singleton]
      exact hServed'.serving

/-- What one wake-up has done: it answered the commands it took from the inbox, in order. -/
def TurnServed (X : Crates) (env : Env FileName) (config : LogConfig) (s : PartitionWriter)
    (w : World FileName) (h : History Record) (turn : Turn) (patterns : List (List Bool)) : Prop :=
  ∃ taken rest s' w', s.inbox = taken ++ rest ∧ (s.inbox ≠ [] → taken ≠ []) ∧
    takeTurn X turn env s w = (.ok (), s', w') ∧ s'.inbox = rest ∧
    s'.sent = s.sent ++ (h.serveAll (config.refusal X) taken).1 ∧
    Serving X config s' w' (h.serveAll (config.refusal X) taken).2 ∧
    AdmissibleRun X env (batchedOps config.batchMaxRecords config.batchMaxBytes patterns rest)
      s'.log w'

/-- A wake-up for a command that is handled alone. -/
theorem recv_alone (hX : X.Lawful) (hEnv : env.Quiet) (hs : Serving X config s w h)
    {first : PartitionCommand} {inbox : List PartitionCommand} (hInbox : s.inbox = first :: inbox)
    {op : LogOp} (hFirst : first.op = some op) {ready : List Bool} {patterns : List (List Bool)}
    (hProcess : processWithBatching X ready first = handleSingleCommand X first)
    (hOps : AdmissibleRun X env (op :: batchedOps config.batchMaxRecords config.batchMaxBytes
      patterns inbox) s.log w) :
    TurnServed X env config s w h (.recv ready) patterns := by
  obtain ⟨s', w', hRun, hServed⟩ := handleSingleCommand_serves (s := { s with inbox := inbox })
    hX hEnv ⟨hs.refines, hs.sameConfig, hs.noFault, hs.hwm⟩ hFirst hOps.1
  have hRest := hOps.2
  refine ⟨[first], inbox, s', w', hInbox, by simp, ?_, hServed.inbox, ?_, ?_, ?_⟩
  · rw [run_recv_cons hInbox, hProcess, hRun]
  · rw [History.serveAll_singleton]
    exact hServed.sent
  · rw [History.serveAll_singleton]
    exact hServed.serving
  · rw [hServed.log, hServed.world]
    exact hRest

theorem recv_serves (hX : X.Lawful) (hEnv : env.Quiet) (hs : Serving X config s w h)
    (hPlain : ∀ c ∈ s.inbox, c.op.isSome) {ready : List Bool} {patterns : List (List Bool)}
    (hOps : AdmissibleRun X env (batchedOps config.batchMaxRecords config.batchMaxBytes
      (ready :: patterns) s.inbox) s.log w) :
    TurnServed X env config s w h (.recv ready) patterns := by
  cases hInbox : s.inbox with
  | nil =>
    have hNone : batchedOps config.batchMaxRecords config.batchMaxBytes patterns [] = [] := by
      cases patterns <;> rfl
    refine ⟨[], [], s, w, hInbox, fun hNe => absurd hInbox hNe, run_recv_nil hInbox ready, hInbox,
      by simp [History.serveAll], hs, ?_⟩
    rw [hNone]
    trivial
  | cons first inbox =>
    rw [hInbox] at hOps hPlain
    cases first with
    | append r t =>
      obtain ⟨hLen, hPrefix, hSplit⟩ := drainAppends_split config.batchMaxRecords
        config.batchMaxBytes ready inbox [r] [t] r.wireSize rfl
      rw [batchedOps] at hOps
      generalize hDrained : drainAppends config.batchMaxRecords config.batchMaxBytes ready inbox
        [r] [t] r.wireSize = drained at hLen hPrefix hSplit hOps
      have hNe : drained.records ≠ [] := by
        intro hNil
        rw [hNil] at hPrefix
        simp at hPrefix
      have hOther : ∀ c ∈ drained.other, c.op.isSome := by
        intro c hc
        apply hPlain c
        change c ∈ List.zipWith .append [r] [t] ++ inbox
        rw [← hSplit]
        exact List.mem_append_left _ (List.mem_append_right _ (Option.mem_toList.mpr hc))
      obtain ⟨s', w', hRun, hRest, hSent, hs', hOps'⟩ :=
        flushDrained_serves (s := { s with inbox := drained.inbox }) hX hEnv
          ⟨hs.refines, hs.sameConfig, hs.noFault, hs.hwm⟩ hNe hLen hOther hOps
      refine ⟨_, drained.inbox, s', w', ?_, ?_, ?_, hRest, hSent, hs', hOps'⟩
      · rw [hInbox, hSplit]
        rfl
      · intro _ hNil
        have hZip := (List.append_eq_nil_iff.mp hNil).1
        rw [List.zipWith_eq_nil_iff] at hZip
        rcases hZip with hZip | hZip
        · exact hNe hZip
        · rw [hZip, List.length_nil] at hLen
          exact hNe (List.eq_nil_of_length_eq_zero hLen)
      · rw [← hs.sameConfig] at hDrained
        rw [run_recv_cons hInbox]
        exact (run_process_append hDrained).trans hRun
    | appendBatch rs t => exact recv_alone hX hEnv hs hInbox rfl rfl hOps
    | readAt offset t => exact recv_alone hX hEnv hs hInbox rfl rfl hOps
    | sync t => exact recv_alone hX hEnv hs hInbox rfl rfl hOps
    | poison => exact absurd (hPlain _ List.mem_cons_self) (by simp [PartitionCommand.op])
    | failNextAppend kind =>
      exact absurd (hPlain _ List.mem_cons_self) (by simp [PartitionCommand.op])

/-- The run lemma: the loop answers its whole inbox as the list does, however the commands are
spread over the wake-ups. -/
theorem writerLoop_serves (hX : X.Lawful) (hEnv : env.Quiet) (hs : Serving X config s w h)
    (hPlain : ∀ c ∈ s.inbox, c.op.isSome) {patterns : List (List Bool)}
    (hEnough : s.inbox.length ≤ patterns.length)
    (hOps : AdmissibleRun X env (batchedOps config.batchMaxRecords config.batchMaxBytes patterns
      s.inbox) s.log w) :
    ∃ s' w', writerLoop X (patterns.map .recv) env s w = (.ok (), s', w') ∧ s'.inbox = [] ∧
      s'.sent = s.sent ++ (h.serveAll (config.refusal X) s.inbox).1 ∧
      Serving X config s' w' (h.serveAll (config.refusal X) s.inbox).2 := by
  induction patterns generalizing s w h with
  | nil =>
    have hNil : s.inbox = [] := List.eq_nil_of_length_eq_zero (Nat.le_zero.mp hEnough)
    refine ⟨s, w, rfl, hNil, ?_, ?_⟩
    · rw [hNil]
      simp [History.serveAll]
    · rw [hNil]
      exact hs
  | cons ready patterns ih =>
    obtain ⟨taken, rest, s₁, w₁, hSplit, hNe, hTurn, hInbox, hSent, hs₁, hOps₁⟩ :=
      recv_serves hX hEnv hs hPlain hOps
    have hLen : rest.length ≤ patterns.length := by
      rw [hSplit, List.length_append, List.length_cons] at hEnough
      by_cases hEmpty : s.inbox = []
      · rw [hEmpty] at hSplit
        rw [(List.append_eq_nil_iff.mp hSplit.symm).2]
        exact Nat.zero_le _
      · have := List.length_pos_of_ne_nil (hNe hEmpty)
        omega
    rw [← hInbox] at hLen hOps₁
    obtain ⟨s₂, w₂, hRun, hDone, hSent₂, hs₂⟩ := ih hs₁
      (fun c hc => hPlain c (by rw [hSplit, ← hInbox]; exact List.mem_append_right _ hc)) hLen hOps₁
    refine ⟨s₂, w₂, ?_, hDone, ?_, ?_⟩
    · rw [List.map_cons, writerLoop, Fx.run_bind hTurn, hRun]
    · rw [hSent₂, hSent, hSplit, History.serveAll_append, ← hInbox, List.append_assoc]
    · rw [hSplit, History.serveAll_append, ← hInbox]
      exact hs₂

end PartitionWriter

/-! ## What the answers say -/

/-- The records a command wants to append. -/
def PartitionCommand.records (command : PartitionCommand) : List Record :=
  command.op.elim [] LogOp.records

/-- The records that commands append, if the codec is linked. -/
def acceptedRecords (refusal : Option KafkoError) (commands : List PartitionCommand) :
    List Record :=
  if refusal.isNone then commands.flatMap PartitionCommand.records else []

/-- The offsets handed out by replies, in the order they were sent. -/
def offsetsSent (sent : List (Nat × Except KafkoError Reply)) : List Nat :=
  sent.flatMap fun
    | (_, .ok reply) => reply.given
    | (_, .error _) => []

/-- The channel a command is answered on. -/
def PartitionCommand.channel : PartitionCommand → Option Nat
  | append _ reply => some reply
  | appendBatch _ reply => some reply
  | readAt _ reply => some reply
  | sync reply => some reply
  | poison => none
  | failNextAppend _ => none

namespace History

variable {refusal : Option KafkoError} {h : History Record}

theorem append_nil (h : History Record) : h.append [] = h := by
  simp [append]

theorem append_append (h : History Record) (rs rs' : List Record) :
    (h.append rs).append rs' = h.append (rs ++ rs') := by
  simp [append]

theorem serve_history (command : PartitionCommand) :
    (h.serve refusal command).2 = h.append (acceptedRecords refusal [command]) := by
  unfold acceptedRecords
  cases command with
  | append r t => cases refusal <;> simp [serve, PartitionCommand.records, PartitionCommand.op,
      LogOp.records, append_nil]
  | appendBatch rs t =>
    cases rs with
    | nil => cases refusal <;> simp [serve, PartitionCommand.records, PartitionCommand.op,
        LogOp.records, append_nil]
    | cons r rs => cases refusal <;> simp [serve, PartitionCommand.records, PartitionCommand.op,
        LogOp.records, append_nil]
  | _ => cases refusal <;> simp [serve, PartitionCommand.records, PartitionCommand.op,
      LogOp.records, append_nil]

theorem acceptedRecords_cons (command : PartitionCommand) (commands : List PartitionCommand) :
    acceptedRecords refusal (command :: commands) =
      acceptedRecords refusal [command] ++ acceptedRecords refusal commands := by
  unfold acceptedRecords
  cases refusal <;> simp

theorem serve_offsets (command : PartitionCommand) :
    offsetsSent (h.serve refusal command).1 =
      List.range' h.next (acceptedRecords refusal [command]).length := by
  unfold acceptedRecords
  cases command with
  | appendBatch rs t =>
    cases rs with
    | nil => cases refusal <;> simp [serve, offsetsSent, Reply.given, PartitionCommand.records,
        PartitionCommand.op, LogOp.records]
    | cons r rs => cases refusal <;> simp [serve, offsetsSent, Reply.given,
        PartitionCommand.records, PartitionCommand.op, LogOp.records]
  | _ => cases refusal <;> simp [serve, offsetsSent, Reply.given, PartitionCommand.records,
      PartitionCommand.op, LogOp.records]

/-- The offsets handed out continue the log without a gap. -/
theorem serveAll_offsets (commands : List PartitionCommand) :
    offsetsSent (h.serveAll refusal commands).1 =
      List.range' h.next (acceptedRecords refusal commands).length := by
  induction commands generalizing h with
  | nil =>
    have hNone : acceptedRecords refusal [] = [] := by cases refusal <;> rfl
    rw [hNone]
    rfl
  | cons command commands ih =>
    rw [acceptedRecords_cons, List.length_append, ← List.range'_append_1, ← serve_offsets,
      ← next_append, ← serve_history, ← ih]
    simp [serveAll, offsetsSent]

theorem serve_channel (refusal : Option KafkoError) (h : History Record)
    {command : PartitionCommand} (hPlain : command.op.isSome) :
    ∃ reply result, command.channel = some reply ∧
      (h.serve refusal command).1 = [(reply, result)] := by
  cases command with
  | append r t => cases refusal <;> exact ⟨t, _, rfl, rfl⟩
  | appendBatch rs t =>
    cases rs with
    | nil => exact ⟨t, _, rfl, rfl⟩
    | cons r rs => cases refusal <;> exact ⟨t, _, rfl, rfl⟩
  | readAt offset t => exact ⟨t, _, rfl, rfl⟩
  | sync t => exact ⟨t, _, rfl, rfl⟩
  | poison => cases hPlain
  | failNextAppend kind => cases hPlain

theorem serveAll_channels {commands : List PartitionCommand}
    (hPlain : ∀ c ∈ commands, c.op.isSome) :
    (h.serveAll refusal commands).1.map Prod.fst =
      commands.filterMap PartitionCommand.channel := by
  induction commands generalizing h with
  | nil => rfl
  | cons first commands ih =>
    obtain ⟨reply, result, hChannel, hFirst⟩ := serve_channel refusal h
      (hPlain first List.mem_cons_self)
    have hRest := ih (h := (h.serve refusal first).2)
      (fun c hc => hPlain c (List.mem_cons_of_mem _ hc))
    rw [List.filterMap_cons_some hChannel, ← hRest, serveAll, hFirst]
    rfl

/-- Every command gets one answer, in the order of the inbox, from the state its predecessors
left. -/
theorem serveAll_at {commands : List PartitionCommand} (hPlain : ∀ c ∈ commands, c.op.isSome)
    {i : Nat} {command : PartitionCommand} (hi : commands[i]? = some command) :
    (h.serveAll refusal commands).1[i]? =
      ((h.append (acceptedRecords refusal (commands.take i))).serve refusal command).1[0]? := by
  induction commands generalizing h i with
  | nil => cases hi
  | cons first commands ih =>
    obtain ⟨reply, result, -, hFirst⟩ := serve_channel refusal h
      (hPlain first List.mem_cons_self)
    have hNone : acceptedRecords refusal [] = [] := by cases refusal <;> rfl
    cases i with
    | zero =>
      obtain rfl := Option.some.inj hi
      rw [List.take_zero, hNone, append_nil, serveAll, hFirst]
      rfl
    | succ i =>
      have hRest := ih (h := (h.serve refusal first).2) (i := i)
        (fun c hc => hPlain c (List.mem_cons_of_mem _ hc)) (by simpa using hi)
      rw [serve_history, append_append, ← acceptedRecords_cons] at hRest
      rw [List.take_succ_cons, ← hRest, serveAll, hFirst, serve_history]
      simp

end History

/-- Batching can not be observed: however the commands of an inbox are spread over the wake-ups
of the writer and whatever the limits are, every reply, the published high-water mark and the
records of the log are those of a writer that takes one command at a time. Offsets are handed
out in arrival order without a gap, and a read sees exactly the appends queued before it. -/
theorem batching_is_invisible {X : Crates} {log : Log} {w : World FileName} {rs : List Record}
    (hX : X.Lawful) (hReach : Reached X log w rs) (commands : List PartitionCommand)
    (hPlain : ∀ c ∈ commands, c.op.isSome) (patterns : List (List Bool))
    (hEnough : commands.length ≤ patterns.length) {env env' : Env FileName} (hEnv : env.Quiet)
    (hEnv' : env'.Quiet)
    (hBatched : AdmissibleRun X env (batchedOps log.config.batchMaxRecords
      log.config.batchMaxBytes patterns commands) log w)
    (hSingle : AdmissibleRun X env' (singleOps commands) log w) :
    ∃ batched w₁ single w₂,
      PartitionWriter.writerLoop X (patterns.map .recv) env (.start log commands) w =
        (.ok (), batched, w₁) ∧
      PartitionWriter.handleEach X commands env' (.start log []) w = (.ok (), single, w₂) ∧
      batched.inbox = [] ∧ batched.sent = single.sent ∧ batched.hwm = single.hwm ∧
      batched.log.nextOffset = single.log.nextOffset ∧
      batched.log.oldestBase = single.log.oldestBase ∧
      (∀ env₁ env₂, env₁.Quiet → env₂.Quiet → ∀ offset,
        (Log.readRecordAt X offset env₁ batched.log w₁).1 =
          (Log.readRecordAt X offset env₂ single.log w₂).1) ∧
      offsetsSent batched.sent = List.range' rs.length
        (acceptedRecords (log.config.refusal X) commands).length ∧
      batched.sent.map Prod.fst = commands.filterMap PartitionCommand.channel ∧
      ∀ i offset reply : Nat, commands[i]? = some (PartitionCommand.readAt offset reply) →
        batched.sent[i]? = some (reply, Except.ok (Reply.record (if log.oldestBase ≤ offset
          then (rs ++ acceptedRecords (log.config.refusal X) (commands.take i))[offset]?
          else none))) := by
  obtain ⟨oldest, n, hRef⟩ := hReach.refines hX
  have hStart : ∀ inbox, Serving X log.config (.start log inbox) w ⟨rs, oldest⟩ := fun inbox =>
    ⟨⟨n, hRef⟩, rfl, rfl, hRef.nextOffset⟩
  obtain ⟨batched, w₁, hLoop, hDone, hSent₁, hServing₁⟩ :=
    PartitionWriter.writerLoop_serves hX hEnv (hStart commands) hPlain hEnough hBatched
  obtain ⟨single, w₂, hEach, hSent₂, hServing₂⟩ :=
    PartitionWriter.handleEach_serves hX hEnv' (hStart []) hPlain hSingle
  have hInbox : (PartitionWriter.start log commands).inbox = commands := rfl
  rw [hInbox] at hSent₁ hServing₁
  obtain ⟨n₁, hRef₁⟩ := hServing₁.refines
  obtain ⟨n₂, hRef₂⟩ := hServing₂.refines
  have hSent : batched.sent = ((⟨rs, oldest⟩ : History Record).serveAll
      (log.config.refusal X) commands).1 := hSent₁
  refine ⟨batched, w₁, single, w₂, hLoop, hEach, hDone, hSent₁.trans hSent₂.symm, ?_, ?_, ?_, ?_,
    ?_, ?_, ?_⟩
  · rw [hServing₁.hwm, hServing₂.hwm]
  · rw [hRef₁.nextOffset, hRef₂.nextOffset]
  · rw [hRef₁.oldestBase, hRef₂.oldestBase]
  · intro env₁ env₂ hQuiet₁ hQuiet₂ offset
    obtain ⟨_, _, hRead₁, -⟩ := read_quiet hQuiet₁ hRef₁ offset
    obtain ⟨_, _, hRead₂, -⟩ := read_quiet hQuiet₂ hRef₂ offset
    rw [hRead₁, hRead₂]
  · rw [hSent]
    exact History.serveAll_offsets commands
  · rw [hSent]
    exact History.serveAll_channels hPlain
  · intro i offset reply hi
    rw [hSent, History.serveAll_at hPlain hi, hRef.oldestBase]
    rfl

/-- Five commands, three of them taken in one wake-up. -/
def sampleInbox : List PartitionCommand :=
  [.append (sampleRecord 1) 0, .append (sampleRecord 2) 1, .readAt 1 2, .append (sampleRecord 3) 3,
    .sync 4]

theorem batching_is_invisible_sampleInbox :
    ∃ log w batched w₁ single w₂, Reached Crates.uncompressed log w [] ∧
      PartitionWriter.writerLoop Crates.uncompressed
        ([[true, true], [true], [], [], []].map .recv) Env.quiet (.start log sampleInbox) w =
          (.ok (), batched, w₁) ∧
      PartitionWriter.handleEach Crates.uncompressed sampleInbox Env.quiet (.start log []) w =
        (.ok (), single, w₂) ∧
      batched.sent = single.sent ∧ offsetsSent batched.sent = [0, 1, 2] ∧
      batched.sent[2]? = some (2, .ok (.record (some (sampleRecord 2)))) := by
  have hNew := @Reached.created Crates.uncompressed Env.quiet smallSegments _ ⟨Store.empty, 0⟩ _
    Env.quiet_quiet (fun name => Store.get_empty name) rfl
  obtain ⟨batched, w₁, single, w₂, hLoop, hEach, -, hSent, -, -, -, -, hOffsets, -, hReads⟩ :=
    batching_is_invisible Crates.lawful_uncompressed hNew sampleInbox (by decide)
      [[true, true], [true], [], [], []] (by decide) Env.quiet_quiet Env.quiet_quiet
      (by decide +kernel) (by decide +kernel)
  exact ⟨_, _, batched, w₁, single, w₂, hNew, hLoop, hEach, hSent, hOffsets,
    hReads 2 1 2 rfl⟩

end Kafko
