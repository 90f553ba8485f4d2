import Kafko.Broker.Pages
import Kafko.Partition.Answers
import Kafko.Systems.Linear
import Kafko.Topic.Serving

/-!
# Wake-ups over pages

What a wake-up of the writer does to the page of its partition. The commands it takes are
answered one after the other, appends that are written with one call too; if the machine stops in
the wake-up, the page is as some first part of them would have left it (`takeTurn_page`).
-/

namespace Kafko

open Disk Systems

/-- A page as an object that is asked one command at a time. Whatever fails leaves the list as it
is, and everything may become durable on the way. It changes by itself when old segments expire,
and what shows is the offset from which on its records are left. -/
def pageObject : Object Page PartitionCommand (Except KafkoError Reply) Nat where
  answers p command answer p' :=
    match answer with
    | .error _ => p'.history = p.history ∧ p'.torn = p.torn ∧
        (p'.durable = p.durable ∨ p'.durable = p.history.next)
    | .ok reply => ∃ op, command.op = some op ∧ p.Answers op (.ok reply) p'
  moves p oldest p' := p.history.oldest ≤ oldest ∧ p'.history = p.history.retire oldest ∧
    p'.torn = p.torn ∧ (p'.durable = p.durable ∨ p'.durable = p.history.next)

/-- A command with the answer to it. -/
abbrev AnsweredCall := Systems.Served Nat PartitionCommand (Except KafkoError Reply)

/-- A command that was answered, or the end of a retention tick. -/
abbrev PageDeed := Systems.Deed Nat PartitionCommand (Except KafkoError Reply) Nat

/-- The call a command belongs to. -/
def callOf (command : PartitionCommand) : Nat × PartitionCommand :=
  (command.channel.getD 0, command)

theorem callOf_eq {command : PartitionCommand} {id : Nat} (h : command.channel = some id) :
    callOf command = (id, command) := by
  rw [callOf, h, Option.getD_some]

/-! ## One operation, one or many commands -/

namespace Page

variable {p p' : Page} {op : LogOp} {command : PartitionCommand} {rs : List Record}
  {ts : List Nat} {id : Nat}

theorem one_answer {answer : Except KafkoError Reply}
    (h : pageObject.answers p command answer p') :
    pageObject.Serves p [⟨id, command, answer⟩] p' := .one h

/-- An operation that failed has changed nothing that can be read. -/
theorem Answers.refused {e : KafkoError} (h : p.Answers op (.err e) p')
    (hOp : op ≠ .applyRetention) :
    p'.history = p.history ∧ p'.torn = p.torn ∧
      (p'.durable = p.durable ∨ p'.durable = p.history.next) := by
  cases h with
  | rejected hRejects hDurable =>
    cases hRejects with
    | unchanged => exact ⟨rfl, rfl, hDurable⟩
    | retain _ _ _ => exact absurd rfl hOp

/-- An operation the machine has stopped in may count as carried out. -/
theorem Answers.cut (h : p.Answers op .crash p') (hOp : op ≠ .applyRetention) :
    p'.history = p.history.append op.records ∧ p'.torn = p.torn ∧
      (p'.durable = p.durable ∨ p'.durable = p.history.next) := by
  cases h with
  | @interrupted h n hRecords _ hRetained hDurable =>
    refine ⟨?_, rfl, hDurable⟩
    have hOldest := hRetained hOp
    cases h
    simp only [History.append] at *
    rw [hRecords, hOldest]

theorem Answers.cut_answer (h : p.Answers op .crash p') (hOp : command.op = some op) :
    ∃ answer, pageObject.answers p command answer p' := by
  obtain ⟨h', n, torn⟩ := p'
  cases command with
  | append r t =>
    obtain rfl : LogOp.append r = op := Option.some.inj hOp
    obtain ⟨rfl, rfl, hDurable⟩ := h.cut (by simp)
    exact ⟨.ok _, _, rfl, .accepted (.append r) hDurable (by simp)⟩
  | appendBatch rs t =>
    obtain rfl : LogOp.appendBatch rs = op := Option.some.inj hOp
    obtain ⟨rfl, rfl, hDurable⟩ := h.cut (by simp)
    exact ⟨.ok _, _, rfl, .accepted (.appendBatch rs) hDurable (by simp)⟩
  | readAt offset t =>
    obtain rfl : LogOp.readRecordAt offset = op := Option.some.inj hOp
    obtain ⟨hSame, hRest⟩ := h.cut (by simp)
    exact ⟨.error .closed, hSame.trans (History.append_nil _), hRest⟩
  | sync t =>
    obtain rfl : LogOp.sync = op := Option.some.inj hOp
    obtain ⟨hSame, hRest⟩ := h.cut (by simp)
    exact ⟨.error .closed, hSame.trans (History.append_nil _), hRest⟩
  | poison => cases hOp
  | failNextAppend kind => cases hOp

/-- However a retention pass ends, it has retired a first part of the records. -/
theorem Answers.expires {r : Res KafkoError Reply} (h : p.Answers .applyRetention r p') :
    pageObject.moves p p'.history.oldest p' := by
  cases h with
  | accepted hAccepts hDurable =>
    cases hAccepts with
    | retain _ _ hLe _ => exact ⟨hLe, rfl, rfl, hDurable⟩
  | rejected hRejects hDurable =>
    cases hRejects with
    | unchanged => exact ⟨Nat.le_refl _, rfl, rfl, hDurable⟩
    | retain _ hLe _ => exact ⟨hLe, rfl, rfl, hDurable⟩
  | @interrupted h n hRecords hOldest _ hDurable =>
    refine ⟨hOldest, ?_, rfl, hDurable⟩
    obtain ⟨records, oldest⟩ := h
    obtain rfl : records = p.history.records := by simpa [LogOp.records] using hRecords
    rfl

/-- Appends that are answered with consecutive offsets. -/
def appendOps : (next : Nat) → List Record → List Nat → List AnsweredCall
  | next, r :: rs, t :: ts =>
    ⟨t, .append r t, .ok (.offset next)⟩ :: appendOps (next + 1) rs ts
  | _, _, _ => []

/-- Appends that fail together. -/
def refusedOps (e : KafkoError) (rs : List Record) (ts : List Nat) : List AnsweredCall :=
  List.zipWith (fun r t => ⟨t, .append r t, .error e⟩) rs ts

theorem appendOps_calls (next : Nat) (rs : List Record) (ts : List Nat) :
    (List.zipWith PartitionCommand.append rs ts).map callOf =
      (appendOps next rs ts).map fun op => (op.id, op.call) := by
  induction rs generalizing next ts with
  | nil => rfl
  | cons r rs ih =>
    cases ts with
    | nil => rfl
    | cons t ts =>
      rw [List.zipWith_cons_cons, appendOps, List.map_cons, List.map_cons, ih (next + 1)]
      rfl

theorem appendOps_answers (next : Nat) (hLen : rs.length = ts.length) :
    (appendOps next rs ts).map (fun op => (op.id, op.answer)) =
      ((List.range' next rs.length).zip ts).map
        fun (offset, reply) => (reply, .ok (.offset offset)) := by
  induction rs generalizing next ts with
  | nil => rfl
  | cons r rs ih =>
    obtain ⟨t, ts, rfl⟩ := List.exists_cons_of_length_eq_add_one hLen.symm
    have hRest := ih (next + 1) (show rs.length = ts.length by simpa using hLen)
    rw [appendOps, List.map_cons, hRest, List.length_cons, List.range'_succ, List.zip_cons_cons,
      List.map_cons]

theorem refusedOps_calls (e : KafkoError) (rs : List Record) (ts : List Nat) :
    (List.zipWith PartitionCommand.append rs ts).map callOf =
      (refusedOps e rs ts).map fun op => (op.id, op.call) := by
  rw [refusedOps, List.map_zipWith, List.map_zipWith]
  rfl

theorem refusedOps_answers (e : KafkoError) (hLen : rs.length = ts.length) :
    (refusedOps e rs ts).map (fun op => (op.id, op.answer)) =
      ts.map fun reply => (reply, .error e) := by
  rw [refusedOps, List.map_zipWith]
  induction rs generalizing ts with
  | nil =>
    obtain rfl := List.length_eq_zero_iff.mp hLen.symm
    rfl
  | cons r rs ih =>
    obtain ⟨t, ts, rfl⟩ := List.exists_cons_of_length_eq_add_one hLen.symm
    rw [List.zipWith_cons_cons, List.map_cons, ih (by simpa using hLen)]

theorem sequential_appendOps (h : History Record) (n : Nat) (torn : Bool)
    (hLen : rs.length = ts.length) :
    pageObject.Serves ⟨h, n, torn⟩ (appendOps h.next rs ts) ⟨h.append rs, n, torn⟩ := by
  induction rs generalizing h ts with
  | nil =>
    rw [History.append_nil]
    exact .nil _
  | cons r rs ih =>
    obtain ⟨t, ts, rfl⟩ := List.exists_cons_of_length_eq_add_one hLen.symm
    have hFirst : pageObject.Serves ⟨h, n, torn⟩
        [⟨t, .append r t, .ok (.offset h.next)⟩] ⟨h.append [r], n, torn⟩ :=
      one_answer ⟨_, rfl, .accepted (.append r) (Or.inl rfl) (by simp)⟩
    have hRest := ih (h.append [r]) (show rs.length = ts.length by simpa using hLen)
    rw [History.append_append, History.next_append] at hRest
    exact hFirst.append hRest

/-- A batch is as good as its records one by one; the first of them makes durable what the batch
makes durable. -/
theorem sequential_batch (hNe : rs ≠ []) (hLen : rs.length = ts.length)
    (hAppended : p'.history = p.history.append rs) (hTorn : p'.torn = p.torn)
    (hDurable : p'.durable = p.durable ∨ p'.durable = p.history.next) :
    pageObject.Serves p (appendOps p.history.next rs ts) p' := by
  obtain ⟨h', n', torn'⟩ := p'
  obtain ⟨r, rs, rfl⟩ := List.exists_cons_of_ne_nil hNe
  obtain ⟨t, ts, rfl⟩ := List.exists_cons_of_length_eq_add_one hLen.symm
  dsimp only at hAppended hTorn hDurable
  subst hAppended hTorn
  have hFirst : pageObject.Serves p [⟨t, .append r t, .ok (.offset p.history.next)⟩]
      ⟨p.history.append [r], n', p.torn⟩ :=
    one_answer ⟨_, rfl, .accepted (.append r) hDurable (by simp)⟩
  have hRest := sequential_appendOps (p.history.append [r]) n' p.torn
    (show rs.length = ts.length by simpa using hLen)
  rw [History.append_append, History.next_append] at hRest
  exact hFirst.append hRest

theorem sequential_refused (e : KafkoError) (hNe : rs ≠ []) (hLen : rs.length = ts.length)
    (hRefused : p'.history = p.history ∧ p'.torn = p.torn ∧
      (p'.durable = p.durable ∨ p'.durable = p.history.next)) :
    pageObject.Serves p (refusedOps e rs ts) p' := by
  obtain ⟨r, rs, rfl⟩ := List.exists_cons_of_ne_nil hNe
  obtain ⟨t, ts, rfl⟩ := List.exists_cons_of_length_eq_add_one hLen.symm
  have hRest : ∀ (q : Page) (rs : List Record) (ts : List Nat),
      pageObject.Serves q (refusedOps e rs ts) q := by
    intro q rs
    induction rs with
    | nil => exact fun ts => .nil q
    | cons r rs ih =>
      intro ts
      cases ts with
      | nil => exact .nil q
      | cons t ts =>
        have hOne : pageObject.Serves q [⟨t, .append r t, .error e⟩] q :=
          one_answer ⟨rfl, rfl, Or.inl rfl⟩
        exact hOne.append (ih ts)
  have hFirst : pageObject.Serves p [⟨t, .append r t, .error e⟩] p' := one_answer hRefused
  exact hFirst.append (hRest p' rs ts)

end Page

/-! ## The writer over its page -/

/-- The commands were answered one after the other. -/
structure Page.Serves (X : Crates) (p : Page) (s : PartitionWriter)
    (commands : List PartitionCommand) (s' : PartitionWriter) (w' : World FileName)
    (ops : List AnsweredCall) (p' : Page) : Prop where
  calls : commands.map callOf = ops.map fun op => (op.id, op.call)
  sequential : pageObject.Serves p ops p'
  inbox : s'.inbox = s.inbox
  sent : s'.sent = s.sent ++ ops.map fun op => (op.id, op.answer)
  stored : p'.Stored X (some s'.log) w'.store

/-- The machine has stopped after some of the commands. -/
structure Page.Stops (X : Crates) (p : Page) (commands : List PartitionCommand)
    (d : Store FileName) (ops : List AnsweredCall) (p' : Page) : Prop where
  calls : (ops.map fun op => (op.id, op.call)) <+: commands.map callOf
  sequential : pageObject.Serves p ops p'
  left : p'.Left X d

def Page.servesPost (X : Crates) (p : Page) (s : PartitionWriter)
    (commands : List PartitionCommand) : Post FileName KafkoError PartitionWriter Unit where
  ok := fun _ s' w' => ∃ ops p', Page.Serves X p s commands s' w' ops p'
  err := fun _ _ _ => False
  panic := fun _ _ _ => False
  crash := fun _ w' => ∃ ops p', Page.Stops X p commands w'.store ops p'

namespace PartitionWriter

variable {X : Crates} {env : Env FileName} {s s' : PartitionWriter} {w w' : World FileName}
  {p p' : Page} {α : Type} {command : PartitionCommand} {id : Nat} {rs : List Record}
  {ts : List Nat}

/-- The results of an operation on a page, in the words of the function that carries it out. -/
def opPost (X : Crates) (p : Page) (op : LogOp) (f : α → Reply) :
    Post FileName KafkoError Log α where
  ok := fun a log' w' => ∃ p', p.Answers op (.ok (f a)) p' ∧ p'.Stored X (some log') w'.store
  err := fun e log' w' => ∃ p', p.Answers op (.err e) p' ∧ p'.Stored X (some log') w'.store
  panic := fun _ _ _ => False
  crash := fun _ w' => ∃ p', p.Answers op .crash p' ∧ p'.Left X w'.store

/-- A call of the log through its specification. -/
theorem wp_onLog_page {m : LogIO Log α} {k : Except KafkoError α → LogIO PartitionWriter Unit}
    {op : LogOp} {f : α → Reply} {Q : Post FileName KafkoError PartitionWriter Unit}
    (hm : wp env m (opPost X p op f) s.log w)
    (hOk : ∀ a log' w' p', p.Answers op (.ok (f a)) p' → p'.Stored X (some log') w'.store →
      wp env (k (.ok a)) Q { s with log := log' } w')
    (hErr : ∀ e log' w' p', p.Answers op (.err e) p' → p'.Stored X (some log') w'.store →
      wp env (k (.error e)) Q { s with log := log' } w')
    (hCrash : ∀ s' w' p', p.Answers op .crash p' → p'.Left X w'.store → Q.crash s' w') :
    wp env (Fx.attempt (onLog m) >>= k) Q s w := by
  rw [wp_bind, wp_attempt, onLog, wp_zoom]
  refine wp_mono hm ?_ ?_ (fun _ _ _ hF => hF.elim) ?_
  · rintro a log' w' ⟨p', hAnswers, hStored⟩
    exact hOk a log' w' p' hAnswers hStored
  · rintro e log' w' ⟨p', hAnswers, hStored⟩
    exact hErr e log' w' p' hAnswers hStored
  · rintro log' w' ⟨p', hAnswers, hLeft⟩
    exact hCrash _ w' p' hAnswers hLeft

theorem wp_takeFailNextKind_page {k : Option ErrorKind → LogIO PartitionWriter Unit}
    {Q : Post FileName KafkoError PartitionWriter Unit}
    (hNext : ∀ kind, wp env (k kind) Q { s with failNextKind := none } w) :
    wp env (takeFailNextKind >>= k) Q s w := hNext s.failNextKind

/-- One command with its answer. -/
theorem serves_single (answer : Except KafkoError Reply) (hChannel : command.channel = some id)
    (hAnswer : pageObject.answers p command answer p') (hInbox : s'.inbox = s.inbox)
    (hSent : s'.sent = s.sent ++ [(id, answer)]) (hStored : p'.Stored X (some s'.log) w'.store) :
    ∃ ops p', Page.Serves X p s [command] s' w' ops p' := by
  refine ⟨[⟨id, command, answer⟩], p', ?_, Page.one_answer hAnswer, hInbox, hSent, hStored⟩
  rw [List.map_singleton, callOf_eq hChannel]
  rfl

theorem stops_single {op : LogOp} (hChannel : command.channel = some id)
    (hOp : command.op = some op) (hAnswers : p.Answers op .crash p') (hLeft : p'.Left X w'.store) :
    ∃ ops p', Page.Stops X p [command] w'.store ops p' := by
  obtain ⟨answer, hAnswer⟩ := hAnswers.cut_answer hOp
  refine ⟨[⟨id, command, answer⟩], p', ?_, Page.one_answer hAnswer, hLeft⟩
  rw [List.map_singleton, List.map_singleton, callOf_eq hChannel]

theorem flushAppendBatch_page (hX : X.Lawful) (hClean : Clean env)
    (hStored : p.Stored X (some s.log) w.store) (hNe : rs ≠ []) (hLen : rs.length = ts.length)
    (hOp : LogOp.Admissible X s.log (.appendBatch rs)) :
    wp env (flushAppendBatch X rs ts)
      (Page.servesPost X p s (List.zipWith .append rs ts)) s w := by
  have hEmpty : rs.isEmpty = false := by simpa using hNe
  rw [flushAppendBatch, hEmpty]
  refine wp_takeFailNextKind_page fun kind => ?_
  cases kind with
  | some kind =>
    refine ⟨Page.refusedOps (.io kind) rs ts, p, Page.refusedOps_calls _ rs ts,
      Page.sequential_refused _ hNe hLen ⟨rfl, rfl, Or.inl rfl⟩, rfl, ?_, hStored⟩
    rw [Page.refusedOps_answers _ hLen]
  | none =>
    have hSpec : wp env (Log.appendBatch X rs) (opPost X p (.appendBatch rs) .offsets) s.log w :=
      (wp_bind _ _ _).mp (hStored.exec hX hClean hOp)
    refine wp_onLog_page hSpec ?_ ?_ ?_
    · intro offsets log' w' p' hAnswers hStored'
      obtain ⟨hAccepts, -⟩ := hAnswers.accepts
      obtain ⟨hOffsets, hAppended⟩ : offsets = List.range' p.history.next rs.length ∧
          p'.history = p.history.append rs := by
        generalize hReply : Reply.offsets offsets = reply at hAccepts
        generalize p'.history = h' at hAccepts ⊢
        cases hAccepts
        exact ⟨Reply.offsets.inj hReply, rfl⟩
      subst hOffsets
      dsimp only
      rw [getLast?_offsets hNe]
      refine ⟨Page.appendOps p.history.next rs ts, p', Page.appendOps_calls _ rs ts,
        Page.sequential_batch hNe hLen hAppended hAnswers.torn hAnswers.durable, rfl, ?_, hStored'⟩
      rw [Page.appendOps_answers _ hLen]
    · intro e log' w' p' hAnswers hStored'
      refine ⟨Page.refusedOps e rs ts, p', Page.refusedOps_calls _ rs ts,
        Page.sequential_refused _ hNe hLen (hAnswers.refused (by simp)), rfl, ?_, hStored'⟩
      rw [Page.refusedOps_answers _ hLen]
    · intro s' w' p' hAnswers hLeft
      obtain ⟨hAppended, hTorn, hDurable⟩ := hAnswers.cut (by simp)
      refine ⟨Page.appendOps p.history.next rs ts, p', ?_,
        Page.sequential_batch hNe hLen hAppended hTorn hDurable, hLeft⟩
      rw [Page.appendOps_calls p.history.next]

theorem handleSingleCommand_page (hX : X.Lawful) (hClean : Clean env)
    (hStored : p.Stored X (some s.log) w.store) (hChannel : command.channel = some id)
    (hOp : ∀ op, command.op = some op → op.Admissible X s.log) :
    wp env (handleSingleCommand X command) (Page.servesPost X p s [command]) s w := by
  cases command with
  | append r t =>
    refine wp_takeFailNextKind_page fun kind => ?_
    cases kind with
    | some kind =>
      exact serves_single (.error (.io kind)) rfl ⟨rfl, rfl, Or.inl rfl⟩ rfl rfl hStored
    | none =>
      have hSpec : wp env (Log.append X r) (opPost X p (.append r) .offset) s.log w :=
        (wp_bind _ _ _).mp (hStored.exec hX hClean (hOp _ rfl))
      refine wp_onLog_page hSpec ?_ ?_ ?_
      · intro offset log' w' p' hAnswers hStored'
        exact serves_single (.ok _) rfl ⟨_, rfl, hAnswers⟩ rfl rfl hStored'
      · intro e log' w' p' hAnswers hStored'
        exact serves_single (.error e) rfl (hAnswers.refused (by simp)) rfl rfl hStored'
      · exact fun s' w' p' hAnswers hLeft => stops_single rfl rfl hAnswers hLeft
  | appendBatch rs t =>
    refine wp_takeFailNextKind_page fun kind => ?_
    cases kind with
    | some kind =>
      exact serves_single (.error (.io kind)) rfl ⟨rfl, rfl, Or.inl rfl⟩ rfl rfl hStored
    | none =>
      have hSpec : wp env (Log.appendBatch X rs) (opPost X p (.appendBatch rs) .offsets) s.log w :=
        (wp_bind _ _ _).mp (hStored.exec hX hClean (hOp _ rfl))
      refine wp_onLog_page hSpec ?_ ?_ ?_
      · intro offsets log' w' p' hAnswers hStored'
        cases hLast : offsets.getLast? with
        | some last =>
          simp only [hLast]
          exact serves_single (.ok _) rfl ⟨_, rfl, hAnswers⟩ rfl rfl hStored'
        | none =>
          simp only [hLast]
          exact serves_single (.ok _) rfl ⟨_, rfl, hAnswers⟩ rfl rfl hStored'
      · intro e log' w' p' hAnswers hStored'
        exact serves_single (.error e) rfl (hAnswers.refused (by simp)) rfl rfl hStored'
      · exact fun s' w' p' hAnswers hLeft => stops_single rfl rfl hAnswers hLeft
  | readAt offset t =>
    have hSpec : wp env (Log.readRecordAt X offset) (opPost X p (.readRecordAt offset) .record)
        s.log w := (wp_bind _ _ _).mp (hStored.exec hX hClean (hOp _ rfl))
    refine wp_onLog_page hSpec ?_ ?_ ?_
    · intro record log' w' p' hAnswers hStored'
      exact serves_single (.ok _) rfl ⟨_, rfl, hAnswers⟩ rfl rfl hStored'
    · intro e log' w' p' hAnswers hStored'
      exact serves_single (.error e) rfl (hAnswers.refused (by simp)) rfl rfl hStored'
    · exact fun s' w' p' hAnswers hLeft => stops_single rfl rfl hAnswers hLeft
  | sync t =>
    have hSpec : wp env Log.sync (opPost X p .sync fun _ => .done) s.log w :=
      (wp_bind _ _ _).mp (hStored.exec hX hClean (hOp _ rfl))
    refine wp_onLog_page hSpec ?_ ?_ ?_
    · intro _ log' w' p' hAnswers hStored'
      exact serves_single (.ok _) rfl ⟨_, rfl, hAnswers⟩ rfl rfl hStored'
    · intro e log' w' p' hAnswers hStored'
      exact serves_single (.error e) rfl (hAnswers.refused (by simp)) rfl rfl hStored'
    · exact fun s' w' p' hAnswers hLeft => stops_single rfl rfl hAnswers hLeft
  | poison => cases hChannel
  | failNextAppend kind => cases hChannel

/-- The appends of one wake-up and the command that ended them. -/
theorem flushDrained_page (hX : X.Lawful) (hClean : Clean env)
    (hStored : p.Stored X (some s.log) w.store) {drained : Drained} (hNe : drained.records ≠ [])
    (hLen : drained.records.length = drained.replies.length)
    (hBatch : LogOp.Admissible X s.log (.appendBatch drained.records))
    (hOther : ∀ other, drained.other = some other → ∀ op, other.op = some op → ∀ s₁ w₁,
      flushAppendBatch X drained.records drained.replies env s w = (.ok (), s₁, w₁) →
        op.Admissible X s₁.log)
    (hChannel : ∀ other, drained.other = some other → other.channel.isSome) :
    wp env (flushDrained X drained) (Page.servesPost X p s
      (List.zipWith .append drained.records drained.replies ++ drained.other.toList)) s w := by
  have hSpec := flushAppendBatch_page hX hClean hStored hNe hLen hBatch
  rcases hFlush : flushAppendBatch X drained.records drained.replies env s w with ⟨r, s₁, w₁⟩
  have hFlushed : wp env (flushAppendBatch X drained.records drained.replies)
      { ok := fun _ s' w' => (r, s₁, w₁) = (.ok (), s', w') ∧ ∃ ops p', Page.Serves X p s
          (List.zipWith .append drained.records drained.replies) s' w' ops p'
        err := fun _ _ _ => False
        panic := fun _ _ _ => False
        crash := fun _ w' => ∃ ops p', Page.Stops X p
          (List.zipWith .append drained.records drained.replies) w'.store ops p' } s w := by
    unfold wp at hSpec ⊢
    rw [hFlush] at hSpec ⊢
    cases r with
    | ok _ => exact ⟨rfl, hSpec⟩
    | err e => exact hSpec
    | panic m => exact hSpec
    | crash => exact hSpec
  refine wp_bind_of hFlushed ?_ (fun _ _ _ hF => hF.elim) (fun _ _ _ hF => hF.elim) ?_
  · rintro _ s' w' ⟨hEnds, ops, p₁, hServes⟩
    cases hOpt : drained.other with
    | none =>
      rw [Option.toList_none, List.append_nil]
      exact ⟨ops, p₁, hServes⟩
    | some other =>
      obtain ⟨id, hId⟩ := Option.isSome_iff_exists.mp (hChannel other hOpt)
      have hLast := handleSingleCommand_page hX hClean hServes.stored hId
        (fun op hOp => hOther other hOpt op hOp s' w' (hFlush.trans hEnds))
      refine wp_mono hLast ?_ (fun _ _ _ hF => hF) (fun _ _ _ hF => hF) ?_
      · rintro _ s₂ w₂ ⟨ops', p₂, hServes'⟩
        refine ⟨ops ++ ops', p₂, ?_, hServes.sequential.append hServes'.sequential,
          hServes'.inbox.trans hServes.inbox, ?_, hServes'.stored⟩
        · rw [Option.toList_some, List.map_append, hServes.calls, hServes'.calls, List.map_append]
        · rw [hServes'.sent, hServes.sent, List.map_append, List.append_assoc]
      · rintro s₂ w₂ ⟨ops', p₂, hCalls, hSequential, hLeft⟩
        refine ⟨ops ++ ops', p₂, ?_, hServes.sequential.append hSequential, hLeft⟩
        rw [Option.toList_some, List.map_append, List.map_append, hServes.calls]
        exact (List.prefix_append_right_inj _).mpr hCalls
  · rintro s' w' ⟨ops, p', hCalls, hSequential, hLeft⟩
    refine ⟨ops, p', ?_, hSequential, hLeft⟩
    rw [List.map_append]
    exact hCalls.trans (List.prefix_append _ _)

/-- What a wake-up has done: it has answered the commands it took from the inbox, in order. -/
structure TurnServes (X : Crates) (p : Page) (s : PartitionWriter) (s' : PartitionWriter)
    (w' : World FileName) (taken : List PartitionCommand) (ops : List AnsweredCall) (p' : Page) :
    Prop where
  calls : taken.map callOf = ops.map fun op => (op.id, op.call)
  sequential : pageObject.Serves p ops p'
  inbox : s.inbox = taken ++ s'.inbox
  sent : s'.sent = s.sent ++ ops.map fun op => (op.id, op.answer)
  stored : p'.Stored X (some s'.log) w'.store

theorem takeTurn_page (hX : X.Lawful) (hClean : Clean env)
    (hStored : p.Stored X (some s.log) w.store) {ready : List Bool} (hInbox : s.inbox ≠ [])
    (hChannels : ∀ command ∈ s.inbox, command.channel.isSome)
    (hOps : AdmissibleTurn X env ready s w) :
    wp env (takeTurn X (.recv ready))
      { ok := fun _ s' w' => ∃ taken ops p', TurnServes X p s s' w' taken ops p'
        err := fun _ _ _ => False
        panic := fun _ _ _ => False
        crash := fun _ w' => ∃ ops p', Page.Stops X p s.inbox w'.store ops p' } s w := by
  obtain ⟨first, inbox, hCons⟩ := List.exists_cons_of_ne_nil hInbox
  unfold wp
  rw [run_recv_cons hCons]
  have hStored' : p.Stored X (some { s with inbox := inbox }.log) w.store := hStored
  unfold AdmissibleTurn at hOps
  rw [hCons] at hOps
  have hAlone : (∀ op, first.op = some op → op.Admissible X s.log) →
      wp env (handleSingleCommand X first)
        { ok := fun _ s' w' => ∃ taken ops p', TurnServes X p s s' w' taken ops p'
          err := fun _ _ _ => False
          panic := fun _ _ _ => False
          crash := fun _ w' => ∃ ops p', Page.Stops X p s.inbox w'.store ops p' }
        { s with inbox := inbox } w := by
    intro hOp
    obtain ⟨id, hId⟩ := Option.isSome_iff_exists.mp
      (hChannels first (by rw [hCons]; exact List.mem_cons_self))
    refine wp_mono (handleSingleCommand_page hX hClean hStored' hId hOp) ?_ (fun _ _ _ hF => hF)
      (fun _ _ _ hF => hF) ?_
    · rintro _ s' w' ⟨ops, p', hServes⟩
      refine ⟨[first], ops, p', hServes.calls, hServes.sequential, ?_, hServes.sent, hServes.stored⟩
      rw [hServes.inbox, hCons]
      rfl
    · rintro s' w' ⟨ops, p', hCalls, hSequential, hLeft⟩
      refine ⟨ops, p', hCalls.trans ?_, hSequential, hLeft⟩
      rw [hCons, List.map_cons]
      exact List.prefix_append [callOf first] _
  cases first with
  | append r t =>
    rw [run_process_append rfl]
    obtain ⟨hLen, hPrefix, hSplit⟩ := drainAppends_split s.log.config.batchMaxRecords
      s.log.config.batchMaxBytes ready inbox [r] [t] r.wireSize rfl
    dsimp only at hOps ⊢
    generalize hDrained : drainAppends s.log.config.batchMaxRecords s.log.config.batchMaxBytes ready
      inbox [r] [t] r.wireSize = drained at hLen hPrefix hSplit hOps ⊢
    have hNe : drained.records ≠ [] := by
      intro hNil
      rw [hNil] at hPrefix
      simp at hPrefix
    have hStored'' : p.Stored X (some { s with inbox := drained.inbox }.log) w.store := hStored
    have hAll : s.inbox = List.zipWith .append drained.records drained.replies ++
        drained.other.toList ++ drained.inbox := by
      rw [hCons]
      exact hSplit.symm
    have hChannel : ∀ other, drained.other = some other → other.channel.isSome := by
      intro other hOther
      apply hChannels other
      rw [hAll, hOther]
      simp
    refine wp_mono (flushDrained_page hX hClean hStored'' hNe hLen hOps.1 hOps.2 hChannel) ?_
      (fun _ _ _ hF => hF) (fun _ _ _ hF => hF) ?_
    · rintro _ s' w' ⟨ops, p', hServes⟩
      refine ⟨_, ops, p', hServes.calls, hServes.sequential, ?_, hServes.sent, hServes.stored⟩
      rw [hServes.inbox]
      exact hAll
    · rintro s' w' ⟨ops, p', hCalls, hSequential, hLeft⟩
      refine ⟨ops, p', hCalls.trans ?_, hSequential, hLeft⟩
      rw [hAll]
      exact (List.prefix_append _ _).map callOf
  | appendBatch rs t => exact hAlone hOps
  | readAt offset t => exact hAlone hOps
  | sync t => exact hAlone hOps
  | poison => exact hAlone hOps
  | failNextAppend kind => exact hAlone hOps

/-- A retention tick moves the page to where the log then begins. -/
theorem retentionTick_page (hX : X.Lawful) (hClean : Clean env)
    (hStored : p.Stored X (some s.log) w.store) :
    wp env (takeTurn X .retentionTick)
      { ok := fun _ s' w' => s'.inbox = s.inbox ∧ ∃ p', pageObject.moves p s'.log.oldestBase p' ∧
          p'.Stored X (some s'.log) w'.store
        err := fun _ _ _ => False
        panic := fun _ _ _ => False
        crash := fun _ w' => ∃ oldest p', pageObject.moves p oldest p' ∧ p'.Left X w'.store }
      s w := by
  have hOp : LogOp.Admissible X s.log .applyRetention :=
    OpenPartition.admissible_of_no_records rfl _
  have hSpec : wp env Log.applyRetention (opPost X p .applyRetention .deleted) s.log w :=
    (wp_bind _ _ _).mp (hStored.exec hX hClean hOp)
  have hMoves : ∀ {r : Res KafkoError Reply} {p' : Page} {log' : Log} {d : Store FileName},
      p.Answers .applyRetention r p' → p'.Stored X (some log') d →
      pageObject.moves p log'.oldestBase p' := by
    intro r p' log' d hAnswers hStored'
    rw [hStored'.2.oldestBase]
    exact hAnswers.expires
  rw [takeTurn]
  refine wp_onLog_page hSpec ?_ ?_ ?_
  · exact fun k log' w' p' hAnswers hStored' => ⟨rfl, p', hMoves hAnswers hStored', hStored'⟩
  · exact fun e log' w' p' hAnswers hStored' => ⟨rfl, p', hMoves hAnswers hStored', hStored'⟩
  · exact fun s' w' p' hAnswers hLeft => ⟨_, p', hAnswers.expires, hLeft⟩

end PartitionWriter

end Kafko
