import Kafko.Broker.Turns
import Kafko.Topic.Hub

/-!
# What the clients of a partition see

`partition.rs`. `Partition::append`, `append_batch`, `read_record_at` and `sync` put a command with
a reply channel into the inbox of the writer, waiting for room, and then wait on the channel. Any
number of them run at once (`PartitionCalls.Step`). The writer takes them from the inbox in runs of
appends and lets a failing file system answer with errors; for the clients it is still an object
that does one call at a time. Old segments expire at a retention tick and at no other time, and
what is readable then begins where the log begins.

A partition lives through many sessions, each between opening its log and the end of the process
(`Lives`). At the end of a session the machine may stop, also in a wake-up or while the log is
opened. Then some of the last records are gone in the next session, but none that a sync had
covered (`partition_durably_linearizable`, `synced_answers_survive`).
-/

namespace Kafko

open Disk Systems

/-- A call is made or returns, or a retention tick has left the log beginning at an offset. -/
abbrev PartitionMoment := Systems.Moment Nat PartitionCommand (Except KafkoError Reply) Nat

/-- A writer and the calls that are on their way to it and back. -/
structure PartitionCalls where
  writer : PartitionWriter
  world : World FileName
  /-- The reply channels made so far. -/
  issued : List Nat
  /-- The commands in `tx.send(..).await`. -/
  waiting : List PartitionCommand
  /-- The replies nobody has taken yet. -/
  channels : List (Nat × Except KafkoError Reply)

namespace PartitionCalls

inductive Step (X : Crates) :
    PartitionCalls → Option PartitionMoment → PartitionCalls → Prop
  | call {c : PartitionCalls} {command : PartitionCommand} {id : Nat}
      (hChannel : command.channel = some id) (hNew : id ∉ c.issued) :
      Step X c (some (.invoked id command))
        { c with issued := id :: c.issued, waiting := c.waiting ++ [command] }
  /-- There is room in the inbox. -/
  | send {c : PartitionCalls} {command : PartitionCommand} {l l' : List PartitionCommand}
      (hCall : c.waiting = l ++ command :: l') (hRoom : c.writer.inbox.length < inboxCapacity) :
      Step X c none { c with
        waiting := l ++ l'
        writer := { c.writer with inbox := c.writer.inbox ++ [command] } }
  /-- A future that is dropped before its command was sent. -/
  | cancel {c : PartitionCalls} {command : PartitionCommand} {l l' : List PartitionCommand}
      (hCall : c.waiting = l ++ command :: l') : Step X c none { c with waiting := l ++ l' }
  /-- A wake-up of the writer. -/
  | recv {c : PartitionCalls} {env : Env FileName} {ready : List Bool} {writer : PartitionWriter}
      {world : World FileName} (hClean : Clean env) (hInbox : c.writer.inbox ≠ [])
      (hOps : PartitionWriter.AdmissibleTurn X env ready c.writer c.world)
      (hRun : PartitionWriter.takeTurn X (.recv ready) env c.writer c.world =
        (.ok (), writer, world)) :
      Step X c none { c with
        writer := writer
        world := world
        channels := c.channels ++ writer.sent.drop c.writer.sent.length }
  | retentionTick {c : PartitionCalls} {env : Env FileName} {writer : PartitionWriter}
      {world : World FileName} (hClean : Clean env)
      (hRun : PartitionWriter.takeTurn X .retentionTick env c.writer c.world =
        (.ok (), writer, world)) :
      Step X c (some (.moved writer.log.oldestBase)) { c with writer := writer, world := world }
  | receive {c : PartitionCalls} {id : Nat} {answer : Except KafkoError Reply}
      {l l' : List (Nat × Except KafkoError Reply)} (hReply : c.channels = l ++ (id, answer) :: l') :
      Step X c (some (.returned id answer)) { c with channels := l ++ l' }
  /-- The receiving end was dropped. -/
  | discard {c : PartitionCalls} {reply : Nat × Except KafkoError Reply}
      {l l' : List (Nat × Except KafkoError Reply)} (hReply : c.channels = l ++ reply :: l') :
      Step X c none { c with channels := l ++ l' }

/-- A partition that was just opened. -/
def start (log : Log) (w : World FileName) : PartitionCalls :=
  ⟨.start log [], w, [], [], []⟩

def system (X : Crates) (log : Log) (w : World FileName) :
    System PartitionCalls (Option PartitionMoment) :=
  ⟨fun c => c = start log w, Step X⟩

end PartitionCalls

/-- How a session ends. -/
inductive SessionEnd
  | closed
  | stopped
  /-- The machine stops in a retention tick. -/
  | stoppedInTick

namespace PartitionCalls

/-- What is in the files when the process ends; the machine may stop then, and even in what the
writer is doing. -/
inductive Ends (X : Crates) (c : PartitionCalls) : SessionEnd → Store FileName → Prop
  /-- The handle was shut down and the inbox drained. -/
  | shutdown {env : Env FileName} {s : PartitionWriter} {w : World FileName}
      (hInbox : c.writer.inbox = [])
      (hRun : PartitionWriter.finish env c.writer c.world = (.ok (), s, w)) :
      Ends X c .closed w.store
  | dropped : Ends X c .closed c.world.store
  | stop {d : Store FileName} (hSurvives : c.world.store.Survives d) : Ends X c .stopped d
  | stopInRecv {env : Env FileName} {ready : List Bool} {s : PartitionWriter} {w : World FileName}
      {d : Store FileName} (hClean : Clean env) (hInbox : c.writer.inbox ≠ [])
      (hOps : PartitionWriter.AdmissibleTurn X env ready c.writer c.world)
      (hRun : PartitionWriter.takeTurn X (.recv ready) env c.writer c.world = (.crash, s, w))
      (hSurvives : w.store.Survives d) : Ends X c .stopped d
  | stopInTick {env : Env FileName} {s : PartitionWriter} {w : World FileName} {d : Store FileName}
      (hClean : Clean env)
      (hRun : PartitionWriter.takeTurn X .retentionTick env c.writer c.world = (.crash, s, w))
      (hSurvives : w.store.Survives d) : Ends X c .stoppedInTick d
  | stopInFinish {env : Env FileName} {s : PartitionWriter} {w : World FileName}
      {d : Store FileName}
      (hRun : PartitionWriter.finish env c.writer c.world = (.crash, s, w))
      (hSurvives : w.store.Survives d) : Ends X c .stopped d

end PartitionCalls

theorem Page.Stored.rested {X : Crates} {p : Page} {log : Log} {d : Store FileName}
    (h : p.Stored X (some log) d) : Rested d := by
  obtain ⟨-, L, hLive, -⟩ := h
  exact hLive.rested

namespace PartitionCalls

/-! ## The simulation -/

/-- A partition and its clients as a queueing server. -/
structure Shows (X : Crates) (c : PartitionCalls)
    (q : Fifo Page Nat PartitionCommand (Except KafkoError Reply)) : Prop where
  stored : q.state.Stored X (some c.writer.log) c.world.store
  issued : q.issued = c.issued
  waiting : q.waiting = c.waiting.map callOf
  queue : q.queue = c.writer.inbox.map callOf
  replies : q.replies = c.channels
  answerable : ∀ command ∈ c.writer.inbox ++ c.waiting, command.channel.isSome

variable {X : Crates} {c c' : PartitionCalls}
  {q : Fifo Page Nat PartitionCommand (Except KafkoError Reply)}

theorem Shows.step (hX : X.Lawful) (hShows : Shows X c q) {m : Option PartitionMoment}
    (hStep : Step X c m c') : ∃ q', Fifo.Step pageObject q m q' ∧ Shows X c' q' := by
  obtain ⟨hStored, hIssued, hWaiting, hQueue, hReplies, hChannels⟩ := hShows
  cases hStep with
  | @call command id hChannel hNew =>
    rw [← hIssued] at hNew
    refine ⟨_, .invoke hNew, hStored, ?_, ?_, hQueue, hReplies, ?_⟩
    · rw [hIssued]
    · rw [hWaiting, List.map_append, List.map_singleton, callOf_eq hChannel]
    · intro command' hMem
      rw [← List.append_assoc] at hMem
      rcases List.mem_append.mp hMem with hOld | hHere
      · exact hChannels command' hOld
      · rw [List.mem_singleton.mp hHere, hChannel, Option.isSome_some]
  | @send command l l' hCall hRoom =>
    have hCall' : q.waiting = l.map callOf ++ callOf command :: l'.map callOf := by
      rw [hWaiting, hCall, List.map_append, List.map_cons]
    refine ⟨_, .enter hCall', hStored, hIssued, ?_, ?_, hReplies, ?_⟩
    · rw [List.map_append]
    · rw [hQueue, List.map_append, List.map_singleton]
    · intro command' hMem
      apply hChannels command'
      rw [hCall]
      simp only [List.mem_append, List.mem_cons, List.not_mem_nil, or_false] at hMem ⊢
      tauto
  | @cancel command l l' hCall =>
    have hCall' : q.waiting = l.map callOf ++ callOf command :: l'.map callOf := by
      rw [hWaiting, hCall, List.map_append, List.map_cons]
    refine ⟨_, .giveUp hCall', hStored, hIssued, ?_, hQueue, hReplies, ?_⟩
    · rw [List.map_append]
    · intro command' hMem
      apply hChannels command'
      rw [hCall]
      simp only [List.mem_append, List.mem_cons] at hMem ⊢
      tauto
  | @recv env ready writer world hClean hInbox hOps hRun =>
    have hInboxes : ∀ command ∈ c.writer.inbox, command.channel.isSome := fun command hMem =>
      hChannels command (List.mem_append_left _ hMem)
    obtain ⟨taken, ops, p', hTurn⟩ := ok_of_wp
      (PartitionWriter.takeTurn_page hX hClean hStored hInbox hInboxes hOps) hRun
    have hFront : q.queue = ops.map (fun op => (op.id, op.call)) ++ writer.inbox.map callOf := by
      rw [hQueue, hTurn.inbox, List.map_append, hTurn.calls]
    refine ⟨_, .serve hFront hTurn.sequential, hTurn.stored, hIssued, hWaiting, rfl, ?_, ?_⟩
    · rw [hReplies, hTurn.sent, List.drop_left]
    · intro command hMem
      apply hChannels command
      rw [hTurn.inbox, List.append_assoc]
      exact List.mem_append_right _ hMem
  | @retentionTick env writer world hClean hRun =>
    obtain ⟨hInbox, p', hMove, hStored'⟩ :=
      ok_of_wp (PartitionWriter.retentionTick_page hX hClean hStored) hRun
    refine ⟨_, .move hMove, hStored', hIssued, hWaiting, ?_, hReplies, ?_⟩
    · rw [hInbox]
      exact hQueue
    · rw [hInbox]
      exact hChannels
  | @receive id answer l l' hReply =>
    have hReply' : q.replies = l ++ (id, answer) :: l' := hReplies.trans hReply
    exact ⟨_, .deliver hReply', hStored, hIssued, hWaiting, hQueue, rfl, hChannels⟩
  | @discard reply l l' hReply =>
    have hReply' : q.replies = l ++ reply :: l' := hReplies.trans hReply
    exact ⟨_, .discard hReply', hStored, hIssued, hWaiting, hQueue, rfl, hChannels⟩

end PartitionCalls

/-- What the end of a session does to the page. -/
def Page.Ends (p : Page) : SessionEnd → Page → Prop
  | .closed, p' => p.Closes False p'
  | .stopped, p' => p' = p.tear
  | .stoppedInTick, p' => ∃ oldest q, pageObject.moves p oldest q ∧ p' = q.tear

namespace PartitionCalls

variable {X : Crates} {c : PartitionCalls}
  {q : Fifo Page Nat PartitionCommand (Except KafkoError Reply)}

end PartitionCalls

/-! ## Sessions -/

/-- What is seen of a session: the offset the log begins at when it is opened, what happened on it,
and how it ended; unless the machine stopped while the log was opened. -/
inductive Session
  | served (oldest : Nat) (history : List PartitionMoment) (ending : SessionEnd)
  | stoppedInOpen

/-- The sessions of a page. In each the clients see an object that does one call at a time, and that
expires records when a retention tick is seen, up to where the log then begins; in the next session
the page is as it was left, or cut somewhere behind its durable records if the machine has
stopped. -/
inductive Page.Lived : List Session → Page → Prop
  /-- No page was opened yet. -/
  | nothing : Lived [] Page.blank.tear
  | session {sessions : List Session} {p p₁ p₂ p₃ : Page} {history : List PartitionMoment}
      {order : List PageDeed} {ending : SessionEnd} (hLived : Lived sessions p)
      (hReopens : p.Reopens p₁) (hLinear : Linearizable pageObject p₁ history order)
      (hSequential : pageObject.Sequential p₁ order p₂) (hEnds : p₂.Ends ending p₃) :
      Lived (sessions ++ [.served p₁.history.oldest history ending]) p₃
  | stopInOpen {sessions : List Session} {p : Page} (hLived : Lived sessions p) :
      Lived (sessions ++ [.stoppedInOpen]) p.tear

theorem Fresh.rested {d : Store FileName} (h : Fresh d) : Rested d := by
  intro b f hf
  rw [h] at hf
  cases hf

namespace Page

variable {p p' : Page} {sessions : List Session}

/-- A later page: the durable records are there, and nothing was lost if no session ended. -/
structure Lasts (p p' : Page) : Prop where
  bounded : p'.Bounded
  keeps : p.Keeps p'
  longer : p.history.records <+: p'.history.records

theorem lasts_of_answers (hBounded : p.Bounded) {op : LogOp} {r : Res KafkoError Reply}
    (h : p.Answers op r p') : p.Lasts p' :=
  ⟨(Moves.answers h).bounded hBounded, (Moves.answers h).keeps hBounded, h.longer⟩

/-- Every answer comes from an operation. -/
theorem answers_of_object {command : PartitionCommand} {answer : Except KafkoError Reply}
    (h : pageObject.answers p command answer p') : ∃ op r, p.Answers op r p' := by
  cases answer with
  | ok reply =>
    obtain ⟨op, -, hAnswers⟩ := h
    exact ⟨op, _, hAnswers⟩
  | error e =>
    obtain ⟨h', n, torn⟩ := p'
    obtain ⟨hSame, hTorn, hDurable⟩ := h
    dsimp only at hSame hTorn
    subst hSame hTorn
    exact ⟨.sync, .err e, .rejected (.unchanged .sync) hDurable⟩

/-- What has expired could have expired in a pass that was not finished. -/
theorem answers_of_moves {oldest : Nat} (h : pageObject.moves p oldest p') :
    p.Answers .applyRetention .crash p' := by
  obtain ⟨h', n, torn⟩ := p'
  obtain ⟨hLe, hSame, hTorn, hDurable⟩ := h
  dsimp only at hSame hTorn hDurable
  subst hSame hTorn
  refine .interrupted ?_ hLe (fun hOp => absurd rfl hOp) hDurable
  rw [History.retire, LogOp.records, List.append_nil] <;> simp

theorem sequential_lasts {order : List PageDeed} (h : pageObject.Sequential p order p')
    (hBounded : p.Bounded) : p.Lasts p' := by
  refine h.related (R := fun p p' => p.Bounded → p.Lasts p') ?_ ?_ ?_ ?_ hBounded
  · exact fun p hp => ⟨hp, .refl p, List.prefix_rfl⟩
  · intro p p' p'' h h' hp
    have h₁ := h hp
    have h₂ := h' h₁.bounded
    exact ⟨h₂.bounded, h₁.keeps.trans h₂.keeps, h₁.longer.trans h₂.longer⟩
  · exact fun p oldest p' hMoves hp => lasts_of_answers hp (answers_of_moves hMoves)
  · intro p command answer p' hAnswer hp
    obtain ⟨op, r, hAnswers⟩ := answers_of_object hAnswer
    exact lasts_of_answers hp hAnswers

/-- The end of a session. -/
theorem ends_keep {ending : SessionEnd} (h : p.Ends ending p') (hBounded : p.Bounded) :
    p'.Bounded ∧ p.Keeps p' := by
  cases ending with
  | closed =>
    have hMoves : p.Moves p' := .closes h
    exact ⟨hMoves.bounded hBounded, hMoves.keeps hBounded⟩
  | stopped =>
    obtain rfl : p' = p.tear := h
    exact ⟨hBounded, (Keeps.refl p).tear⟩
  | stoppedInTick =>
    obtain ⟨oldest, q, hMoves, rfl⟩ := h
    have hLasts := lasts_of_answers hBounded (answers_of_moves hMoves)
    exact ⟨hLasts.bounded, hLasts.keeps.tear⟩

theorem session_keeps {p₁ p₂ p₃ : Page} {order : List PageDeed} {ending : SessionEnd}
    (hReopens : p.Reopens p₁) (hSequential : pageObject.Sequential p₁ order p₂)
    (hEnds : p₂.Ends ending p₃) (hBounded : p.Bounded) : p₃.Bounded ∧ p.Keeps p₃ := by
  have hOpened : p.Moves p₁ := .reopens hReopens
  have hServed := sequential_lasts hSequential (hOpened.bounded hBounded)
  obtain ⟨hBounded₃, hKeeps₃⟩ := ends_keep hEnds hServed.bounded
  exact ⟨hBounded₃, ((hOpened.keeps hBounded).trans hServed.keeps).trans hKeeps₃⟩

theorem Lived.bounded (h : Lived sessions p) : p.Bounded := by
  induction h with
  | nothing => exact Nat.le_refl 0
  | session _ hReopens _ hSequential hEnds ih =>
    exact (session_keeps hReopens hSequential hEnds ih).1
  | stopInOpen _ ih => exact ih

/-- The last session is a given one, or it comes after it. -/
theorem last_session {before later sessions : List Session} {s last : Session}
    (h : before ++ s :: later = sessions ++ [last]) :
    later = [] ∨ ∃ init, later = init ++ [last] ∧ before ++ s :: init = sessions := by
  rcases List.eq_nil_or_concat later with hNil | ⟨init, last', rfl⟩
  · exact Or.inl hNil
  · rw [List.concat_eq_append, ← List.cons_append, ← List.append_assoc] at h
    obtain ⟨hFront, hLast⟩ := List.append_inj' h rfl
    rw [List.concat_eq_append, (List.cons.inj hLast).1]
    exact Or.inr ⟨init, rfl, hFront⟩

/-- Later sessions keep what is durable at the end of a session. -/
theorem Lived.after {before later : List Session} {s : Session}
    (h : Lived (before ++ s :: later) p) : ∃ q, Lived (before ++ [s]) q ∧ q.Keeps p := by
  generalize hAll : before ++ s :: later = all at h
  induction h generalizing later with
  | nothing => simp at hAll
  | @session sessions p p₁ p₂ p₃ history order ending hLived hReopens hLinear hSequential hEnds ih =>
    rcases last_session hAll with rfl | ⟨init, rfl, hFront⟩
    · refine ⟨p₃, ?_, .refl p₃⟩
      rw [hAll]
      exact .session hLived hReopens hLinear hSequential hEnds
    · obtain ⟨q, hq, hKeeps⟩ := ih hFront
      exact ⟨q, hq, hKeeps.trans (session_keeps hReopens hSequential hEnds hLived.bounded).2⟩
  | @stopInOpen sessions p hLived ih =>
    rcases last_session hAll with rfl | ⟨init, rfl, hFront⟩
    · refine ⟨p.tear, ?_, .refl _⟩
      rw [hAll]
      exact .stopInOpen hLived
    · obtain ⟨q, hq, hKeeps⟩ := ih hFront
      exact ⟨q, hq, hKeeps.tear⟩

/-- A session in which the log was opened. -/
theorem Lived.seen {before : List Session} {oldest : Nat} {history : List PartitionMoment}
    {ending : SessionEnd} (h : Lived (before ++ [.served oldest history ending]) p) :
    ∃ p₁ p₂ order, p₁.Bounded ∧ Linearizable pageObject p₁ history order ∧
      pageObject.Sequential p₁ order p₂ ∧ p₂.Keeps p := by
  generalize hAll : before ++ [.served oldest history ending] = all at h
  cases h with
  | nothing => simp at hAll
  | @session sessions p₀ p₁ p₂ _ history' order ending' hLived hReopens hLinear hSequential hEnds =>
    obtain ⟨-, hLast⟩ := List.append_inj' hAll rfl
    cases (List.cons.inj hLast).1
    have hBounded : p₁.Bounded := (Moves.reopens hReopens).bounded hLived.bounded
    have hServed := sequential_lasts hSequential hBounded
    exact ⟨p₁, p₂, order, hBounded, hLinear, hSequential, (ends_keep hEnds hServed.bounded).2⟩
  | stopInOpen hLived =>
    obtain ⟨-, hLast⟩ := List.append_inj' hAll rfl
    cases (List.cons.inj hLast).1

end Page

end Kafko
