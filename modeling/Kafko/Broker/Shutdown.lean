import Kafko.Partition.Durability

/-!
# Shutting a broker down

`Kafko::shutdown` takes the topics out of the registry and shuts each of them down, and
`Topic::shutdown` does the same with its partitions. Both need to own what they shut down: a
topic that a producer, a consumer or a caller still refers to is passed over, and so is a
partition somebody holds an `Arc` of. Shutting a partition down closes its inbox and waits
for the writer to end. None of these steps can report anything, and `shutdown` returns `Ok`.

Nothing stands still meanwhile. Until the broker comes to a partition its writer takes turns and
commands arrive, and at a partition that is passed over this goes on until `shutdown` returns.
Records count as acknowledged by the layout they lie in when `shutdown` is called
(`HostedPartition.acked`).
-/

namespace Kafko

open Disk PartitionWriter

/-- A partition as the broker holds it. -/
structure HostedPartition where
  writer : PartitionWriter
  world : World FileName
  /-- The writer task has ended in a panic. -/
  panicked : Bool
  /-- Somebody else holds an `Arc<Partition>` when the broker comes to it. -/
  shared : Bool
  /-- Where the records acknowledged so far lie. -/
  acked : Layout

structure HostedTopic where
  name : String
  partitions : List HostedPartition
  /-- Somebody else holds an `Arc<Topic>` when the broker comes to it. -/
  shared : Bool

/-- The registry of a broker, in the order in which its map is traversed. -/
structure Broker where
  topics : List HostedTopic

/-- What may happen at a partition whose inbox is open. -/
inductive Move
  | arrive (command : PartitionCommand)
  | turn (turn : Turn)

/-- What happens at a partition during a shutdown. -/
structure Ending where
  /-- Until its inbox is closed, or until `shutdown` returns. -/
  moves : List Move
  /-- How the writer takes what is left in its inbox when that is closed. -/
  turns : List Turn
  env : Env FileName
  /-- The file system at the final sync. -/
  last : Env FileName
  /-- Whoever holds the partition lets go of it, and its writer ends before `shutdown` returns. -/
  released : Bool

def Move.arrival : Move → Option PartitionCommand
  | arrive command => some command
  | turn _ => none

/-- The commands that arrive. -/
def Ending.arrivals (ending : Ending) : List PartitionCommand := ending.moves.filterMap Move.arrival

namespace PartitionWriter

/-- The inbox is open. -/
def meanwhile (X : Crates) : List Move → LogIO PartitionWriter Unit
  | [] => pure ()
  | .arrive command :: moves => do
    Fx.modify fun s => { s with inbox := s.inbox ++ [command] }
    meanwhile X moves
  | .turn turn :: moves => do
    takeTurn X turn
    meanwhile X moves

/-- The inbox is closed, and the writer handles what is left in it. -/
def drain (X : Crates) (turns : List Turn) : LogIO PartitionWriter Unit := do
  let s ← Fx.get
  writerLoop X (turns ++ List.replicate s.inbox.length (.recv []))

end PartitionWriter

namespace HostedPartition

/-- A part of the writer task, unless the task has ended. Nobody is told of a panic. -/
def run (env : Env FileName) (task : LogIO PartitionWriter Unit) (p : HostedPartition) :
    Res KafkoError HostedPartition :=
  if p.panicked then .ok p
  else
    match task env p.writer p.world with
    | (.crash, _, _) => .crash
    | (.ok _, s, w) => .ok { p with writer := s, world := w }
    | (_, s, w) => .ok { p with writer := s, world := w, panicked := true }

/-- The inbox is closed, and the writer comes to its end. -/
def close (X : Crates) (ending : Ending) (p : HostedPartition) : Res KafkoError HostedPartition := do
  let p ← p.run ending.env (drain X ending.turns)
  p.run ending.last finish

/-- What becomes of a partition whose inbox is closed in the end, or is not. -/
def goOn (X : Crates) (ending : Ending) (closed : Bool) (p : HostedPartition) :
    Res KafkoError HostedPartition := do
  let p ← p.run ending.env (meanwhile X ending.moves)
  if closed then p.close X ending else .ok p

/-- `Partition::shutdown`. -/
def shutdown (X : Crates) (ending : Ending) (p : HostedPartition) : Res KafkoError HostedPartition :=
  p.goOn X ending true

/-- A partition that is left running. -/
def passedOver (X : Crates) (ending : Ending) (p : HostedPartition) :
    Res KafkoError HostedPartition :=
  p.goOn X ending ending.released

end HostedPartition

namespace HostedTopic

/-- `Topic::shutdown`: partitions referenced elsewhere are left running. -/
def shutdown (X : Crates) (endings : Nat → Ending) (t : HostedTopic) :
    Res KafkoError HostedTopic := do
  let partitions ← Res.forEach
    (fun j p => if p.shared then p.passedOver X (endings j) else p.shutdown X (endings j))
    0 t.partitions
  .ok { t with partitions := partitions }

/-- A topic all of whose partitions are left running. -/
def passedOver (X : Crates) (endings : Nat → Ending) (t : HostedTopic) :
    Res KafkoError HostedTopic := do
  let partitions ← Res.forEach (fun j p => HostedPartition.passedOver X (endings j) p)
    0 t.partitions
  .ok { t with partitions := partitions }

end HostedTopic

/-- `Kafko::shutdown` with `shutdown_topics`, and what they leave of the topics. -/
def Broker.shutdown (X : Crates) (endings : Nat → Nat → Ending) (b : Broker) :
    Res KafkoError Broker := do
  let topics ← Res.forEach
    (fun i t => if t.shared then t.passedOver X (endings i) else t.shutdown X (endings i))
    0 b.topics
  .ok ⟨topics⟩

/-! ## Durability -/

/-- The final sync accepts the file of this segment. -/
def Ending.Accepts (ending : Ending) (base : Nat) : Prop :=
  ∀ tick, ¬ ending.last.Fails tick (.syncData (.log base))

namespace HostedPartition

/-- The log was reached without failures that leave traces and holds the acknowledged
records; if the writer has panicked, it was in the middle of an operation on such a log or
before one. -/
def Reachable (X : Crates) (p : HostedPartition) : Prop :=
  ∃ log w held, Grown X log w held ∧ Live log w.store p.acked ∧
    (p.writer.log = log ∧ p.world = w ∨
      p.panicked = true ∧ ∃ env op message, CleanFailures env ∧
        LogOp.exec X op env log w = (.panic message, p.writer.log, p.world))

/-- The commands that are in the inbox at the call or arrive before it is closed. -/
def commands (ending : Ending) (p : HostedPartition) : List PartitionCommand :=
  p.writer.inbox ++ ending.arrivals

/-- What these commands weigh. -/
def load (X : Crates) (ending : Ending) (p : HostedPartition) : Nat :=
  weigh X p.writer.log.config.compression (p.commands ending)

/-- Everything is covered at the call; or the writer comes to its end, because its inbox is closed
and no command can make it panic, and the final sync accepts the segment that is active at the
call. -/
def Secured (X : Crates) (ending : Ending) (held : Bool) (p : HostedPartition) : Prop :=
  p.acked.CoveredOn p.world.store ∨
    (held = true → ending.released = true) ∧ p.panicked = false ∧
      ¬ Overrun (span p.acked.active.frames) (p.load X ending) ∧
      ending.Accepts p.acked.active.base

/-- No command writes or syncs, and the final sync treats the active file the same at any time. -/
def Idle (ending : Ending) (p : HostedPartition) : Prop :=
  (∀ command ∈ p.commands ending, command.stores = false) ∧
    (ending.Accepts p.acked.active.base ∨
      ∀ tick, ending.last.Fails tick (.syncData (.log p.acked.active.base)))

end HostedPartition

namespace Broker

def Reachable (X : Crates) (b : Broker) : Prop :=
  ∀ t ∈ b.topics, ∀ p ∈ t.partitions, p.Reachable X

def partitionAt (b : Broker) (i j : Nat) : Option HostedPartition := do
  let t ← b.topics[i]?
  t.partitions[j]?

/-- Every record acknowledged in `b` is covered by a sync in `b'`. -/
def Durable (b b' : Broker) : Prop :=
  ∀ i j p, b.partitionAt i j = some p →
    ∃ p', b'.partitionAt i j = some p' ∧ p.acked.CoveredOn p'.world.store

def Secured (X : Crates) (endings : Nat → Nat → Ending) (b : Broker) : Prop :=
  ∀ i j (t : HostedTopic) (p : HostedPartition), b.topics[i]? = some t →
    t.partitions[j]? = some p → p.Secured X (endings i j) (t.shared || p.shared)

def Idle (endings : Nat → Nat → Ending) (b : Broker) : Prop :=
  ∀ i j (t : HostedTopic) (p : HostedPartition), b.topics[i]? = some t →
    t.partitions[j]? = some p → p.Idle (endings i j)

end Broker

/-! ## The writer until its inbox is closed and drained -/

variable {X : Crates}

@[simp] theorem filterMap_arrive (command : PartitionCommand) (moves : List Move) :
    (.arrive command :: moves).filterMap Move.arrival =
      command :: moves.filterMap Move.arrival := rfl

@[simp] theorem filterMap_turn (turn : Turn) (moves : List Move) :
    (.turn turn :: moves).filterMap Move.arrival = moves.filterMap Move.arrival := rfl

namespace PartitionWriter

variable {env : Env FileName} {s : PartitionWriter} {w : World FileName} {c : Compression}
  {L : Layout} {size : Nat} {d : Store FileName}

theorem meanwhile_since (hClean : Clean env) (h : s.log.Since w c L size) (moves : List Move) :
    wp env (meanwhile X moves)
      (servesSince X c L size (weigh X c s.inbox + weigh X c (moves.filterMap Move.arrival)))
      s w := by
  induction moves generalizing s w size with
  | nil => exact ⟨0, h, by simp⟩
  | cons move moves ih =>
    cases move with
    | arrive command =>
      rw [meanwhile, wp_modify_bind]
      have hRest := ih (s := { s with inbox := s.inbox ++ [command] }) h
      rw [filterMap_arrive, weigh_cons]
      rwa [weigh_append, weigh_cons, weigh_nil, Nat.add_zero, Nat.add_assoc] at hRest
    | turn turn =>
      rw [meanwhile, filterMap_turn]
      refine wp_bind_of (takeTurn_since hClean h turn) ?_ (fun _ _ _ hF => hF) ?_
        (fun _ _ _ => trivial)
      · rintro _ s' w' ⟨n, hSince, hLeft⟩
        exact servesSince_add (ih hSince) (by omega)
      · rintro m s' w' ⟨hOn, hOver⟩
        exact ⟨hOn, hOver.mono (by omega) (by omega)⟩

theorem drain_since (hClean : Clean env) (h : s.log.Since w c L size) (turns : List Turn) :
    wp env (drain X turns) (servesSince X c L size (weigh X c s.inbox)) s w := by
  rw [drain, wp_get_bind]
  exact writerLoop_since hClean h _

theorem meanwhile_rests (hClean : Clean env) (h : s.Resting L d w) {moves : List Move}
    (hIdle : ∀ command ∈ moves.filterMap Move.arrival, command.stores = false) :
    wp env (meanwhile X moves)
      { ok := fun _ s' w' => s'.Resting L d w' ∧
          (.poison ∈ s.inbox ++ moves.filterMap Move.arrival → .poison ∈ s'.inbox)
        err := fun _ _ _ => False
        panic := fun _ _ w' => L.StillOn d w'.store
        crash := fun _ _ => True } s w := by
  induction moves generalizing s w with
  | nil => exact ⟨h, fun hIn => by simpa using hIn⟩
  | cons move moves ih =>
    cases move with
    | arrive command =>
      rw [filterMap_arrive] at hIdle ⊢
      rw [meanwhile, wp_modify_bind]
      have hResting : Resting L d { s with inbox := s.inbox ++ [command] } w := by
        refine ⟨h.live, h.file, ?_⟩
        intro command' hMem
        rcases List.mem_append.mp hMem with hOld | hNew
        · exact h.idle command' hOld
        · exact hIdle command' (List.mem_cons.mpr (Or.inl (List.mem_singleton.mp hNew)))
      have hRest := ih hResting fun command' hMem => hIdle command' (List.mem_cons_of_mem _ hMem)
      rwa [List.append_assoc, List.singleton_append] at hRest
    | turn turn =>
      rw [filterMap_turn] at hIdle ⊢
      rw [meanwhile]
      refine wp_bind_of (takeTurn_rests hClean h turn) ?_ (fun _ _ _ hF => hF)
        (fun _ _ _ hP => hP) (fun _ _ _ => trivial)
      rintro _ s' w' ⟨hResting, -, hPoison⟩
      refine wp_mono (ih hResting hIdle) ?_ (fun _ _ _ hF => hF) (fun _ _ _ hP => hP)
        (fun _ _ _ => trivial)
      rintro _ s'' w'' ⟨hResting', hPoison'⟩
      refine ⟨hResting', fun hIn => hPoison' ?_⟩
      rcases List.mem_append.mp hIn with hOld | hNew
      · exact List.mem_append_left _ (hPoison hOld)
      · exact List.mem_append_right _ hNew

/-- The writer ends only when its inbox is empty, so no poison was in it. -/
theorem drain_rests (hClean : Clean env) (h : s.Resting L d w) (turns : List Turn) :
    wp env (drain X turns)
      { ok := fun _ s' w' => s'.Resting L d w' ∧ .poison ∉ s.inbox
        err := fun _ _ _ => False
        panic := fun _ _ w' => L.StillOn d w'.store
        crash := fun _ _ => True } s w := by
  rw [drain, wp_get_bind]
  refine wp_mono (writerLoop_rests hClean h _) ?_ (fun _ _ _ hF => hF) (fun _ _ _ hP => hP)
    (fun _ _ _ => trivial)
  rintro _ s' w' ⟨hResting, hLeft, hPoison⟩
  refine ⟨hResting, fun hIn => ?_⟩
  have hAll : s.inbox.length ≤
      (turns ++ List.replicate s.inbox.length (Turn.recv [])).countP Turn.receives := by
    rw [List.countP_append, List.countP_replicate]
    exact Nat.le_add_left _ _
  have hEmpty : s'.inbox = [] := List.eq_nil_of_length_eq_zero (by omega)
  have hStill := hPoison hIn
  rw [hEmpty] at hStill
  cases hStill

end PartitionWriter

/-! ## One partition -/

namespace HostedPartition

variable {ending : Ending} {closed : Bool} {p p' : HostedPartition} {env : Env FileName}
  {task : LogIO PartitionWriter Unit} {Q : Post FileName KafkoError PartitionWriter Unit}

theorem run_panicked (hPanicked : p.panicked = true) : p.run env task = .ok p := if_pos hPanicked

/-- How a part of the writer task may end. -/
theorem run_cases (hAlive : p.panicked = false) (hSpec : wp env task Q p.writer p.world)
    (hErr : ∀ e s w, ¬ Q.err e s w) (hRun : p.run env task = .ok p') :
    (∃ s w, Q.ok () s w ∧ p' = { p with writer := s, world := w }) ∨
      ∃ m s w, Q.panic m s w ∧ p' = { p with writer := s, world := w, panicked := true } := by
  unfold run at hRun
  rw [if_neg (by simp [hAlive])] at hRun
  unfold wp at hSpec
  rcases hTask : task env p.writer p.world with ⟨r, s, w⟩
  rw [hTask] at hRun hSpec
  cases r with
  | ok u =>
    cases hRun
    exact Or.inl ⟨s, w, hSpec, rfl⟩
  | err e => exact absurd hSpec (hErr e s w)
  | panic m =>
    cases hRun
    exact Or.inr ⟨m, s, w, hSpec, rfl⟩
  | crash => cases hRun

/-- The partition `p` during a shutdown: what it was given and has used up so far. -/
structure Stands (X : Crates) (c : Compression) (L : Layout) (size weight rest : Nat)
    (p : HostedPartition) : Prop where
  on : L.SinceOn p.world.store
  alive : p.panicked = false → ∃ n, p.writer.log.Since p.world c L (size + n) ∧
    n + weigh X c p.writer.inbox + rest ≤ weight
  overrun : p.panicked = true → Overrun size weight

theorem Stands.run {c : Compression} {L : Layout} {size weight rest : Nat}
    (h : p.Stands X c L size weight rest)
    (hTask : ∀ n, p.writer.log.Since p.world c L n →
      wp env task (servesSince X c L n (weigh X c p.writer.inbox + rest)) p.writer p.world)
    (hRun : p.run env task = .ok p') : p'.Stands X c L size weight 0 := by
  cases hAlive : p.panicked with
  | true =>
    rw [run_panicked hAlive] at hRun
    cases hRun
    refine ⟨h.on, fun hNot => ?_, h.overrun⟩
    rw [hAlive] at hNot
    cases hNot
  | false =>
    obtain ⟨n, hSince, hLeft⟩ := h.alive hAlive
    have hServes := servesSince_add (hTask _ hSince) (Nat.add_assoc _ _ _ ▸ hLeft)
    rcases run_cases hAlive hServes (fun _ _ _ hF => hF) hRun with
      ⟨s, w, ⟨m, hSince', hLeft'⟩, rfl⟩ | ⟨m, s, w, ⟨hOn, hOver⟩, rfl⟩
    · refine ⟨hSince'.on, fun _ => ⟨m, hSince', hLeft'⟩, fun hYes => ?_⟩
      change p.panicked = true at hYes
      rw [hAlive] at hYes
      cases hYes
    · exact ⟨hOn, fun hNot => (nomatch hNot), fun _ => hOver⟩

/-- A partition whose writer is alive when the shutdown begins. -/
theorem stands_start (ending : Ending) {L : Layout} (hSince : p.writer.log.Since p.world
      p.writer.log.config.compression L (span L.active.frames)) (hAlive : p.panicked = false) :
    p.Stands X p.writer.log.config.compression L (span L.active.frames) (p.load X ending)
      (weigh X p.writer.log.config.compression ending.arrivals) := by
  refine ⟨hSince.on, fun _ => ⟨0, hSince, ?_⟩, fun hYes => ?_⟩
  · rw [load, commands, weigh_append, Nat.zero_add]
  · rw [hAlive] at hYes
    cases hYes

theorem Reachable.live (h : p.Reachable X) (hAlive : p.panicked = false) :
    Live p.writer.log p.world.store p.acked := by
  obtain ⟨log, w, held, -, hLive, ⟨rfl, rfl⟩ | ⟨hYes, -⟩⟩ := h
  · exact hLive
  · rw [hAlive] at hYes
    cases hYes

theorem close_panicked (hPanicked : p.panicked = true) : p.close X ending = .ok p := by
  simp [close, run_panicked hPanicked]

theorem goOn_panicked (hPanicked : p.panicked = true) : p.goOn X ending closed = .ok p := by
  cases closed <;> simp [goOn, run_panicked hPanicked, close_panicked hPanicked]

/-- What is secured is covered in the end, from any layout `L` that stands for what was
acknowledged. -/
theorem Stands.covered {c : Compression} {L : Layout} {size weight : Nat}
    (h : p.Stands X c L size weight (weigh X c ending.arrivals))
    (hChain : Chain L.oldest L.chunks L.active.base) (hClean : Clean ending.env)
    (hWhy : L.active.frames.length ≤ L.durable ∨
      closed = true ∧ ¬ Overrun size weight ∧ ending.Accepts L.active.base)
    (hRun : p.goOn X ending closed = .ok p') : L.CoveredOn p'.world.store := by
  -- a layout of which all is durable covers itself
  have hFull : ∀ {q : HostedPartition}, L.active.frames.length ≤ L.durable →
      L.SinceOn q.world.store → L.CoveredOn q.world.store := by
    rintro q hAll ⟨L', hDisk, hLater⟩
    exact hLater.covered hChain hDisk fun hSame => hAll.trans (hLater.durable hSame)
  obtain ⟨p₁, hFirst, hRest⟩ := Res.bind_eq_ok.mp hRun
  have hStands := h.run (fun n hSince => meanwhile_since hClean hSince ending.moves) hFirst
  cases closed with
  | false =>
    cases hRest
    rcases hWhy with hAll | ⟨hClosed, -⟩
    · exact hFull hAll hStands.on
    · cases hClosed
  | true =>
    obtain ⟨p₂, hSecond, hLast⟩ := Res.bind_eq_ok.mp hRest
    have hStands₂ := hStands.run (fun n hSince => drain_since hClean hSince ending.turns) hSecond
    cases hAlive : p₂.panicked with
    | true =>
      rw [run_panicked hAlive] at hLast
      cases hLast
      rcases hWhy with hAll | ⟨-, hRoom, -⟩
      · exact hFull hAll hStands₂.on
      · exact absurd (hStands₂.overrun hAlive) hRoom
    | false =>
      obtain ⟨n, hSince, -⟩ := hStands₂.alive hAlive
      have hFinish := finish_covers ending.last hChain hSince
        (hWhy.imp id fun hEnds => hEnds.2.2)
      rcases run_cases hAlive hFinish (fun _ _ _ hF => hF) hLast with
        ⟨s, w, hCovered, rfl⟩ | ⟨m, s, w, hFalse, -⟩
      · exact hCovered
      · exact hFalse.elim

/-- Whether the inbox is closed in the end. -/
theorem goOn_eq (held : Bool) : (if held = true then p.passedOver X ending else p.shutdown X ending) =
    p.goOn X ending (!held || ending.released) := by
  cases held <;> rfl

theorem covered_of_secured (hReach : p.Reachable X) (hClean : Clean ending.env) {held : Bool}
    (hRun : p.goOn X ending (!held || ending.released) = .ok p')
    (hSecured : p.Secured X ending held) : p.acked.CoveredOn p'.world.store := by
  cases hAlive : p.panicked with
  | true =>
    rw [goOn_panicked hAlive] at hRun
    cases hRun
    rcases hSecured with hCovered | ⟨-, hNot, -⟩
    · exact hCovered
    · rw [hAlive] at hNot
      cases hNot
  | false =>
    have hLive := hReach.live hAlive
    have hChain := hLive.disk.chain
    rcases hSecured with hCovered | ⟨hClosed, -, hRoom, hAccepts⟩
    · -- all of it is durable already
      have hSynced := hLive.synced_of_covered hCovered
      have hSince : p.writer.log.Since p.world p.writer.log.config.compression p.acked.synced
          (span p.acked.synced.active.frames) :=
        ⟨rfl, _, hSynced, Layout.Later.refl _, Nat.le_refl _⟩
      exact (stands_start ending hSince hAlive).covered hChain hClean (Or.inl (Nat.le_refl _)) hRun
    · have hSince : p.writer.log.Since p.world p.writer.log.config.compression p.acked
          (span p.acked.active.frames) := ⟨rfl, _, hLive, Layout.Later.refl _, Nat.le_refl _⟩
      refine (stands_start ending hSince hAlive).covered hChain hClean
        (Or.inr ⟨?_, hRoom, hAccepts⟩) hRun
      cases held with
      | false => rfl
      | true => exact hClosed rfl

/-! ## One partition that is only read -/

/-- Commands that neither write nor sync weigh nothing, unless there is poison among them. -/
theorem load_eq_zero (hIdle : ∀ command ∈ p.commands ending, command.stores = false)
    (hPoison : .poison ∉ p.commands ending) : p.load X ending = 0 := by
  rw [load, weigh, List.sum_eq_zero_iff_forall_eq_nat]
  intro n hn
  obtain ⟨command, hMem, rfl⟩ := List.mem_map.mp hn
  cases command with
  | append record reply => cases hIdle _ hMem
  | appendBatch records reply => cases hIdle _ hMem
  | sync reply => cases hIdle _ hMem
  | poison => exact absurd hMem hPoison
  | readAt offset reply => rfl
  | failNextAppend kind => rfl

/-- The final sync of a writer that has only read. -/
theorem finish_rests {s : PartitionWriter} {w : World FileName} {L : Layout} {d : Store FileName}
    (h : s.Resting L d w) (hFails : ∀ tick, env.Fails tick (.syncData (.log L.active.base))) :
    wp env finish
      { ok := fun _ _ w' => L.StillOn d w'.store
        err := fun _ _ _ => False
        panic := fun _ _ _ => False
        crash := fun _ _ => True } s w := by
  obtain ⟨L', hLive, hActive⟩ := h.live
  obtain ⟨init, last, f, hParts⟩ := hLive.parts
  have hRefused : SyncRefused env s.log w := by
    refine ⟨last, by rw [hParts.split, List.getLast?_concat], ?_⟩
    rw [hParts.logPath, hActive]
    exact hFails _
  have hSince : s.log.Since w s.log.config.compression L' (span L'.active.frames) :=
    ⟨rfl, L', hLive, Layout.Later.refl _, Nat.le_refl _⟩
  refine wp_mono (finish_spec env hLive.disk.chain hSince) ?_ (fun _ _ _ hF => hF)
    (fun _ _ _ hF => hF) (fun _ _ _ => trivial)
  rintro _ s' w' ⟨-, hKept⟩
  change L.StillOn d w'.store
  rw [hKept hRefused]
  exact h.file

/-- A closed inbox without commands that write or sync: the active file stays as it is, or the
writer gets to its final sync, past no poison. -/
theorem close_rests {L : Layout} {d : Store FileName} (hAlive : p.panicked = false)
    (hClean : Clean ending.env) (h : p.writer.Resting L d p.world)
    (hLast : ending.Accepts L.active.base ∨
      ∀ tick, ending.last.Fails tick (.syncData (.log L.active.base)))
    (hRun : p.close X ending = .ok p') :
    L.StillOn d p'.world.store ∨ .poison ∉ p.writer.inbox ∧ ending.Accepts L.active.base := by
  obtain ⟨p₁, hDrain, hFinish⟩ := Res.bind_eq_ok.mp hRun
  rcases run_cases hAlive (drain_rests (X := X) hClean h ending.turns) (fun _ _ _ hF => hF) hDrain
    with ⟨s, w, ⟨hResting, hNone⟩, rfl⟩ | ⟨m, s, w, hStill, rfl⟩
  · rcases hLast with hAccepts | hRefuses
    · exact Or.inr ⟨hNone, hAccepts⟩
    · have hEnd := finish_rests hResting hRefuses
      rcases run_cases (p := { p with writer := s, world := w }) hAlive hEnd (fun _ _ _ hF => hF)
        hFinish with ⟨s', w', hStill, rfl⟩ | ⟨m, s', w', hFalse, -⟩
      · exact Or.inl hStill
      · exact hFalse.elim
  · rw [run_panicked rfl] at hFinish
    cases hFinish
    exact Or.inl hStill

theorem goOn_rests (hAlive : p.panicked = false) (hClean : Clean ending.env)
    (hLive : Live p.writer.log p.world.store p.acked) (hIdle : p.Idle ending)
    (hRun : p.goOn X ending closed = .ok p') :
    p.acked.StillOn p.world.store p'.world.store ∨
      closed = true ∧ .poison ∉ p.commands ending ∧ ending.Accepts p.acked.active.base := by
  have hResting : p.writer.Resting p.acked p.world.store p.world :=
    ⟨⟨_, hLive, rfl⟩, rfl, fun command hMem => hIdle.1 command (List.mem_append_left _ hMem)⟩
  have hArrivals : ∀ command ∈ ending.moves.filterMap Move.arrival, command.stores = false :=
    fun command hMem => hIdle.1 command (List.mem_append_right _ hMem)
  obtain ⟨p₁, hFirst, hRest⟩ := Res.bind_eq_ok.mp hRun
  rcases run_cases hAlive (meanwhile_rests (X := X) hClean hResting hArrivals)
    (fun _ _ _ hF => hF) hFirst with ⟨s, w, ⟨hResting', hPoison⟩, rfl⟩ | ⟨m, s, w, hStill, rfl⟩
  · cases closed with
    | false =>
      cases hRest
      exact Or.inl hResting'.file
    | true =>
      rcases close_rests (p := { p with writer := s, world := w }) hAlive hClean hResting' hIdle.2
        hRest with hStill | ⟨hNone, hAccepts⟩
      · exact Or.inl hStill
      · exact Or.inr ⟨rfl, fun hIn => hNone (hPoison hIn), hAccepts⟩
  · have hEnd : p' = { p with writer := s, world := w, panicked := true } := by
      cases closed with
      | false =>
        cases hRest
        rfl
      | true =>
        rw [if_pos rfl, close_panicked rfl] at hRest
        cases hRest
        rfl
    rw [hEnd]
    exact Or.inl hStill

/-- If nothing is written or synced meanwhile, what is covered in the end was secured at the
call. -/
theorem secured_of_covered (hReach : p.Reachable X) (hClean : Clean ending.env) {held : Bool}
    (hIdle : p.Idle ending) (hRun : p.goOn X ending (!held || ending.released) = .ok p')
    (hCovered : p.acked.CoveredOn p'.world.store) : p.Secured X ending held := by
  cases hAlive : p.panicked with
  | true =>
    rw [goOn_panicked hAlive] at hRun
    cases hRun
    exact Or.inl hCovered
  | false =>
    have hLive := hReach.live hAlive
    rcases goOn_rests hAlive hClean hLive hIdle hRun with hStill | ⟨hClosed, hNone, hAccepts⟩
    · exact Or.inl (hStill.covered hLive.disk hCovered)
    · refine Or.inr ⟨fun hHeld => by simpa [hHeld] using hClosed, hAlive, ?_, hAccepts⟩
      rw [load_eq_zero hIdle.1 hNone]
      exact not_overrun_zero _

end HostedPartition

/-! ## All partitions -/

theorem HostedTopic.shutdown_at {endings : Nat → Ending} {t t' : HostedTopic}
    (hRun : t.shutdown X endings = .ok t') {j : Nat} {p : HostedPartition}
    (hp : t.partitions[j]? = some p) :
    ∃ p', t'.partitions[j]? = some p' ∧
      p.goOn X (endings j) (!p.shared || (endings j).released) = .ok p' := by
  obtain ⟨ps, hps, hEq⟩ := Res.bind_eq_ok.mp hRun
  cases hEq
  have hBody := Res.forEach_ok hps hp
  rwa [Nat.zero_add, HostedPartition.goOn_eq] at hBody

theorem HostedTopic.passedOver_at {endings : Nat → Ending} {t t' : HostedTopic}
    (hRun : t.passedOver X endings = .ok t') {j : Nat} {p : HostedPartition}
    (hp : t.partitions[j]? = some p) :
    ∃ p', t'.partitions[j]? = some p' ∧ p.passedOver X (endings j) = .ok p' := by
  obtain ⟨ps, hps, hEq⟩ := Res.bind_eq_ok.mp hRun
  cases hEq
  have hBody := Res.forEach_ok hps hp
  rwa [Nat.zero_add] at hBody

theorem Broker.shutdown_at {endings : Nat → Nat → Ending} {b b' : Broker}
    (hRun : b.shutdown X endings = .ok b') {i : Nat} {t : HostedTopic}
    (ht : b.topics[i]? = some t) :
    ∃ t', b'.topics[i]? = some t' ∧
      (if t.shared then t.passedOver X (endings i) else t.shutdown X (endings i)) = .ok t' := by
  obtain ⟨ts, hts, hEq⟩ := Res.bind_eq_ok.mp hRun
  cases hEq
  have hBody := Res.forEach_ok hts ht
  rwa [Nat.zero_add] at hBody

/-- What becomes of one partition. -/
theorem Broker.shutdown_partition {endings : Nat → Nat → Ending} {b b' : Broker}
    (hRun : b.shutdown X endings = .ok b') {i j : Nat} {t : HostedTopic} {p : HostedPartition}
    (ht : b.topics[i]? = some t) (hp : t.partitions[j]? = some p) :
    ∃ p', b'.partitionAt i j = some p' ∧
      p.goOn X (endings i j) (!(t.shared || p.shared) || (endings i j).released) = .ok p' := by
  obtain ⟨t', ht', hTopic⟩ := shutdown_at hRun ht
  unfold partitionAt
  rw [ht']
  cases hShared : t.shared with
  | true =>
    rw [if_pos hShared] at hTopic
    exact HostedTopic.passedOver_at hTopic hp
  | false =>
    rw [if_neg (by simp [hShared])] at hTopic
    exact HostedTopic.shutdown_at hTopic hp

/-- `shutdown` returns `Ok` whatever happens. What was acknowledged is durable then if each
partition either needs no further sync or loses its last holder in time, with a writer that is
alive, commands that cannot make it panic and a final sync that succeeds. If the commands neither
write nor sync, it is durable only then. -/
theorem Broker.shutdown_durable {b b' : Broker} (hReach : b.Reachable X)
    {endings : Nat → Nat → Ending} (hClean : ∀ i j, Clean (endings i j).env)
    (hRun : b.shutdown X endings = .ok b') :
    (b.Secured X endings → b.Durable b') ∧
      (b.Idle endings → (b.Durable b' ↔ b.Secured X endings)) := by
  have hEach : ∀ {i j} {t : HostedTopic} {p : HostedPartition}, b.topics[i]? = some t →
      t.partitions[j]? = some p → p.Reachable X := fun ht hp =>
    hReach _ (List.mem_of_getElem? ht) _ (List.mem_of_getElem? hp)
  have hEnough : b.Secured X endings → b.Durable b' := by
    intro hSecured i j p hp
    obtain ⟨t, ht, hp⟩ := Option.bind_eq_some_iff.mp hp
    obtain ⟨p', hp', hPartition⟩ := shutdown_partition hRun ht hp
    have hOne := hSecured i j t p ht hp
    exact ⟨p', hp', HostedPartition.covered_of_secured (hEach ht hp) (hClean i j) hPartition hOne⟩
  refine ⟨hEnough, fun hIdle => ⟨?_, hEnough⟩⟩
  intro hDurable i j t p ht hp
  obtain ⟨p', hp', hPartition⟩ := shutdown_partition hRun ht hp
  obtain ⟨p'', hp'', hCovered⟩ := hDurable i j p (by rw [partitionAt, ht]; exact hp)
  obtain rfl : p' = p'' := Option.some.inj (hp'.symm.trans hp'')
  exact HostedPartition.secured_of_covered (hEach ht hp) (hClean i j) (hIdle i j t p ht hp)
    hPartition hCovered

/-! ## A broker with one record -/

/-- A new log with one record, nothing synced. -/
def oneRecord : Option (Log × World FileName) :=
  match Log.create LogConfig.default Env.quiet () ⟨Store.empty, 0⟩ with
  | (.ok log, _, w) =>
    match LogOp.exec Crates.uncompressed (.append (sampleRecord 1)) Env.quiet log w with
    | (.ok _, log, w) => some (log, w)
    | _ => none
  | _ => none

theorem oneRecord_grown {log : Log} {w : World FileName} (h : oneRecord = some (log, w)) :
    ∃ held, Grown Crates.uncompressed log w held := by
  have hFits : (sampleRecord 1).LengthsFit Crates.uncompressed .none := by
    refine ⟨?_, fun hCodec => by cases hCodec⟩
    decide +kernel
  unfold oneRecord at h
  rcases hCreate : Log.create LogConfig.default Env.quiet () ⟨Store.empty, 0⟩ with ⟨r, u, w₀⟩
  rw [hCreate] at h
  cases r with
  | err e => cases h
  | panic m => cases h
  | crash => cases h
  | ok log₀ =>
    have hGrown : Grown Crates.uncompressed log₀ w₀ [] :=
      Grown.created (fun name => Store.get_empty name) hCreate
    have hConfig : log₀.config = LogConfig.default := by
      cases hCreate
      rfl
    dsimp only at h
    rcases hAppend : LogOp.exec Crates.uncompressed (.append (sampleRecord 1)) Env.quiet log₀ w₀
      with ⟨r', log', w'⟩
    rw [hAppend] at h
    cases r' with
    | err e => cases h
    | panic m => cases h
    | crash => cases h
    | ok reply =>
      cases h
      refine ⟨_, hGrown.accepted (cleanFailures_of_quiet Env.quiet_quiet) ?_ hAppend⟩
      intro r hr
      rw [List.mem_singleton.mp hr, hConfig]
      exact hFits

/-- Nothing arrives, nothing is turned down, and nobody who holds the partition lets go of it. -/
def quietEnding : Ending := ⟨[], [], Env.quiet, Env.quiet, false⟩

/-- The broker of one topic with one partition holding that record. -/
def oneRecordBroker (log : Log) (w : World FileName) (acked : Layout) (shared : Bool) : Broker :=
  ⟨[⟨"orders", [⟨start log [], w, false, false, acked⟩], shared⟩]⟩

theorem oneRecordBroker_reachable {log : Log} {w : World FileName} {acked : Layout}
    (hRun : oneRecord = some (log, w)) (hLive : Live log w.store acked) (shared : Bool) :
    (oneRecordBroker log w acked shared).Reachable Crates.uncompressed := by
  obtain ⟨held, hGrown⟩ := oneRecord_grown hRun
  intro t ht p hp
  rw [List.mem_singleton.mp ht] at hp
  rw [List.mem_singleton.mp hp]
  exact ⟨log, w, held, hGrown, hLive, Or.inl ⟨rfl, rfl⟩⟩

/-- Nobody else refers to the topic, and the record is durable after the shutdown, as it has to be
for an idle partition that is secured. -/
theorem Broker.shutdown_durable_alone :
    ∃ log w acked b', oneRecord = some (log, w) ∧ Live log w.store acked ∧
      (oneRecordBroker log w acked false).shutdown Crates.uncompressed
        (fun _ _ => quietEnding) = .ok b' ∧
      (oneRecordBroker log w acked false).Durable b' ∧
      (oneRecordBroker log w acked false).Secured Crates.uncompressed (fun _ _ => quietEnding) := by
  have hEnds : oneRecord.map (fun state => (finish Env.quiet (start state.1 []) state.2).1) =
      some (.ok ()) := by
    decide +kernel
  obtain ⟨⟨log, w⟩, hRun, hFinish⟩ := Option.map_eq_some_iff.mp hEnds
  obtain ⟨held, hGrown⟩ := oneRecord_grown hRun
  obtain ⟨acked, hLive, -⟩ := (hGrown.filled Crates.lawful_uncompressed).2
  obtain ⟨b', hShutdown⟩ : ∃ b', (oneRecordBroker log w acked false).shutdown
      Crates.uncompressed (fun _ _ => quietEnding) = .ok b' := by
    rcases hEnd : finish Env.quiet (start log []) w with ⟨r, s, w'⟩
    rw [hEnd] at hFinish
    obtain rfl : r = .ok () := hFinish
    refine ⟨⟨[⟨"orders", [⟨s, w', false, false, acked⟩], false⟩]⟩, ?_⟩
    have hOne : HostedPartition.shutdown Crates.uncompressed quietEnding
        ⟨start log [], w, false, false, acked⟩ = .ok ⟨s, w', false, false, acked⟩ := by
      change HostedPartition.run Env.quiet finish ⟨start log [], w, false, false, acked⟩ = _
      simp [HostedPartition.run, hEnd]
    simp [oneRecordBroker, Broker.shutdown, HostedTopic.shutdown, Res.forEach, hOne]
  refine ⟨log, w, acked, b', hRun, hLive, hShutdown, ?_⟩
  obtain ⟨hEnough, hExact⟩ := Broker.shutdown_durable (oneRecordBroker_reachable hRun hLive false)
    (fun _ _ => clean_of_quiet Env.quiet_quiet) hShutdown
  have hAccepts : quietEnding.Accepts acked.active.base := by
    rintro tick ⟨kind, k, hFail⟩
    cases hFail
  have hIdle : (oneRecordBroker log w acked false).Idle (fun _ _ => quietEnding) := by
    intro i j t p ht hp
    rw [List.mem_singleton.mp (List.mem_of_getElem? ht)] at hp
    rw [List.mem_singleton.mp (List.mem_of_getElem? hp)]
    refine ⟨fun command hIn => ?_, Or.inl hAccepts⟩
    cases hIn
  have hDurable : (oneRecordBroker log w acked false).Durable b' := by
    refine hEnough fun i j t p ht hp => ?_
    rw [List.mem_singleton.mp (List.mem_of_getElem? ht)] at hp ⊢
    rw [List.mem_singleton.mp (List.mem_of_getElem? hp)]
    refine Or.inr ⟨fun hHeld => ?_, rfl, not_overrun_zero _, hAccepts⟩
    cases hHeld
  exact ⟨hDurable, (hExact hIdle).mp hDurable⟩

/-- A producer still refers to the topic. The broker shuts down with `Ok`, and no byte of the
acknowledged record has been synced. -/
theorem Broker.shutdown_leaves_record_unsynced :
    ∃ log w acked, oneRecord = some (log, w) ∧
      (oneRecordBroker log w acked true).Reachable Crates.uncompressed ∧
      (oneRecordBroker log w acked true).shutdown Crates.uncompressed
        (fun _ _ => quietEnding) = .ok (oneRecordBroker log w acked true) ∧
      ¬ (oneRecordBroker log w acked true).Durable (oneRecordBroker log w acked true) := by
  have hFacts : oneRecord.map (fun state => (state.1.segments.map fun p => p.segment.baseOffset,
      (state.2.store.get (.log 0)).map fun f => (f.data.length, f.synced))) =
        some ([0], some (26, 0)) := by
    decide +kernel
  obtain ⟨⟨log, w⟩, hRun, hState⟩ := Option.map_eq_some_iff.mp hFacts
  rw [Prod.mk.injEq] at hState
  obtain ⟨hBases, hFile⟩ := hState
  obtain ⟨f, hf, hSizes⟩ := Option.map_eq_some_iff.mp hFile
  rw [Prod.mk.injEq] at hSizes
  obtain ⟨held, hGrown⟩ := oneRecord_grown hRun
  obtain ⟨acked, hLive, -⟩ := (hGrown.filled Crates.lawful_uncompressed).2
  refine ⟨log, w, acked, hRun, oneRecordBroker_reachable hRun hLive true, rfl, ?_⟩
  intro hDurable
  obtain ⟨p', hp', hCovered⟩ := hDurable 0 0 _ rfl
  cases hp'
  obtain ⟨init, active, g, hParts⟩ := hLive.parts
  have hBase : acked.active.base = 0 := by
    have hMem : active.segment.baseOffset ∈ log.segments.map fun p => p.segment.baseOffset :=
      List.mem_map_of_mem (by rw [hParts.split]; simp)
    rw [hBases, List.mem_singleton, hParts.base] at hMem
    exact hMem
  have hSame := hParts.file
  rw [hBase] at hSame
  obtain rfl : f = g := Option.some.inj (hf.symm.trans hSame)
  have hPrefix := hCovered acked.active (by simp [Layout.allChunks]) f (by rw [hBase]; exact hf)
  rw [← hParts.data, hSizes.2, List.take_zero, List.prefix_nil] at hPrefix
  rw [hPrefix] at hSizes
  simp at hSizes

end Kafko
