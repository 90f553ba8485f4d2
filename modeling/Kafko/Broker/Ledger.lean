import Kafko.Storage.Runs
import Kafko.Systems.Simulation
import Mathlib.Logic.Function.Basic

/-!
# The ledger behind a broker

What a data directory is for, without directories, files and bytes: topics by name, each with a
fixed number of pages. A page is an append-only list of records, some first part of which
outlives a stop of the machine. The environment chooses between the ways a call can end, and how
much of a page beyond its durable part is left after a stop.

The second half says what a ledger promises over whole runs: durable records stay until their
topic is deleted, and as long as the machine does not stop nothing is taken back at all.
-/

namespace Kafko

open Disk Systems

/-- What a partition holds. -/
structure Page where
  history : History Record
  /-- So many records outlive a stop of the machine. -/
  durable : Nat
  /-- The machine has stopped, and what is left was not looked at since. -/
  torn : Bool

namespace Page

def blank : Page := ⟨History.empty, 0, false⟩

def tear (p : Page) : Page := { p with torn := true }

/-- How a page answers an operation of its writer. Everything appended so far may become durable
on the way; a sync that succeeds makes it so. If the machine stops, the records of the operation
count as appended. -/
inductive Answers (p : Page) : LogOp → Res KafkoError Reply → Page → Prop
  | accepted {op : LogOp} {reply : Reply} {h : History Record} {n : Nat}
      (hAccepts : p.history.Accepts op reply h) (hDurable : n = p.durable ∨ n = p.history.next)
      (hSync : op = .sync → n = p.history.next) : Answers p op (.ok reply) ⟨h, n, p.torn⟩
  | rejected {op : LogOp} {e : KafkoError} {h : History Record} {n : Nat}
      (hRejects : p.history.Rejects op h) (hDurable : n = p.durable ∨ n = p.history.next) :
      Answers p op (.err e) ⟨h, n, p.torn⟩
  | interrupted {op : LogOp} {h : History Record} {n : Nat}
      (hRecords : h.records = p.history.records ++ op.records)
      (hOldest : p.history.oldest ≤ h.oldest)
      (hRetained : op ≠ .applyRetention → h.oldest = p.history.oldest)
      (hDurable : n = p.durable ∨ n = p.history.next) : Answers p op .crash ⟨h, n, p.torn⟩

/-- The writer ends; `synced` says that no call has failed. -/
structure Closes (synced : Prop) (p p' : Page) : Prop where
  history : p'.history = p.history
  torn : p'.torn = p.torn
  durable : p'.durable = p.history.next ∨ ¬ synced ∧ p'.durable = p.durable

/-- A writer starts: it finds the page as it was, unless the machine has stopped on it. -/
inductive Reopens (p : Page) : Page → Prop
  | whole (hWhole : p.torn = false) : Reopens p p
  | cut {k : Nat} (hTorn : p.torn = true) (hDurable : p.durable ≤ k) (hk : k ≤ p.history.next) :
      Reopens p ⟨p.history.truncate k, p.durable, false⟩

/-- What one step can do to a page of a topic that stays. -/
inductive Moves (p : Page) : Page → Prop
  | stays : Moves p p
  | answers {op : LogOp} {r : Res KafkoError Reply} {p' : Page} (h : p.Answers op r p') : Moves p p'
  | closes {synced : Prop} {p' : Page} (h : Closes synced p p') : Moves p p'
  | reopens {p' : Page} (h : p.Reopens p') : Moves p p'

/-- The durable records are still there, and what is retired stays retired. -/
structure Keeps (p p' : Page) : Prop where
  durable : p.durable ≤ p'.durable
  oldest : p.history.oldest ≤ p'.history.oldest
  records : ∀ o < p.durable, p'.history.records[o]? = p.history.records[o]?

/-- Nothing was lost. -/
def Grows (p p' : Page) : Prop :=
  p.torn = false → p'.torn = false ∧ p.history.records <+: p'.history.records

/-- No more is durable than there is. -/
def Bounded (p : Page) : Prop := p.durable ≤ p.history.next

end Page

/-- The topics with their pages, and whether a broker is running. -/
structure Ledger where
  topics : String → List Page
  up : Bool

/-- A call of the broker and how it ended. -/
inductive Event
  | create (name : String) (partitions : Nat) (r : Res KafkoError Unit)
  | delete (name : String) (r : Res KafkoError Unit)
  | operate (name : String) (i : Nat) (op : LogOp) (r : Res KafkoError Reply)
  /-- `synced` says that no call of the environment failed. -/
  | shutdown (synced : Bool) (r : Res KafkoError Unit)
  | openBroker (r : Res KafkoError Unit)
  | stop
  deriving DecidableEq

/-- The machine stops in the call. -/
def Event.Stops : Event → Prop
  | create _ _ r | delete _ r | shutdown _ r | openBroker r => r = .crash
  | operate _ _ _ r => r = .crash
  | stop => True

namespace Ledger

def empty : Ledger := ⟨fun _ => [], false⟩

def counts (A : Ledger) (name : String) : Nat := (A.topics name).length

def set (A : Ledger) (name : String) (pages : List Page) : Ledger :=
  { A with topics := Function.update A.topics name pages }

def tear (A : Ledger) : Ledger := ⟨fun n => (A.topics n).map Page.tear, false⟩

/-- Why a topic is not created. -/
inductive NotCreated (A : Ledger) (name : String) : Nat → KafkoError → Prop
  | empty : NotCreated A name 0 (.invalidPartitionCount 0)
  | taken {count : Nat} (hCount : 0 < count) (hTaken : A.topics name ≠ []) :
      NotCreated A name count (.topicAlreadyExists name)
  | failed {count : Nat} {e : KafkoError} (hCount : 0 < count) (hNew : A.topics name = []) :
      NotCreated A name count e

/-- Why a topic is not deleted. -/
inductive NotDeleted (A : Ledger) (name : String) : KafkoError → Prop
  | unknown (hNone : A.topics name = []) : NotDeleted A name (.topicNotFound name)
  | held (hKnown : A.topics name ≠ []) : NotDeleted A name (.topicInUse name)

/-- What a call does to the ledger, before the pages are torn by a stop in it. -/
inductive Act (A : Ledger) : Event → Ledger → Prop
  | created {name : String} {count : Nat} {r : Res KafkoError Unit} (hUp : A.up = true)
      (hCount : 0 < count) (hNew : A.topics name = []) (hEnds : r = .ok () ∨ r = .crash) :
      Act A (.create name count r) (A.set name (List.replicate count Page.blank))
  | notCreated {name : String} {count : Nat} {e : KafkoError} (hUp : A.up = true)
      (hWhy : A.NotCreated name count e) : Act A (.create name count (.err e)) A
  | deleted {name : String} (hUp : A.up = true) (hKnown : A.topics name ≠ []) :
      Act A (.delete name (.ok ())) (A.set name [])
  | notDeleted {name : String} {e : KafkoError} (hUp : A.up = true) (hWhy : A.NotDeleted name e) :
      Act A (.delete name (.err e)) A
  | operated {name : String} {i : Nat} {op : LogOp} {r : Res KafkoError Reply} {p p' : Page}
      (hUp : A.up = true) (hPage : (A.topics name)[i]? = some p) (hAnswers : p.Answers op r p') :
      Act A (.operate name i op r) (A.set name ((A.topics name).set i p'))
  | closed {synced : Bool} {topics : String → List Page} (hUp : A.up = true)
      (hPages : ∀ n, List.Forall₂ (Page.Closes (synced = true)) (A.topics n) (topics n)) :
      Act A (.shutdown synced (.ok ())) ⟨topics, false⟩
  | opened {topics : String → List Page} (hDown : A.up = false)
      (hPages : ∀ n, List.Forall₂ Page.Reopens (A.topics n) (topics n)) :
      Act A (.openBroker (.ok ())) ⟨topics, true⟩
  /-- The machine stops before the call has done anything that lasts. -/
  | cutShort {e : Event} (hStops : e.Stops) : Act A e A

/-- A step of the ledger. -/
inductive Step : Ledger → Event → Ledger → Prop
  | runs {A A' : Ledger} {e : Event} (hAct : A.Act e A') (hRuns : ¬ e.Stops) : Step A e A'
  | stops {A A' : Ledger} {e : Event} (hAct : A.Act e A') (hStops : e.Stops) : Step A e A'.tear

/-- The ledgers that start without topics. -/
def system : System Ledger Event := ⟨fun A => A = empty, Step⟩

end Ledger

/-! ## One page -/

namespace Page

variable {p p' p'' : Page}

theorem Keeps.refl (p : Page) : p.Keeps p := ⟨Nat.le_refl _, Nat.le_refl _, fun _ _ => rfl⟩

theorem Keeps.trans (h : p.Keeps p') (h' : p'.Keeps p'') : p.Keeps p'' where
  durable := h.durable.trans h'.durable
  oldest := h.oldest.trans h'.oldest
  records o ho := (h'.records o (ho.trans_le h.durable)).trans (h.records o ho)

theorem Keeps.tear (h : p.Keeps p') : p.Keeps p'.tear := ⟨h.durable, h.oldest, h.records⟩

theorem Grows.refl (p : Page) : p.Grows p := fun hWhole => ⟨hWhole, List.prefix_rfl⟩

theorem Grows.trans (h : p.Grows p') (h' : p'.Grows p'') : p.Grows p'' := by
  intro hWhole
  obtain ⟨hWhole', hPrefix⟩ := h hWhole
  obtain ⟨hWhole'', hPrefix'⟩ := h' hWhole'
  exact ⟨hWhole'', hPrefix.trans hPrefix'⟩

theorem Answers.accepts {op : LogOp} {reply : Reply} (h : p.Answers op (.ok reply) p') :
    p.history.Accepts op reply p'.history ∧ (op = .sync → p'.durable = p.history.next) := by
  cases h with
  | accepted hAccepts _ hSync => exact ⟨hAccepts, hSync⟩

/-- An operation appends its records or none. -/
theorem Answers.records {op : LogOp} {r : Res KafkoError Reply} (h : p.Answers op r p') :
    p'.history.records = p.history.records ++ op.records ∨
      p'.history.records = p.history.records := by
  cases h with
  | accepted hAccepts _ _ => exact Or.inl hAccepts.records
  | rejected hRejects _ => exact Or.inr hRejects.records
  | interrupted hRecords _ _ _ => exact Or.inl hRecords

theorem Answers.longer {op : LogOp} {r : Res KafkoError Reply} (h : p.Answers op r p') :
    p.history.records <+: p'.history.records := by
  rcases h.records with hAppended | hSame
  · rw [hAppended]
    exact List.prefix_append _ _
  · rw [hSame]

theorem Answers.oldest {op : LogOp} {r : Res KafkoError Reply} (h : p.Answers op r p') :
    p.history.oldest ≤ p'.history.oldest := by
  cases h with
  | accepted hAccepts _ _ =>
    cases hAccepts with
    | retain count oldest hLe hNext => exact hLe
    | _ => exact Nat.le_refl _
  | rejected hRejects _ =>
    cases hRejects with
    | unchanged => exact Nat.le_refl _
    | retain oldest hLe hNext => exact hLe
  | interrupted _ hOldest _ _ => exact hOldest

theorem Answers.durable {op : LogOp} {r : Res KafkoError Reply} (h : p.Answers op r p') :
    p'.durable = p.durable ∨ p'.durable = p.history.next := by
  cases h <;> assumption

theorem Answers.torn {op : LogOp} {r : Res KafkoError Reply} (h : p.Answers op r p') :
    p'.torn = p.torn := by
  cases h <;> rfl

theorem Reopens.torn (h : p.Reopens p') : p'.torn = false := by
  cases h with
  | whole hWhole => exact hWhole
  | cut _ _ _ => rfl

theorem Moves.bounded (h : p.Moves p') (hBounded : p.Bounded) : p'.Bounded := by
  unfold Bounded at *
  cases h with
  | stays => exact hBounded
  | answers hAnswers =>
    have hLength : p.history.next ≤ p'.history.next := hAnswers.longer.length_le
    rcases hAnswers.durable with hSame | hAll <;> omega
  | closes hCloses =>
    rw [hCloses.history]
    rcases hCloses.durable with hAll | ⟨-, hSame⟩ <;> omega
  | reopens hReopens =>
    cases hReopens with
    | whole _ => exact hBounded
    | @cut k hTorn hDurable hk =>
      simp only [History.next, History.truncate, List.length_take] at *
      omega

theorem Moves.keeps (h : p.Moves p') (hBounded : p.Bounded) : p.Keeps p' := by
  unfold Bounded at hBounded
  cases h with
  | stays => exact Keeps.refl p
  | answers hAnswers =>
    refine ⟨?_, hAnswers.oldest, ?_⟩
    · rcases hAnswers.durable with hSame | hAll <;> omega
    · intro o ho
      obtain ⟨rest, hRest⟩ := hAnswers.longer
      rw [← hRest, List.getElem?_append_left (ho.trans_le hBounded)]
  | closes hCloses =>
    refine ⟨?_, ?_, ?_⟩
    · rcases hCloses.durable with hAll | ⟨-, hSame⟩ <;> omega
    · rw [hCloses.history]
    · intro o _
      rw [hCloses.history]
  | reopens hReopens =>
    cases hReopens with
    | whole _ => exact Keeps.refl p
    | @cut k hTorn hDurable hk =>
      refine ⟨Nat.le_refl _, Nat.le_refl _, ?_⟩
      intro o ho
      exact List.getElem?_take_of_lt (ho.trans_le hDurable)

end Page

/-! ## Whole runs -/

namespace Ledger

variable {A A' : Ledger} {e : Event} {es : List Event} {n : String}

@[simp] theorem topics_set_self (A : Ledger) (n : String) (ps : List Page) :
    (A.set n ps).topics n = ps := Function.update_self ..

theorem topics_set_ne {m : String} (hNe : n ≠ m) (ps : List Page) :
    (A.set m ps).topics n = A.topics n := Function.update_of_ne hNe ..

theorem topics_tear (A : Ledger) (i : Nat) :
    (A.tear.topics n)[i]? = ((A.topics n)[i]?).map Page.tear := List.getElem?_map ..

/-- Every page of the topic is still there and is in relation to what it was. -/
def Each (R : Page → Page → Prop) (n : String) (A A' : Ledger) : Prop :=
  ∀ (i : Nat) (p : Page), (A.topics n)[i]? = some p → ∃ p', (A'.topics n)[i]? = some p' ∧ R p p'

theorem Each.refl {R : Page → Page → Prop} (hRefl : ∀ p, R p p) (A : Ledger) : Each R n A A :=
  fun _ p hp => ⟨p, hp, hRefl p⟩

theorem Each.trans {R : Page → Page → Prop} (hTrans : ∀ p p' p'', R p p' → R p' p'' → R p p'')
    {A'' : Ledger} (h : Each R n A A') (h' : Each R n A' A'') : Each R n A A'' := by
  intro i p hp
  obtain ⟨p', hp', hR⟩ := h i p hp
  obtain ⟨p'', hp'', hR'⟩ := h' i p' hp'
  exact ⟨p'', hp'', hTrans p p' p'' hR hR'⟩

theorem Each.imp {R R' : Page → Page → Prop} (h : Each R n A A')
    (hImp : ∀ p p', p ∈ A.topics n → R p p' → R' p p') : Each R' n A A' := by
  intro i p hp
  obtain ⟨p', hp', hR⟩ := h i p hp
  exact ⟨p', hp', hImp p p' (List.mem_of_getElem? hp) hR⟩

theorem each_of_forall₂ {R : Page → Page → Prop}
    (h : List.Forall₂ R (A.topics n) (A'.topics n)) : Each R n A A' := by
  intro i p hp
  obtain ⟨hi, hGet⟩ := List.getElem?_eq_some_iff.mp hp
  have hi' : i < (A'.topics n).length := by
    rw [← h.length_eq]
    exact hi
  have hR := (List.forall₂_iff_get.mp h).2 i hi hi'
  rw [List.get_eq_getElem, List.get_eq_getElem, hGet] at hR
  exact ⟨_, List.getElem?_eq_getElem hi', hR⟩

theorem Each.set_of_ne {R : Page → Page → Prop} (hRefl : ∀ p, R p p) {m : String} (hNe : n ≠ m)
    (ps : List Page) : Each R n A (A.set m ps) := by
  intro i p hp
  refine ⟨p, ?_, hRefl p⟩
  rw [topics_set_ne hNe]
  exact hp

/-- What a call does to the pages of a topic that it does not delete. -/
theorem Act.moves (h : A.Act e A') (hStays : e ≠ .delete n (.ok ())) :
    Each Page.Moves n A A' := by
  have hRefl : ∀ p, Page.Moves p p := fun _ => .stays
  cases h with
  | @created name count r hUp hCount hNew hEnds =>
    by_cases hEq : n = name
    · intro i p hp
      rw [hEq, hNew] at hp
      cases hp
    · exact Each.set_of_ne hRefl hEq _
  | notCreated _ _ => exact Each.refl hRefl A
  | @deleted name hUp hKnown =>
    apply Each.set_of_ne hRefl
    rintro rfl
    exact hStays rfl
  | notDeleted _ _ => exact Each.refl hRefl A
  | @operated name i op r p p' hUp hPage hAnswers =>
    by_cases hEq : n = name
    · subst hEq
      intro j q hq
      obtain ⟨hj, -⟩ := List.getElem?_eq_some_iff.mp hq
      rw [topics_set_self]
      by_cases hAt : i = j
      · subst hAt
        rw [hPage] at hq
        cases hq
        exact ⟨p', List.getElem?_set_self hj, .answers hAnswers⟩
      · rw [List.getElem?_set_ne hAt]
        exact ⟨q, hq, .stays⟩
    · exact Each.set_of_ne hRefl hEq _
  | closed _ hPages => exact each_of_forall₂ ((hPages n).imp fun _ _ h => .closes h)
  | opened _ hPages => exact each_of_forall₂ ((hPages n).imp fun _ _ h => .reopens h)
  | cutShort _ => exact Each.refl hRefl A

/-- A step moves the pages of a topic, and may tear them. -/
theorem Step.moves (h : A.Step e A') (hStays : e ≠ .delete n (.ok ())) :
    Each (fun p p' => ∃ p₁, p.Moves p₁ ∧ (p' = p₁ ∨ e.Stops ∧ p' = p₁.tear)) n A A' := by
  cases h with
  | runs hAct _ => exact (hAct.moves hStays).imp fun _ p' _ h => ⟨p', h, Or.inl rfl⟩
  | stops hAct hStops =>
    intro i p hp
    obtain ⟨p₁, hp₁, hMoves⟩ := hAct.moves hStays i p hp
    refine ⟨p₁.tear, ?_, p₁, hMoves, Or.inr ⟨hStops, rfl⟩⟩
    rw [topics_tear, hp₁, Option.map_some]

/-- No page has more durable records than records. -/
def Bounded (A : Ledger) : Prop := ∀ n, ∀ p ∈ A.topics n, p.Bounded

theorem Bounded.tear (h : A.Bounded) : A.tear.Bounded := by
  intro n p hp
  obtain ⟨q, hq, rfl⟩ := List.mem_map.mp hp
  exact h n q hq

theorem Bounded.set (h : A.Bounded) {ps : List Page} (hPages : ∀ p ∈ ps, p.Bounded) :
    (A.set n ps).Bounded := by
  intro m p hp
  by_cases hEq : m = n
  · rw [hEq, topics_set_self] at hp
    exact hPages p hp
  · rw [topics_set_ne hEq] at hp
    exact h m p hp

theorem bounded_of_forall₂ {R : Page → Page → Prop} (h : A.Bounded) {up : Bool}
    {topics : String → List Page} (hPages : ∀ n, List.Forall₂ R (A.topics n) (topics n))
    (hMoves : ∀ p p', R p p' → p.Moves p') : Bounded ⟨topics, up⟩ := by
  intro n p' hp'
  obtain ⟨i, hi⟩ := List.getElem?_of_mem hp'
  obtain ⟨hLt, -⟩ := List.getElem?_eq_some_iff.mp hi
  have hLt' : i < (A.topics n).length := by
    rw [(hPages n).length_eq]
    exact hLt
  have hp : (A.topics n)[i]? = some (A.topics n)[i] := List.getElem?_eq_getElem hLt'
  have hEach : Each R n A ⟨topics, up⟩ := each_of_forall₂ (hPages n)
  obtain ⟨p'', hp'', hR⟩ := hEach i _ hp
  rw [hi] at hp''
  cases hp''
  exact (hMoves _ _ hR).bounded (h n _ (List.mem_of_getElem? hp))

theorem Act.bounded (h : A.Act e A') (hBounded : A.Bounded) : A'.Bounded := by
  cases h with
  | created _ _ _ _ =>
    apply hBounded.set
    intro p hp
    rw [List.eq_of_mem_replicate hp]
    exact Nat.le_refl 0
  | notCreated _ _ => exact hBounded
  | deleted _ _ => exact hBounded.set fun p hp => absurd hp List.not_mem_nil
  | notDeleted _ _ => exact hBounded
  | @operated name i op r p p' hUp hPage hAnswers =>
    apply hBounded.set
    intro q hq
    rcases List.mem_or_eq_of_mem_set hq with hOld | rfl
    · exact hBounded name q hOld
    · exact (Page.Moves.answers hAnswers).bounded (hBounded name p (List.mem_of_getElem? hPage))
  | closed _ hPages => exact bounded_of_forall₂ hBounded hPages fun _ _ h => .closes h
  | opened _ hPages => exact bounded_of_forall₂ hBounded hPages fun _ _ h => .reopens h
  | cutShort _ => exact hBounded

theorem Step.bounded (h : A.Step e A') (hBounded : A.Bounded) : A'.Bounded := by
  cases h with
  | runs hAct _ => exact hAct.bounded hBounded
  | stops hAct _ => exact (hAct.bounded hBounded).tear

/-- A broker that is running has looked at every page. -/
def Whole (A : Ledger) : Prop := A.up = true → ∀ n, ∀ p ∈ A.topics n, p.torn = false

theorem Whole.set (h : A.Whole) (hUp : A.up = true) {ps : List Page}
    (hPages : ∀ p ∈ ps, p.torn = false) : (A.set n ps).Whole := by
  intro _ m p hp
  by_cases hEq : m = n
  · rw [hEq, topics_set_self] at hp
    exact hPages p hp
  · rw [topics_set_ne hEq] at hp
    exact h hUp m p hp

theorem Act.whole (h : A.Act e A') (hWhole : A.Whole) : A'.Whole := by
  cases h with
  | created hUp _ _ _ =>
    apply hWhole.set hUp
    intro p hp
    rw [List.eq_of_mem_replicate hp]
    rfl
  | notCreated _ _ => exact hWhole
  | deleted hUp _ => exact hWhole.set hUp fun p hp => absurd hp List.not_mem_nil
  | notDeleted _ _ => exact hWhole
  | @operated name i op r p p' hUp hPage hAnswers =>
    apply hWhole.set hUp
    intro q hq
    rcases List.mem_or_eq_of_mem_set hq with hOld | rfl
    · exact hWhole hUp name q hOld
    · exact hAnswers.torn.trans (hWhole hUp name p (List.mem_of_getElem? hPage))
  | closed _ _ => exact fun hUp => Bool.noConfusion hUp
  | @opened topics hDown hPages =>
    intro _ m p' hp'
    obtain ⟨i, hi⟩ := List.getElem?_of_mem hp'
    obtain ⟨hLt, hGet⟩ := List.getElem?_eq_some_iff.mp hi
    have hLt' : i < (A.topics m).length := by
      rw [(hPages m).length_eq]
      exact hLt
    have hReopens := (List.forall₂_iff_get.mp (hPages m)).2 i hLt' hLt
    rw [List.get_eq_getElem, List.get_eq_getElem, hGet] at hReopens
    exact hReopens.torn
  | cutShort _ => exact hWhole

theorem Step.whole (h : A.Step e A') (hWhole : A.Whole) : A'.Whole := by
  cases h with
  | runs hAct _ => exact hAct.whole hWhole
  | stops _ _ => exact fun hUp => Bool.noConfusion hUp

/-- A step in which an operation returns. -/
theorem Step.operated {i : Nat} {op : LogOp} {r : Res KafkoError Reply}
    (h : A.Step (.operate n i op r) A') (hRuns : r ≠ .crash) :
    A.up = true ∧ ∃ p p', (A.topics n)[i]? = some p ∧ (A'.topics n)[i]? = some p' ∧
      p.Answers op r p' := by
  cases h with
  | stops _ hStops => exact absurd hStops hRuns
  | runs hAct _ =>
    cases hAct with
    | cutShort hStops => exact absurd hStops hRuns
    | @operated _ _ _ _ p p' hUp hPage hAnswers =>
      obtain ⟨hi, -⟩ := List.getElem?_eq_some_iff.mp hPage
      refine ⟨hUp, p, p', hPage, ?_, hAnswers⟩
      rw [topics_set_self]
      exact List.getElem?_set_self hi

end Ledger

end Kafko
