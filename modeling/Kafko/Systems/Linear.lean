import Kafko.Systems.Simulation
import Mathlib.Data.List.Induction
import Mathlib.Data.List.Nodup
import Mathlib.Data.List.Perm.Subperm
import Mathlib.Data.List.ReduceOption

/-!
# Servers that take their calls in order

Clients call an object from many sides at once, and now and then it changes by itself. What can be
observed of it is a history: calls that are made, calls that return, and changes. `Linearizable`
says that the answers are those of some order of the calls, one at a time, in which a call that
returned before another one was made comes first, and in which the object changes only when the
history says so and as it says. A server that queues its calls and answers the queue from the
front, as many at once as it likes, is linearizable in the order of its queue
(`fifo_linearizable`), whatever the object is and however calls are delayed on their way into the
queue and replies on their way out.
-/

namespace Systems

/-- An object for one client at a time: `answers s c r s'` if in state `s` the call `c` may return
`r` and leave `s'`, and `moves s m s'` if it may change by itself to `s'`, which shows as `m`. -/
structure Object (σ κ ρ μ : Type*) where
  answers : σ → κ → ρ → σ → Prop
  moves : σ → μ → σ → Prop

/-- A call that was answered. -/
structure Served (ι κ ρ : Type*) where
  id : ι
  call : κ
  answer : ρ

/-- What the object does. -/
inductive Deed (ι κ ρ μ : Type*)
  | served (op : Served ι κ ρ)
  | moved (m : μ)

/-- What an observer sees. -/
inductive Moment (ι κ ρ μ : Type*)
  | invoked (id : ι) (call : κ)
  | returned (id : ι) (answer : ρ)
  | moved (m : μ)

variable {σ ι κ ρ μ : Type*}

namespace Deed

def call? : Deed ι κ ρ μ → Option (Served ι κ ρ)
  | served op => some op
  | moved _ => none

def move? : Deed ι κ ρ μ → Option μ
  | served _ => none
  | moved m => some m

/-- The calls among the deeds. -/
def calls (ds : List (Deed ι κ ρ μ)) : List (Served ι κ ρ) := ds.filterMap call?

/-- The changes among the deeds. -/
def changes (ds : List (Deed ι κ ρ μ)) : List μ := ds.filterMap move?

variable {ds ds' : List (Deed ι κ ρ μ)} {op : Served ι κ ρ} {ops : List (Served ι κ ρ)} {m : μ}

@[simp] theorem calls_append : calls (ds ++ ds') = calls ds ++ calls ds' := List.filterMap_append

@[simp] theorem changes_append : changes (ds ++ ds') = changes ds ++ changes ds' :=
  List.filterMap_append

@[simp] theorem calls_cons_served : calls (.served op :: ds) = op :: calls ds := rfl

@[simp] theorem calls_cons_moved : calls (.moved m :: ds) = calls ds := rfl

@[simp] theorem changes_cons_moved : changes (.moved m :: ds) = m :: changes ds := rfl

@[simp] theorem calls_served : calls (ops.map (served (μ := μ))) = ops := by
  induction ops with
  | nil => rfl
  | cons op ops ih => rw [List.map_cons, calls_cons_served, ih]

@[simp] theorem changes_served : changes (ops.map (served (μ := μ))) = [] := by
  induction ops with
  | nil => rfl
  | cons op ops ih => exact ih

@[simp] theorem calls_nil : calls ([] : List (Deed ι κ ρ μ)) = [] := rfl

@[simp] theorem changes_nil : changes ([] : List (Deed ι κ ρ μ)) = [] := rfl

theorem mem_calls : op ∈ calls ds ↔ .served op ∈ ds := by
  rw [calls, List.mem_filterMap]
  constructor
  · rintro ⟨d, hd, hCall⟩
    cases d with
    | served op' => exact Option.some.inj hCall ▸ hd
    | moved m => cases hCall
  · exact fun h => ⟨_, h, rfl⟩

end Deed

/-- The changes a history shows. -/
def Moment.change? : Moment ι κ ρ μ → Option μ
  | moved m => some m
  | _ => none

namespace Object

/-- The object does one thing after the other. -/
inductive Sequential (O : Object σ κ ρ μ) : σ → List (Deed ι κ ρ μ) → σ → Prop
  | refl (s : σ) : Sequential O s [] s
  | moves {s s' s'' : σ} {ds : List (Deed ι κ ρ μ)} {m : μ} (hRest : Sequential O s ds s')
      (hMove : O.moves s' m s'') : Sequential O s (ds ++ [.moved m]) s''
  | answers {s s' s'' : σ} {ds : List (Deed ι κ ρ μ)} {op : Served ι κ ρ}
      (hRest : Sequential O s ds s') (hAnswer : O.answers s' op.call op.answer s'') :
      Sequential O s (ds ++ [.served op]) s''

/-- The object answers calls one after the other and does nothing else. -/
def Serves (O : Object σ κ ρ μ) (s : σ) (ops : List (Served ι κ ρ)) (s' : σ) : Prop :=
  O.Sequential s (ops.map Deed.served) s'

theorem Sequential.append {O : Object σ κ ρ μ} {s s' s'' : σ} {ds ds' : List (Deed ι κ ρ μ)}
    (h : O.Sequential s ds s') (h' : O.Sequential s' ds' s'') :
    O.Sequential s (ds ++ ds') s'' := by
  induction h' with
  | refl => rwa [List.append_nil]
  | moves _ hMove ih =>
    rw [← List.append_assoc]
    exact .moves ih hMove
  | answers _ hAnswer ih =>
    rw [← List.append_assoc]
    exact .answers ih hAnswer

theorem Serves.nil {O : Object σ κ ρ μ} (s : σ) : O.Serves s ([] : List (Served ι κ ρ)) s := .refl s

theorem Serves.one {O : Object σ κ ρ μ} {s s' : σ} {op : Served ι κ ρ}
    (h : O.answers s op.call op.answer s') : O.Serves s [op] s' := .answers (.refl s) h

theorem Serves.append {O : Object σ κ ρ μ} {s s' s'' : σ} {ops ops' : List (Served ι κ ρ)}
    (h : O.Serves s ops s') (h' : O.Serves s' ops' s'') : O.Serves s (ops ++ ops') s'' := by
  rw [Serves, List.map_append]
  exact Sequential.append h h'

theorem Sequential.split {O : Object σ κ ρ μ} {s s'' : σ} {ds ds' : List (Deed ι κ ρ μ)}
    (h : O.Sequential s (ds ++ ds') s'') :
    ∃ s', O.Sequential s ds s' ∧ O.Sequential s' ds' s'' := by
  induction ds' using List.reverseRecOn generalizing s'' with
  | nil => exact ⟨s'', by rwa [List.append_nil] at h, .refl s''⟩
  | append_singleton ds' d ih =>
    rw [← List.append_assoc] at h
    generalize hAll : ds ++ ds' ++ [d] = all at h
    cases h with
    | refl => simp at hAll
    | moves hRest hMove =>
      obtain ⟨rfl, hLast⟩ := List.append_inj' hAll rfl
      obtain rfl := (List.cons.inj hLast).1
      obtain ⟨s', hFirst, hSecond⟩ := ih hRest
      exact ⟨s', hFirst, .moves hSecond hMove⟩
    | answers hRest hAnswer =>
      obtain ⟨rfl, hLast⟩ := List.append_inj' hAll rfl
      obtain rfl := (List.cons.inj hLast).1
      obtain ⟨s', hFirst, hSecond⟩ := ih hRest
      exact ⟨s', hFirst, .answers hSecond hAnswer⟩

/-- The moment at which a call is answered. -/
theorem Sequential.at {O : Object σ κ ρ μ} {s s'' : σ} {ds ds' : List (Deed ι κ ρ μ)}
    {op : Served ι κ ρ} (h : O.Sequential s (ds ++ .served op :: ds') s'') :
    ∃ s₁ s₂, O.Sequential s ds s₁ ∧ O.answers s₁ op.call op.answer s₂ ∧
      O.Sequential s₂ ds' s'' := by
  rw [List.append_cons] at h
  obtain ⟨s', hFront, hBack⟩ := h.split
  generalize hAll : ds ++ [.served op] = all at hFront
  cases hFront with
  | refl => simp at hAll
  | moves hRest hMove =>
    obtain ⟨-, hLast⟩ := List.append_inj' hAll rfl
    cases (List.cons.inj hLast).1
  | answers hRest hAnswer =>
    obtain ⟨rfl, hLast⟩ := List.append_inj' hAll rfl
    cases (List.cons.inj hLast).1
    exact ⟨_, _, hRest, hAnswer, hBack⟩

/-- What every step of the object keeps. -/
theorem Sequential.related {O : Object σ κ ρ μ} {R : σ → σ → Prop} (hRefl : ∀ s, R s s)
    (hTrans : ∀ s s' s'', R s s' → R s' s'' → R s s'')
    (hMoves : ∀ s m s', O.moves s m s' → R s s')
    (hAnswers : ∀ s c r s', O.answers s c r s' → R s s') {s s' : σ} {ds : List (Deed ι κ ρ μ)}
    (h : O.Sequential s ds s') : R s s' := by
  induction h with
  | refl => exact hRefl _
  | moves _ hMove ih => exact hTrans _ _ _ ih (hMoves _ _ _ hMove)
  | answers _ hAnswer ih => exact hTrans _ _ _ ih (hAnswers _ _ _ _ hAnswer)

end Object

/-- The call `a` had returned when `b` was made. -/
def Before (history : List (Moment ι κ ρ μ)) (a b : ι) : Prop :=
  ∃ h₁ h₂ r c, history = h₁ ++ .returned a r :: h₂ ∧ .invoked b c ∈ h₂

/-- The deeds that a history is about: the changes it shows, calls that were made, and all that
have returned, with their answers. -/
structure Accounts (history : List (Moment ι κ ρ μ)) (order : List (Deed ι κ ρ μ)) : Prop where
  changes : Deed.changes order = history.filterMap Moment.change?
  invoked : ∀ op ∈ Deed.calls order, .invoked op.id op.call ∈ history
  returned : ∀ id r, .returned id r ∈ history →
    ∃ op ∈ Deed.calls order, op.id = id ∧ op.answer = r

/-- The calls and changes of a history, in an order in which the object could have done them one at
a time. A change stands behind the calls that had returned when it was seen, and in front of those
that were made later. -/
structure Linearizable (O : Object σ κ ρ μ) (start : σ) (history : List (Moment ι κ ρ μ))
    (order : List (Deed ι κ ρ μ)) : Prop where
  sequential : ∃ s, O.Sequential start order s
  once : ((Deed.calls order).map Served.id).Nodup
  unique : ∀ id c c', .invoked id c ∈ history → .invoked id c' ∈ history → c = c'
  accounts : Accounts history order
  respects : ∀ a ∈ Deed.calls order, ∀ b ∈ Deed.calls order, Before history a.id b.id →
    ∃ o₁ o₂, order = o₁ ++ .served a :: o₂ ∧ b ∈ Deed.calls o₂
  changed : ∀ h₁ m h₂, history = h₁ ++ .moved m :: h₂ →
    ∃ o₁ o₂, order = o₁ ++ .moved m :: o₂ ∧ Accounts h₁ o₁

theorem Before.of_append {history : List (Moment ι κ ρ μ)} {m : Moment ι κ ρ μ} {a b : ι}
    (h : Before (history ++ [m]) a b) : Before history a b ∨ ∃ c, m = .invoked b c := by
  obtain ⟨h₁, h₂, r, c, hSplit, hMem⟩ := h
  rcases List.eq_nil_or_concat h₂ with rfl | ⟨h₃, last, rfl⟩
  · cases hMem
  · rw [List.concat_eq_append, ← List.cons_append, ← List.append_assoc] at hSplit
    obtain ⟨hInit, hLast⟩ := List.append_inj' hSplit rfl
    rw [List.concat_eq_append] at hMem
    rcases List.mem_append.mp hMem with hEarly | hHere
    · exact Or.inl ⟨h₁, h₃, r, c, hInit, hEarly⟩
    · refine Or.inr ⟨c, ?_⟩
      rw [List.mem_singleton.mp hHere]
      exact (List.cons.inj hLast).1

/-- A change in a longer history is the last moment or an earlier one. -/
theorem changed_cases {history h₁ h₂ : List (Moment ι κ ρ μ)} {x : Moment ι κ ρ μ} {m : μ}
    (h : history ++ [x] = h₁ ++ .moved m :: h₂) :
    (h₁ = history ∧ x = .moved m) ∨ ∃ h₃, history = h₁ ++ .moved m :: h₃ := by
  rcases List.eq_nil_or_concat h₂ with rfl | ⟨h₃, last, rfl⟩
  · obtain ⟨hInit, hLast⟩ := List.append_inj' h rfl
    exact Or.inl ⟨hInit.symm, (List.cons.inj hLast).1⟩
  · rw [List.concat_eq_append, ← List.cons_append, ← List.append_assoc] at h
    exact Or.inr ⟨h₃, (List.append_inj' h rfl).1⟩

/-! ## Queues -/

/-- The calls on their way to the server, in its queue, and answered but not returned. -/
structure Fifo (σ ι κ ρ : Type*) where
  state : σ
  issued : List ι
  waiting : List (ι × κ)
  queue : List (ι × κ)
  replies : List (ι × ρ)

namespace Fifo

def initial (s : σ) : Fifo σ ι κ ρ := ⟨s, [], [], [], []⟩

inductive Step (O : Object σ κ ρ μ) :
    Fifo σ ι κ ρ → Option (Moment ι κ ρ μ) → Fifo σ ι κ ρ → Prop
  | invoke {q : Fifo σ ι κ ρ} {id : ι} {call : κ} (hNew : id ∉ q.issued) :
      Step O q (some (.invoked id call))
        { q with issued := id :: q.issued, waiting := q.waiting ++ [(id, call)] }
  /-- A call gets into the queue. -/
  | enter {q : Fifo σ ι κ ρ} {x : ι × κ} {l l' : List (ι × κ)} (hCall : q.waiting = l ++ x :: l') :
      Step O q none { q with waiting := l ++ l', queue := q.queue ++ [x] }
  /-- A client gives up before its call is in the queue. -/
  | giveUp {q : Fifo σ ι κ ρ} {x : ι × κ} {l l' : List (ι × κ)} (hCall : q.waiting = l ++ x :: l') :
      Step O q none { q with waiting := l ++ l' }
  /-- The server answers some calls from the front of its queue. -/
  | serve {q : Fifo σ ι κ ρ} {s' : σ} {ops : List (Served ι κ ρ)} {rest : List (ι × κ)}
      (hQueue : q.queue = ops.map (fun op => (op.id, op.call)) ++ rest)
      (hAnswers : O.Serves q.state ops s') :
      Step O q none { q with
        state := s', queue := rest, replies := q.replies ++ ops.map fun op => (op.id, op.answer) }
  /-- The object changes by itself. -/
  | move {q : Fifo σ ι κ ρ} {m : μ} {s' : σ} (hMove : O.moves q.state m s') :
      Step O q (some (.moved m)) { q with state := s' }
  | deliver {q : Fifo σ ι κ ρ} {id : ι} {r : ρ} {l l' : List (ι × ρ)}
      (hReply : q.replies = l ++ (id, r) :: l') :
      Step O q (some (.returned id r)) { q with replies := l ++ l' }
  /-- A reply nobody waits for any more. -/
  | discard {q : Fifo σ ι κ ρ} {x : ι × ρ} {l l' : List (ι × ρ)}
      (hReply : q.replies = l ++ x :: l') : Step O q none { q with replies := l ++ l' }

def system (O : Object σ κ ρ μ) (start : σ) :
    System (Fifo σ ι κ ρ) (Option (Moment ι κ ρ μ)) :=
  ⟨fun q => q = initial start, Step O⟩

/-- The order of the queue linearizes what has been seen so far. -/
structure Inv (O : Object σ κ ρ μ) (start : σ) (history : List (Moment ι κ ρ μ))
    (order : List (Deed ι κ ρ μ)) (q : Fifo σ ι κ ρ) : Prop where
  linearizable : Linearizable O start history order
  state : O.Sequential start order q.state
  distinct : ((Deed.calls order).map Served.id ++ (q.queue ++ q.waiting).map Prod.fst).Nodup
  issued : ∀ id ∈ (Deed.calls order).map Served.id ++ (q.queue ++ q.waiting).map Prod.fst,
    id ∈ q.issued
  seen : ∀ id c, .invoked id c ∈ history → id ∈ q.issued
  called : ∀ x ∈ q.queue ++ q.waiting, .invoked x.1 x.2 ∈ history
  answered : ∀ x ∈ q.replies, ∃ op ∈ Deed.calls order, op.id = x.1 ∧ op.answer = x.2

variable {O : Object σ κ ρ μ} {start : σ} {history : List (Moment ι κ ρ μ)}
  {order : List (Deed ι κ ρ μ)} {q q' : Fifo σ ι κ ρ} {m : Moment ι κ ρ μ}

theorem Inv.initial : Inv O start ([] : List (Moment ι κ ρ μ)) [] (initial start) := by
  refine ⟨⟨⟨start, .refl start⟩, ?_, ?_, ⟨?_, ?_, ?_⟩, ?_, ?_⟩, .refl start, ?_, ?_, ?_, ?_, ?_⟩ <;>
    simp [Fifo.initial]

theorem mem_of_split {α : Type*} {l l' : List α} {x y : α} (h : y ∈ l ++ l') : y ∈ l ++ x :: l' := by
  rcases List.mem_append.mp h with hLeft | hRight
  · exact List.mem_append_left _ hLeft
  · exact List.mem_append_right _ (List.mem_cons_of_mem _ hRight)

/-- A moment that is no change and no call of an answered operation changes no order. -/
theorem Inv.observe (h : Inv O start history order q) (hStill : m.change? = none)
    (hNew : ∀ id c, m = .invoked id c → id ∉ q.issued)
    (hReturned : ∀ id r, m = .returned id r →
      ∃ op ∈ Deed.calls order, op.id = id ∧ op.answer = r) :
    Linearizable O start (history ++ [m]) order where
  sequential := h.linearizable.sequential
  once := h.linearizable.once
  unique id c c' hc hc' := by
    rcases List.mem_append.mp hc with hOld | hHere <;> rcases List.mem_append.mp hc' with hOld' | hHere'
    · exact h.linearizable.unique id c c' hOld hOld'
    · exact absurd (h.seen id c hOld) (hNew id c' (List.mem_singleton.mp hHere').symm)
    · exact absurd (h.seen id c' hOld') (hNew id c (List.mem_singleton.mp hHere).symm)
    · have hSame := (List.mem_singleton.mp hHere).trans (List.mem_singleton.mp hHere').symm
      exact (Moment.invoked.inj hSame).2
  accounts := by
    refine ⟨?_, ?_, ?_⟩
    · rw [h.linearizable.accounts.changes, List.filterMap_append, List.filterMap_cons_none hStill,
        List.filterMap_nil, List.append_nil]
    · exact fun op hop => List.mem_append_left _ (h.linearizable.accounts.invoked op hop)
    · intro id r hMem
      rcases List.mem_append.mp hMem with hOld | hHere
      · exact h.linearizable.accounts.returned id r hOld
      · exact hReturned id r (List.mem_singleton.mp hHere).symm
  respects a ha b hb hBefore := by
    rcases hBefore.of_append with hOld | ⟨c, hMoment⟩
    · exact h.linearizable.respects a ha b hb hOld
    · have hIssued := h.issued b.id (List.mem_append_left _ (List.mem_map_of_mem hb))
      exact absurd hIssued (hNew b.id c hMoment)
  changed h₁ x h₂ hSplit := by
    rcases changed_cases hSplit with ⟨-, rfl⟩ | ⟨h₃, hOld⟩
    · cases hStill
    · exact h.linearizable.changed h₁ x h₃ hOld

/-- Calls that are no longer pending are not missed. -/
theorem Inv.drop (h : Inv O start history order q) {waiting queue : List (ι × κ)}
    (hSub : (queue ++ waiting).Subperm (q.queue ++ q.waiting)) :
    Inv O start history order { q with queue := queue, waiting := waiting } := by
  have hIds : ((Deed.calls order).map Served.id ++ (queue ++ waiting).map Prod.fst).Subperm
      ((Deed.calls order).map Served.id ++ (q.queue ++ q.waiting).map Prod.fst) := by
    obtain ⟨l, hPerm, hList⟩ := hSub
    refine ⟨(Deed.calls order).map Served.id ++ l.map Prod.fst, ?_, ?_⟩
    · exact (hPerm.map Prod.fst).append_left _
    · exact (hList.map Prod.fst).append_left _
  refine ⟨h.linearizable, h.state, ?_, ?_, h.seen, ?_, h.answered⟩
  · obtain ⟨l, hPerm, hList⟩ := hIds
    exact hPerm.nodup_iff.mp (h.distinct.sublist hList)
  · exact fun id hid => h.issued id (hIds.subset hid)
  · exact fun x hx => h.called x (hSub.subset hx)

theorem Inv.step (h : Inv O start history order q) {l : Option (Moment ι κ ρ μ)}
    (hStep : Step O q l q') : ∃ order', Inv O start (history ++ l.toList) order' q' := by
  cases hStep with
  | @invoke id call hNew =>
    have hApart : ∀ x ∈ (Deed.calls order).map Served.id ++
        (q.queue ++ q.waiting).map Prod.fst, x ≠ id := by
      rintro x hx rfl
      exact hNew (h.issued x hx)
    have hIds : (Deed.calls order).map Served.id ++
        (q.queue ++ (q.waiting ++ [(id, call)])).map Prod.fst =
        (Deed.calls order).map Served.id ++ (q.queue ++ q.waiting).map Prod.fst ++ [id] := by
      simp
    refine ⟨order, h.observe rfl ?_ ?_, h.state, ?_, ?_, ?_, ?_, h.answered⟩
    · intro id' c hMoment
      cases hMoment
      exact hNew
    · intro id' r hMoment
      cases hMoment
    · rw [hIds, List.nodup_append]
      refine ⟨h.distinct, by simp, ?_⟩
      intro x hx y hy
      rw [List.mem_singleton.mp hy]
      exact hApart x hx
    · rw [hIds]
      intro x hx
      rcases List.mem_append.mp hx with hOld | hHere
      · exact List.mem_cons_of_mem _ (h.issued x hOld)
      · rw [List.mem_singleton.mp hHere]
        exact List.mem_cons_self
    · intro id' c hMem
      rcases List.mem_append.mp hMem with hOld | hHere
      · exact List.mem_cons_of_mem _ (h.seen id' c hOld)
      · cases List.mem_singleton.mp hHere
        exact List.mem_cons_self
    · intro x hx
      rw [← List.append_assoc] at hx
      rcases List.mem_append.mp hx with hOld | hHere
      · exact List.mem_append_left _ (h.called x hOld)
      · rw [List.mem_singleton.mp hHere]
        exact List.mem_append_right _ List.mem_cons_self
  | @enter x l l' hCall =>
    refine ⟨order, ?_⟩
    rw [Option.toList_none, List.append_nil]
    apply h.drop
    rw [hCall, List.append_assoc, List.singleton_append]
    exact (List.perm_middle.symm.append_left _).subperm
  | @giveUp x l l' hCall =>
    refine ⟨order, ?_⟩
    rw [Option.toList_none, List.append_nil]
    apply h.drop
    rw [hCall]
    exact (((List.sublist_cons_self x l').append_left l).append_left q.queue).subperm
  | @serve s' ops rest hQueue hAnswers =>
    refine ⟨order ++ ops.map .served, ?_⟩
    rw [Option.toList_none, List.append_nil]
    have hState := h.state.append hAnswers
    have hCalls : Deed.calls (order ++ ops.map .served) = Deed.calls order ++ ops := by simp
    have hIds : (Deed.calls order ++ ops).map Served.id ++ (rest ++ q.waiting).map Prod.fst =
        (Deed.calls order).map Served.id ++ (q.queue ++ q.waiting).map Prod.fst := by
      simp [hQueue, Function.comp_def]
    have hOnce : ((Deed.calls order ++ ops).map Served.id).Nodup := by
      have hDistinct := h.distinct
      rw [← hIds] at hDistinct
      exact (List.nodup_append.mp hDistinct).1
    have hAccounts : Accounts history (order ++ ops.map .served) := by
      refine ⟨?_, ?_, ?_⟩
      · simp [h.linearizable.accounts.changes]
      · intro op hop
        rw [hCalls] at hop
        rcases List.mem_append.mp hop with hOld | hNew
        · exact h.linearizable.accounts.invoked op hOld
        · apply h.called (op.id, op.call)
          rw [hQueue]
          exact List.mem_append_left _ (List.mem_append_left _ (List.mem_map_of_mem hNew))
      · intro id r hMem
        obtain ⟨op, hop, hEq⟩ := h.linearizable.accounts.returned id r hMem
        exact ⟨op, by rw [hCalls]; exact List.mem_append_left _ hop, hEq⟩
    refine ⟨⟨⟨s', hState⟩, hCalls ▸ hOnce, h.linearizable.unique, hAccounts, ?_, ?_⟩, hState, ?_, ?_,
      h.seen, ?_, ?_⟩
    · intro a ha b hb hBefore
      rw [hCalls] at ha hb
      -- a call that has returned was answered before
      obtain ⟨h₁, h₂, r, c, hSplit, -⟩ := id hBefore
      have hReturned : .returned a.id r ∈ history := by
        rw [hSplit]
        exact List.mem_append_right _ List.mem_cons_self
      obtain ⟨op, hop, hEq, -⟩ := h.linearizable.accounts.returned a.id r hReturned
      have hSame : op = a :=
        List.inj_on_of_nodup_map hOnce (List.mem_append_left _ hop) ha hEq
      subst hSame
      rcases List.mem_append.mp hb with hOld | hNew
      · obtain ⟨o₁, o₂, hOrder, hMem⟩ := h.linearizable.respects op hop b hOld hBefore
        refine ⟨o₁, o₂ ++ ops.map .served, ?_, ?_⟩
        · rw [hOrder, List.append_assoc, List.cons_append]
        · rw [Deed.calls_append]
          exact List.mem_append_left _ hMem
      · obtain ⟨o₁, o₂, hOrder⟩ := List.append_of_mem (Deed.mem_calls.mp hop)
        refine ⟨o₁, o₂ ++ ops.map .served, ?_, ?_⟩
        · rw [hOrder, List.append_assoc, List.cons_append]
        · rw [Deed.calls_append, Deed.calls_served]
          exact List.mem_append_right _ hNew
    · intro h₁ m h₂ hSplit
      obtain ⟨o₁, o₂, hOrder, hFirst⟩ := h.linearizable.changed h₁ m h₂ hSplit
      refine ⟨o₁, o₂ ++ ops.map .served, ?_, hFirst⟩
      rw [hOrder, List.append_assoc, List.cons_append]
    · rw [hCalls, hIds]
      exact h.distinct
    · rw [hCalls, hIds]
      exact h.issued
    · intro x hx
      apply h.called
      rcases List.mem_append.mp hx with hRest | hWaiting
      · rw [hQueue]
        exact List.mem_append_left _ (List.mem_append_right _ hRest)
      · exact List.mem_append_right _ hWaiting
    · intro x hx
      rw [hCalls]
      rcases List.mem_append.mp hx with hOld | hNew
      · obtain ⟨op, hop, hEq⟩ := h.answered x hOld
        exact ⟨op, List.mem_append_left _ hop, hEq⟩
      · obtain ⟨op, hop, rfl⟩ := List.mem_map.mp hNew
        exact ⟨op, List.mem_append_right _ hop, rfl, rfl⟩
  | @move m s' hMove =>
    refine ⟨order ++ [.moved m], ?_⟩
    rw [Option.toList_some]
    have hState := h.state.moves hMove
    have hCalls : Deed.calls (order ++ [.moved m]) = Deed.calls order := by simp
    have hAccounts : Accounts (history ++ [.moved m]) (order ++ [.moved m]) := by
      refine ⟨?_, ?_, ?_⟩
      · simp [h.linearizable.accounts.changes, Moment.change?]
      · intro op hop
        rw [hCalls] at hop
        exact List.mem_append_left _ (h.linearizable.accounts.invoked op hop)
      · intro id r hMem
        rw [hCalls]
        exact h.linearizable.accounts.returned id r (by simpa using hMem)
    have hInvoked : ∀ {id : ι} {c : κ}, .invoked id c ∈ history ++ [.moved m] →
        .invoked id c ∈ history := fun hMem => by simpa using hMem
    refine ⟨⟨⟨s', hState⟩, hCalls.symm ▸ h.linearizable.once, ?_, hAccounts, ?_, ?_⟩, hState,
      hCalls.symm ▸ h.distinct, hCalls.symm ▸ h.issued, ?_, ?_, hCalls.symm ▸ h.answered⟩
    · exact fun id c c' hc hc' => h.linearizable.unique id c c' (hInvoked hc) (hInvoked hc')
    · intro a ha b hb hBefore
      rw [hCalls] at ha hb
      rcases hBefore.of_append with hOld | ⟨c, hMoment⟩
      · obtain ⟨o₁, o₂, hOrder, hMem⟩ := h.linearizable.respects a ha b hb hOld
        refine ⟨o₁, o₂ ++ [.moved m], ?_, ?_⟩
        · rw [hOrder, List.append_assoc, List.cons_append]
        · rw [Deed.calls_append]
          exact List.mem_append_left _ hMem
      · cases hMoment
    · intro h₁ x h₂ hSplit
      rcases changed_cases hSplit with ⟨rfl, hHere⟩ | ⟨h₃, hOld⟩
      · cases hHere
        exact ⟨order, [], rfl, h.linearizable.accounts⟩
      · obtain ⟨o₁, o₂, hOrder, hFirst⟩ := h.linearizable.changed h₁ x h₃ hOld
        refine ⟨o₁, o₂ ++ [.moved m], ?_, hFirst⟩
        rw [hOrder, List.append_assoc, List.cons_append]
    · exact fun id c hMem => h.seen id c (hInvoked hMem)
    · exact fun x hx => List.mem_append_left _ (h.called x hx)
  | @deliver id r l l' hReply =>
    have hHere : (id, r) ∈ q.replies := by
      rw [hReply]
      exact List.mem_append_right _ List.mem_cons_self
    refine ⟨order, h.observe rfl ?_ ?_, h.state, h.distinct, h.issued, ?_, ?_, ?_⟩
    · intro id' c hMoment
      cases hMoment
    · intro id' r' hMoment
      cases hMoment
      exact h.answered (id, r) hHere
    · intro id' c hMem
      rcases List.mem_append.mp hMem with hOld | hLast
      · exact h.seen id' c hOld
      · cases List.mem_singleton.mp hLast
    · exact fun x hx => List.mem_append_left _ (h.called x hx)
    · intro x hx
      apply h.answered
      rw [hReply]
      exact mem_of_split hx
  | @discard x l l' hReply =>
    refine ⟨order, ?_⟩
    rw [Option.toList_none, List.append_nil]
    refine ⟨h.linearizable, h.state, h.distinct, h.issued, h.seen, h.called, ?_⟩
    intro y hy
    apply h.answered
    rw [hReply]
    exact mem_of_split hy

theorem Inv.runs (h : Inv O start history order q) {ls : List (Option (Moment ι κ ρ μ))}
    (hRun : (system O start).Runs q ls q') :
    ∃ order', Inv O start (history ++ ls.reduceOption) order' q' := by
  induction hRun generalizing history order with
  | refl => exact ⟨order, by rwa [List.reduceOption_nil, List.append_nil]⟩
  | @step q q₁ q' l ls hStep _ ih =>
    obtain ⟨order₁, h₁⟩ := h.step hStep
    obtain ⟨order', h'⟩ := ih h₁
    refine ⟨order', ?_⟩
    cases l with
    | none => rwa [Option.toList_none, List.append_nil] at h'
    | some m => rwa [Option.toList_some, List.append_assoc, List.singleton_append] at h'

end Fifo

end Systems
