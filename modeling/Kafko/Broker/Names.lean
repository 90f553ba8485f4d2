import Kafko.Broker.Topics

/-!
# Topic names on disk

`create_topic` takes any text for a name and joins it to the data directory. A name with
slashes, dots or nothing in it leads somewhere else than to a directory of its own: to the
partition of another topic, to the directory of another name, to the data directory itself or
out of it. Two accepted names are kept apart exactly if each of them leads to a direct child
of the data directory and they lead to different ones.
-/

namespace Kafko

open Disk

/-- The names a call accepts, with the number of partitions. -/
def BrokerAct.accepts : BrokerAct → Res KafkoError Unit → List (String × Nat)
  | .create name _ partitions _, .ok _ => [(name, partitions.toNat)]
  | _, _ => []

/-- Appends and other operations on a topic, and its deletion. -/
def BrokerAct.Concerns (name : String) : BrokerAct → Prop
  | .operate n _ _ _ => n = name
  | .delete n _ _ _ => n = name
  | _ => False

def BrokerAct.Opens : BrokerAct → Prop
  | .openBroker _ _ => True
  | _ => False

namespace Site

/-- The life of one broker, with the names it has accepted. -/
inductive Session (X : Crates) (root : DirPath) : Site → List (String × Nat) → Prop
  | start (s : Site) : Session X root s []
  | acted {s s' : Site} {accepted : List (String × Nat)} {a : BrokerAct}
      {r : Res KafkoError Unit} (hSession : Session X root s accepted) (hSame : ¬ a.Opens)
      (hAct : s.act X root a = some (r, s')) : Session X root s' (a.accepts r ++ accepted)

/-- No operation on `name` and no deletion of it changes a directory inside `dir`. -/
def Untouched (X : Crates) (root : DirPath) (s : Site) (name : String) (dir : DirPath) : Prop :=
  ∀ a : BrokerAct, a.Concerns name → ∀ r s', s.act X root a = some (r, s') →
    ∀ q, dir <+: q → s'.tree.lookup q = s.tree.lookup q

/-- No partition of the one topic equals or contains the directory of the other or lies
inside it. -/
def Apart (root : DirPath) (name : String) (count : Nat) (other : String) : Prop :=
  ∀ i < count, ¬ (root.join name).join (toString i) <+: root.join other ∧
    ¬ root.join other <+: (root.join name).join (toString i)

/-- Two topics, with their numbers of partitions, do not meet on disk. -/
structure Isolated (X : Crates) (root : DirPath) (s : Site) (a b : String × Nat) : Prop where
  child : ∃ c, root.join a.1 = root ++ [c]
  child' : ∃ c, root.join b.1 = root ++ [c]
  apart : Apart root a.1 a.2 b.1
  apart' : Apart root b.1 b.2 a.1
  untouched : Untouched X root s a.1 (root.join b.1)
  untouched' : Untouched X root s b.1 (root.join a.1)

/-- The two names lead to different direct children of the data directory. -/
def LeadApart (root : DirPath) (name other : String) : Prop :=
  ∃ c d, root.join name = root ++ [c] ∧ root.join other = root ++ [d] ∧ c ≠ d

/-- The writers of a registered topic work below the directory its name leads to. -/
def Placed (root : DirPath) (s : Site) (name : String) : Prop :=
  ∀ topics ps, s.topics = some topics → topics.lookup name = some ps →
    ∀ p ∈ ps, ∃ i : Nat, p.dir = root.join name ++ [toString i]

/-! ## Sessions -/

variable {X : Crates} {root : DirPath} {s s' : Site} {a : BrokerAct} {r : Res KafkoError Unit}
  {name : String} {accepted : List (String × Nat)}

/-- The step lemma: the writers of a topic stay where they are, and those of an accepted name
are where the name leads. -/
theorem placed_act (hAct : s.act X root a = some (r, s')) (hSame : ¬ a.Opens)
    (hPlaced : Placed root s name) : Placed root s' name := by
  intro topics' ps hTopics hLookup
  cases a with
  | create n config partitions envs =>
    obtain ⟨topics, hUp, hAfter⟩ := Option.bind_eq_some_iff.mp hAct
    obtain ⟨-, -, hRegistry⟩ := after_eq (Option.some.inj hAfter)
    rw [hRegistry topics' hTopics] at hLookup
    rcases createTopicInner_registry rfl with ⟨-, hKept⟩ | ⟨-, -, -, qs, hInsert, hCreate⟩
    · rw [hKept] at hLookup
      exact hPlaced topics ps hUp hLookup
    · rw [hInsert] at hLookup
      by_cases hEq : name = n
      · rw [hEq, AList.lookup_insert] at hLookup
        cases hLookup
        intro p hp
        have hMem := List.mem_map_of_mem (f := PlacedLog.dir) hp
        rw [Topic.create_dirs hCreate] at hMem
        obtain ⟨i, -, hDir⟩ := List.mem_map.mp hMem
        exact ⟨i, by rw [hEq]; exact hDir.symm⟩
      · rw [AList.lookup_insert_ne hEq] at hLookup
        exact hPlaced topics ps hUp hLookup
  | delete n inUse envs removal =>
    obtain ⟨topics, hUp, hAfter⟩ := Option.bind_eq_some_iff.mp hAct
    obtain ⟨-, -, hRegistry⟩ := after_eq (Option.some.inj hAfter)
    rw [hRegistry topics' hTopics] at hLookup
    exact hPlaced topics ps hUp (deleteTopic_registry hLookup)
  | operate n i op env =>
    obtain ⟨topics, hUp, hRest⟩ := Option.bind_eq_some_iff.mp hAct
    obtain ⟨topic, hTopic, hRest⟩ := Option.bind_eq_some_iff.mp hRest
    obtain ⟨p, hp, hRest⟩ := Option.bind_eq_some_iff.mp hRest
    have hDir := p.operate_dir (X := X) op env s.tree
    rcases hRun : p.operate X op env s.tree with ⟨stopped, p', t'⟩
    rw [hRun] at hRest hDir
    cases stopped with
    | true =>
      cases hRest
      cases hTopics
    | false =>
      cases hRest
      cases hTopics
      by_cases hEq : name = n
      · rw [hEq, AList.lookup_insert] at hLookup
        cases hLookup
        subst hEq
        intro q hq
        rcases List.mem_or_eq_of_mem_set hq with hOld | rfl
        · exact hPlaced topics topic hUp hTopic q hOld
        · rw [hDir]
          exact hPlaced topics topic hUp hTopic p (List.mem_of_getElem? hp)
      · rw [AList.lookup_insert_ne hEq] at hLookup
        exact hPlaced topics ps hUp hLookup
  | shutdown envs =>
    obtain ⟨topics, -, hEnded⟩ := Option.bind_eq_some_iff.mp hAct
    rw [(ended_eq (Option.some.inj hEnded)).1] at hTopics
    cases hTopics
  | openBroker config envs => exact absurd trivial hSame
  | stop =>
    cases hAct
    cases hTopics

theorem accepts_eq {n : String} {count : Nat} (h : (n, count) ∈ a.accepts r) :
    ∃ config partitions envs, a = .create n config partitions envs ∧ r = .ok () ∧
      count = partitions.toNat := by
  cases a with
  | create n' config partitions envs =>
    cases r with
    | ok u =>
      cases List.mem_singleton.mp h
      exact ⟨config, partitions, envs, rfl, rfl, rfl⟩
    | err e => cases h
    | panic m => cases h
    | crash => cases h
  | delete => cases h
  | operate => cases h
  | shutdown => cases h
  | openBroker => cases h
  | stop => cases h

/-- An accepted name has partitions, and they are placed where it leads. -/
theorem accepted_act (hAct : s.act X root a = some (r, s')) {n : String} {count : Nat}
    (h : (n, count) ∈ a.accepts r) : 0 < count ∧ Placed root s' n := by
  obtain ⟨config, partitions, envs, rfl, rfl, rfl⟩ := accepts_eq h
  obtain ⟨topics, hUp, hAfter⟩ := Option.bind_eq_some_iff.mp hAct
  obtain ⟨-, hOk, hRegistry⟩ := after_eq (Option.some.inj hAfter)
  rcases createTopicInner_registry rfl with ⟨hNot, -⟩ | ⟨-, hPositive, hNew, -⟩
  · exact absurd hOk hNot
  refine ⟨hPositive, ?_⟩
  apply placed_act hAct (fun hOpens => hOpens)
  intro topics₁ ps hUp₁ hLookup
  rw [hUp] at hUp₁
  cases hUp₁
  rw [AList.lookup_eq_none.mpr hNew] at hLookup
  cases hLookup

/-- The run lemma. -/
theorem Session.placed (hSession : Session X root s accepted) {n : String} {count : Nat}
    (h : (n, count) ∈ accepted) : 0 < count ∧ Placed root s n := by
  induction hSession with
  | start s => cases h
  | @acted s s' accepted a r _ hSame hAct ih =>
    rcases List.mem_append.mp h with hNew | hOld
    · exact accepted_act hAct hNew
    · obtain ⟨hPositive, hPlaced⟩ := ih hOld
      exact ⟨hPositive, placed_act hAct hSame hPlaced⟩

/-! ## Isolation -/

/-- Whatever lies inside a direct child of the data directory lies inside no other one. -/
theorem eq_of_children {c d : String} {q : DirPath} (hc : root ++ [c] <+: q)
    (hd : root ++ [d] <+: q) :
    c = d := by
  have hLength : (root ++ [c]).length ≤ (root ++ [d]).length := by simp
  have hPrefix := List.prefix_of_prefix_length_le hc hd hLength
  have hEq := hPrefix.eq_of_length (by simp)
  simpa using hEq

theorem untouched_of_children {other : String} {c d : String} (hPlaced : Placed root s name)
    (hName : root.join name = root ++ [c]) (hOther : root.join other = root ++ [d])
    (hNe : c ≠ d) : Untouched X root s name (root.join other) := by
  intro a hConcerns r s' hAct q hq
  rw [hOther] at hq
  have hDir : ¬ root.join name <+: q := by
    rw [hName]
    exact fun hc => hNe (eq_of_children hc hq)
  have hOwn : ∀ topics ps, s.topics = some topics → topics.lookup name = some ps →
      ∀ p ∈ ps, q ≠ p.dir := by
    intro topics ps hUp hLookup p hp hEq
    obtain ⟨i, hPath⟩ := hPlaced topics ps hUp hLookup p hp
    apply hDir
    rw [hEq, hPath]
    exact List.prefix_append _ _
  cases a with
  | create => exact hConcerns.elim
  | shutdown => exact hConcerns.elim
  | openBroker => exact hConcerns.elim
  | stop => exact hConcerns.elim
  | delete n inUse envs removal =>
    obtain rfl : n = name := hConcerns
    obtain ⟨topics, hUp, hAfter⟩ := Option.bind_eq_some_iff.mp hAct
    rw [(after_eq (Option.some.inj hAfter)).1]
    exact deleteTopic_lookup (hOwn topics · hUp ·) hDir
  | operate n i op env =>
    obtain rfl : n = name := hConcerns
    obtain ⟨topics, hUp, hRest⟩ := Option.bind_eq_some_iff.mp hAct
    obtain ⟨topic, hTopic, hRest⟩ := Option.bind_eq_some_iff.mp hRest
    obtain ⟨p, hp, hRest⟩ := Option.bind_eq_some_iff.mp hRest
    have hNot : q ≠ p.dir := hOwn topics topic hUp hTopic p (List.mem_of_getElem? hp)
    have hKept := p.operate_lookup (X := X) op env s.tree hNot
    rcases hRun : p.operate X op env s.tree with ⟨stopped, p', t'⟩
    rw [hRun] at hRest hKept
    cases stopped with
    | true =>
      cases hRest
      exact hKept
    | false =>
      cases hRest
      exact hKept

theorem apart_of_children {other : String} {c d : String}
    (hName : root.join name = root ++ [c]) (hOther : root.join other = root ++ [d])
    (hNe : c ≠ d) (count : Nat) : Apart root name count other := by
  intro i _
  rw [(PlainName.toString i).join, hName, hOther]
  constructor
  · intro hPrefix
    have hLength := hPrefix.length_le
    simp at hLength
  · intro hPrefix
    exact hNe (eq_of_children (List.prefix_append _ _) hPrefix)

/-- Two names that one broker has accepted are isolated on disk exactly if they lead to
different direct children of the data directory. -/
theorem accepted_names_isolated_iff (hSession : Session X root s accepted)
    {a b : String × Nat} (ha : a ∈ accepted) (hb : b ∈ accepted) :
    Isolated X root s a b ↔ LeadApart root a.1 b.1 := by
  obtain ⟨hPositive, hPlaced⟩ := hSession.placed ha
  obtain ⟨-, hPlaced'⟩ := hSession.placed hb
  constructor
  · intro hIsolated
    obtain ⟨c, hc⟩ := hIsolated.child
    obtain ⟨d, hd⟩ := hIsolated.child'
    refine ⟨c, d, hc, hd, ?_⟩
    rintro rfl
    apply (hIsolated.apart 0 hPositive).2
    rw [(PlainName.toString 0).join, hc, hd]
    exact List.prefix_append _ _
  · rintro ⟨c, d, hc, hd, hNe⟩
    exact
      { child := ⟨c, hc⟩
        child' := ⟨d, hd⟩
        apart := apart_of_children hc hd hNe a.2
        apart' := apart_of_children hd hc hNe.symm b.2
        untouched := untouched_of_children hPlaced hc hd hNe
        untouched' := untouched_of_children hPlaced' hd hc hNe.symm }

/-- A new broker on `/data`. -/
def fresh : Site := ⟨DirTree.createDirs ∅ [[], ["data"]], some ∅⟩

/-- A call for a topic of one partition that meets no failure. -/
def createOne (name : String) : BrokerAct :=
  .create name LogConfig.default 1 fun _ => Env.quiet

/-- The two calls, one after the other, and how they end. -/
def createTwo (s : Site) (name other : String) :
    Option (Res KafkoError Unit × Res KafkoError Unit × Site) := do
  let (r, s) ← s.act Crates.uncompressed ["data"] (createOne name)
  let (r', s') ← s.act Crates.uncompressed ["data"] (createOne other)
  pure (r, r', s')

theorem createTwo_session {name other : String} {s₀ s : Site}
    (h : createTwo s₀ name other = some (.ok (), .ok (), s)) :
    Session Crates.uncompressed ["data"] s [(other, 1), (name, 1)] := by
  obtain ⟨⟨r, s₁⟩, hFirst, hRest⟩ := Option.bind_eq_some_iff.mp h
  obtain ⟨⟨r', s₂⟩, hSecond, hEq⟩ := Option.bind_eq_some_iff.mp hRest
  cases hEq
  have hSame : ∀ name, ¬ (createOne name).Opens := fun _ hOpens => hOpens
  exact Session.acted (Session.acted (Session.start s₀) (hSame name) hFirst) (hSame other) hSecond

/-- Topics `orders` and `bills` are isolated. -/
theorem accepted_names_isolated_plain :
    ∃ s, Session Crates.uncompressed ["data"] s [("bills", 1), ("orders", 1)] ∧
      Isolated Crates.uncompressed ["data"] s ("orders", 1) ("bills", 1) := by
  have hRun : (createTwo fresh "orders" "bills").map (fun x => (x.1, x.2.1)) =
      some (.ok (), .ok ()) := by
    decide +kernel
  obtain ⟨⟨r, r', s⟩, hTwo, hOk⟩ := Option.map_eq_some_iff.mp hRun
  cases hOk
  have hSession := createTwo_session hTwo
  refine ⟨s, hSession, ?_⟩
  apply (accepted_names_isolated_iff hSession (by simp) (by simp)).mpr
  exact ⟨"orders", "bills", by decide +kernel, by decide +kernel, by decide⟩

/-- The topic `a/0` is accepted although its directory is the first partition of the topic
`a`: deleting `a` removes the files of `a/0`. -/
theorem accepted_names_meet :
    ∃ s r s', Session Crates.uncompressed ["data"] s [("a/0", 1), ("a", 1)] ∧
      ¬ Isolated Crates.uncompressed ["data"] s ("a", 1) ("a/0", 1) ∧
      s.act Crates.uncompressed ["data"] (.delete "a" false (fun _ => Env.quiet) .done) =
        some (r, s') ∧
      DirPath.join ["data"] "a/0" ∈ s.tree ∧ DirPath.join ["data"] "a/0" ∉ s'.tree := by
  have hRun : (do
      let (r, r', s) ← createTwo fresh "a" "a/0"
      let (_, s') ← s.act Crates.uncompressed ["data"]
        (.delete "a" false (fun _ => Env.quiet) .done)
      pure (r, r', s.tree.keys, s'.tree.keys)) =
      some (.ok (), .ok (),
        [["data", "a", "0", "0"], ["data", "a", "0"], ["data", "a"], ["data"], []],
        [["data"], []]) := by
    decide +kernel
  obtain ⟨⟨r, r', s⟩, hTwo, hRest⟩ := Option.bind_eq_some_iff.mp hRun
  obtain ⟨⟨r'', s'⟩, hDelete, hEq⟩ := Option.bind_eq_some_iff.mp hRest
  simp only [Option.pure_def, Option.some.injEq, Prod.mk.injEq] at hEq
  obtain ⟨rfl, rfl, hKeys, hKeys'⟩ := hEq
  refine ⟨s, r'', s', createTwo_session hTwo, ?_, hDelete, ?_, ?_⟩
  · intro hIsolated
    obtain ⟨c, hc⟩ := hIsolated.child'
    have hPath : DirPath.join ["data"] "a/0" = ["data", "a", "0"] := by decide +kernel
    rw [hPath] at hc
    simp at hc
  · rw [AList.mem_keys, hKeys]
    decide +kernel
  · rw [AList.mem_keys, hKeys']
    decide +kernel

end Site

end Kafko
