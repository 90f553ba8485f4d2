import Kafko.Broker.Custody

/-!
# What the broker promises

The refinement carries what holds of ledgers over to the broker. Its runs, from a fresh data
directory on and with the machine stopping wherever it likes, are runs of a ledger, whose topics
are those of the registry and whose pages are what reads return. In particular a record that was
acknowledged before an acknowledged sync is read back at its offset from then on.
-/

namespace Kafko

open Disk Systems

variable {X : Crates} {root : DirPath} {topics : Registry} {n : String} {s s₀ : Site} {A : Ledger}

/-! ## Playing calls -/

/-- The event of a call, if the calls of the environment are not looked at. -/
def BrokerAct.event (X : Crates) (s : Site) (r : Res KafkoError Unit) : BrokerAct → Option Event
  | .create name _ partitions _ => some (.create name partitions.toNat r)
  | .delete name _ _ _ => some (.delete name r)
  | .operate name i op env => (s.reply X name i op env).map (.operate name i op)
  | .shutdown _ => some (.shutdown false r)
  | .openBroker _ _ => some (.openBroker r)
  | .stop => some .stop

/-- The records of an operation can be read back once they are written. -/
def Site.admits (X : Crates) (s : Site) : BrokerAct → Bool
  | .operate name i op _ =>
    (((s.topics.bind fun topics => topics.lookup name).bind fun ps => ps[i]?).map fun q =>
      decide (op.Admissible X q.log)).getD true
  | _ => true

/-- A call with a plain name in an environment without failures. -/
def BrokerAct.Careful : BrokerAct → Prop
  | .create name _ _ envs => PlainName name ∧ ∀ i, (envs i).Quiet
  | .delete _ _ _ removal => removal.Whole
  | .operate _ _ _ env => env.Quiet
  | .openBroker _ envs => ∀ n i, (envs n i).Quiet
  | _ => True

theorem BrokerAct.Careful.whole {a : BrokerAct} (h : a.Careful) (hAdmits : s.admits X a = true) :
    a.Whole X root s := by
  cases a with
  | create name config partitions envs =>
    obtain ⟨hPlain, hQuiet⟩ := h
    exact Or.inr (Or.inr ⟨hPlain, Or.inr ⟨fun i _ => hQuiet i, quiet_faultless (hQuiet _),
      hQuiet _ 0 .mkdir⟩⟩)
  | delete name inUse envs removal => exact h
  | operate name i op env =>
    refine ⟨clean_of_quiet h, ?_⟩
    intro topics ps q hUp hTopic hq
    simpa [Site.admits, hUp, hTopic, hq] using hAdmits
  | shutdown envs => trivial
  | openBroker config envs => exact fun n i => quiet_faultless (h n i)
  | stop => trivial

/-- A read of a partition answers from its page. -/
theorem Custody.read (h : Custody X root s A) (hUp : s.topics = some topics) {i : Nat} {p : Page}
    (hp : (A.topics n)[i]? = some p) : ∃ ps q, topics.lookup n = some ps ∧ ps[i]? = some q ∧
      q.log.oldestBase = p.history.oldest ∧ ∀ env, env.Quiet → ∀ offset,
        s.reply X n i (.readRecordAt offset) env = some (.ok (.record (p.history.get offset))) := by
  obtain ⟨hi, hGet⟩ := List.getElem?_eq_some_iff.mp hp
  cases hTopic : topics.lookup n with
  | none =>
    rw [Ledger.topics_nil ((h.stands.serving topics hUp).1 n hTopic)] at hp
    cases hp
  | some ps =>
    have hKeeps := h.writing topics hUp n ps hTopic
    have hi' : i < ps.length := by
      rw [hKeeps.length_eq]
      exact hi
    have hq : ps[i]? = some ps[i] := List.getElem?_eq_getElem hi'
    have hAt := (List.forall₂_iff_get.mp hKeeps).2 i hi' hi
    rw [List.get_eq_getElem, List.get_eq_getElem, hGet] at hAt
    obtain ⟨d, hd, -, hRef⟩ := hAt
    refine ⟨ps, ps[i], rfl, hq, hRef.oldestBase, ?_⟩
    intro env hEnv offset
    obtain ⟨log', w', hRead, -⟩ := read_quiet (w := ⟨d, 0⟩) hEnv hRef offset
    have hExec : ((LogOp.readRecordAt offset).exec X env ps[i].log ⟨d, 0⟩).1 =
        .ok (.record (p.history.get offset)) := by
      change (Fx.bind (Log.readRecordAt X offset) _ env ps[i].log ⟨d, 0⟩).1 = _
      unfold Fx.bind
      rw [hRead]
      rfl
    simp [Site.reply, hUp, hTopic, hq, hd, hExec]

/-- The topics of the registry are those of the ledger. -/
theorem Custody.registry (h : Custody X root s A) (hUp : s.topics = some topics) (n : String) :
    (topics.lookup n).map List.length =
      if A.topics n = [] then none else some (A.topics n).length := by
  rw [(h.stands.serving topics hUp).counts_eq]
  by_cases hNil : A.topics n = []
  · rw [if_pos hNil, if_pos (by rw [Ledger.counts, hNil]; rfl)]
  · have hCount : A.counts n ≠ 0 := fun hZero => hNil (Ledger.topics_nil hZero)
    rw [if_neg hNil, if_neg hCount]
    rfl

end Kafko
