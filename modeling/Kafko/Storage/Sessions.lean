import Kafko.Storage.Runs

/-!
# Sessions, crashes and recovery

A machine runs one session of a log after the other. A session ends by dropping the log or
by a crash, which may happen inside any call, also while the log is being opened; what is
left of the files is decided by `Store.Survives`. The machine remembers which records were
appended and how many of them were acknowledged before the last successful sync or rotation.

The invariant says that an open log refines the appended records and that a closed
directory can be recovered to a prefix of them. Recovery of a crash inside recovery needs
nothing more, because `Log.open_` never leaves the layout it starts from.
-/

namespace Kafko

open Disk

/-- Calls succeed or the machine stops; reads are full. -/
def Faultless (env : Env FileName) : Prop :=
  ∀ tick call, env.outcome tick call = .ok ∨ ∃ k, env.outcome tick call = .crash k

theorem Faultless.steady {env : Env FileName} (h : Faultless env) : env.Steady := by
  intro tick call kind written hFail
  rcases h tick call with hOk | ⟨k, hCrash⟩
  · rw [hOk] at hFail
    cases hFail
  · rw [hCrash] at hFail
    cases hFail

theorem Faultless.clean {env : Env FileName} (h : Faultless env) : Clean env where
  fullReads tick call n hShort := by
    rcases h tick call with hOk | ⟨k, hCrash⟩
    · rw [hOk] at hShort
      cases hShort
    · rw [hCrash] at hShort
      cases hShort
  failures tick call kind written hFail := (h.steady _ _ _ _ hFail).elim

/-! ## Opening -/

section Opening

variable {X : Crates} {env : Env FileName} {w : World FileName} {h : History Record} {n : Nat}

/-- Opening keeps at least the durable records. -/
theorem open_recoverable (hClean : Clean env) (hRec : Recoverable X w.store h n)
    (hRested : Rested w.store) (config : LogConfig) :
    wp env (Log.open_ X config)
      { ok := fun log _ w' => log.config = config ∧ n ≤ log.nextOffset ∧
          log.nextOffset ≤ h.next ∧ Refines X log w'.store (h.truncate log.nextOffset) n
        err := fun _ _ _ => ¬ env.Steady
        panic := fun _ _ _ => False
        crash := fun _ w' => ¬ env.Alive ∧ Recoverable X w'.store h n } () w := by
  obtain ⟨L, h₀, hDisk, hSound, hRep, hOldest, ⟨rest, hRecords⟩, hn⟩ := hRec
  obtain ⟨f, hf, hActive⟩ := hDisk.active
  have hCut := hRested _ f hf
  have hPrefix := hActive.content
  rw [hCut, List.append_nil] at hPrefix
  obtain ⟨k, torn, hHolds⟩ := Holds.exists hPrefix
  obtain ⟨m, hDurable, hm, hSync⟩ := hActive.synced
  have hmk : m ≤ k := hHolds.synced_le hm (by rw [← hSync]; exact hActive.covered)
  have hWhole : ∀ g ∈ L.active.frames, Whole X g := fun g hg =>
    hSound.whole g (List.mem_append_right _ hg)
  have hk := hHolds.le
  have hRep' := hRep.cutTo hDisk.chain hk
  have hNext : L.active.base + L.active.frames.length = h₀.records.length := hRep.next
  have hLen : h.records.length = h₀.records.length + rest.length := by
    rw [← hRecords, List.length_append]
  refine wp_mono (Log.open_spec () hClean hDisk hf hCut hHolds hWhole config) ?_ (fun _ _ _ hE => hE)
    ?_ ?_
  · rintro log st w' ⟨-, hConfig, hLive⟩
    have hOffset : log.nextOffset = L.active.base + k := by
      rw [hLive.nextOffset, Layout.next_cutTo hk]
    have hSame : h₀.truncate (L.active.base + k) = h.truncate log.nextOffset := by
      rw [hOffset]
      unfold History.truncate
      rw [hOldest, ← hRecords, List.take_append_of_le_length (by omega)]
    rw [hSame] at hRep'
    refine ⟨hConfig, ?_, ?_, _, hLive, hSound.cutTo k, hRep', hn⟩
    · rw [hOffset]
      unfold Layout.durableOffset at hn
      omega
    · rw [hOffset, History.next]
      omega
  · intro p st w' hBad
    exact hBad ((hSound.positions.take k).trackable _ _)
  · rintro st w' ⟨hNoisy, hDisk'⟩
    exact ⟨hNoisy, L, h₀, hDisk', hSound, hRep, hOldest, ⟨rest, hRecords⟩, hn⟩

/-- After a crash the directory can be recovered. -/
theorem Recoverable.crash {d d' : Store FileName} (hRec : Recoverable X d h n)
    (hSurvives : d.Survives d') : Recoverable X d' h n := by
  obtain ⟨L, h₀, hDisk, hRest⟩ := hRec
  exact ⟨L, h₀, hDisk.crash hSurvives, hRest⟩

theorem Fresh.crash {d d' : Store FileName} (hFresh : Fresh d) (hSurvives : d.Survives d') :
    Fresh d' :=
  fun name => hSurvives.get_none (hFresh name)

theorem recoverable_initial {d : Store FileName} (hDisk : OnDisk d Layout.initial) :
    Recoverable X d History.empty 0 :=
  ⟨Layout.initial, History.empty, hDisk, Sound.initial X, ⟨rfl, rfl, rfl⟩, rfl, List.prefix_rfl,
    Nat.zero_le _⟩

end Opening

/-! ## The machine -/

structure Machine where
  /-- The open log, if a session is running. -/
  log : Option Log
  world : World FileName
  /-- The records appended so far, by offset. After a crash these end with the records of
  the operation that was running; an open drops what did not survive. -/
  appended : List Record
  /-- How many of them were acknowledged before the last successful sync or rotation. -/
  durable : Nat
  /-- The oldest segment base the session has seen. -/
  oldest : Nat

namespace Machine

/-- A machine with an empty directory and no session. -/
def initial (d : Store FileName) (tick : Nat) : Machine := ⟨none, ⟨d, tick⟩, [], 0, 0⟩

inductive Step (X : Crates) : Machine → Machine → Prop
  | opened {m : Machine} {env : Env FileName} {config : LogConfig} {log : Log}
      {w' : World FileName} (hClosed : m.log = none) (hEnv : Faultless env)
      (hRun : Log.open_ X config env () m.world = (.ok log, (), w')) :
      Step X m ⟨some log, w', m.appended.take log.nextOffset, m.durable, log.oldestBase⟩
  | openCrashed {m : Machine} {env : Env FileName} {config : LogConfig} {w' : World FileName}
      {d : Store FileName} (hClosed : m.log = none) (hEnv : Faultless env)
      (hRun : Log.open_ X config env () m.world = (.crash, (), w'))
      (hSurvives : w'.store.Survives d) : Step X m { m with world := ⟨d, w'.tick⟩ }
  | finished {m : Machine} {env : Env FileName} {log log' : Log} {op : LogOp} {reply : Reply}
      {w' : World FileName} (hOpen : m.log = some log) (hEnv : Faultless env)
      (hOp : op.Admissible X log) (hRun : op.exec X env log m.world = (.ok reply, log', w')) :
      Step X m ⟨some log', w', m.appended ++ op.records,
        if op = .sync then m.appended.length
        else op.durableAfter log log' m.appended.length m.durable, log'.oldestBase⟩
  | failed {m : Machine} {env : Env FileName} {log log' : Log} {op : LogOp} {e : KafkoError}
      {w' : World FileName} (hOpen : m.log = some log) (hEnv : Faultless env)
      (hOp : op.Admissible X log) (hRun : op.exec X env log m.world = (.err e, log', w')) :
      Step X m ⟨some log', w', m.appended,
        op.durableAfter log log' m.appended.length m.durable, log'.oldestBase⟩
  | crashed {m : Machine} {env : Env FileName} {log log' : Log} {op : LogOp}
      {w' : World FileName} {d : Store FileName} (hOpen : m.log = some log)
      (hEnv : Faultless env) (hOp : op.Admissible X log)
      (hRun : op.exec X env log m.world = (.crash, log', w'))
      (hSurvives : w'.store.Survives d) :
      Step X m ⟨none, ⟨d, w'.tick⟩, m.appended ++ op.records,
        op.durableAfter log log' m.appended.length m.durable,
        if op = .applyRetention then log'.oldestBase else m.oldest⟩
  | closed {m : Machine} : Step X m { m with log := none }
  | stopped {m : Machine} {d : Store FileName} (hSurvives : m.world.store.Survives d) :
      Step X m { m with log := none, world := ⟨d, m.world.tick⟩ }

/-- The states reachable from an empty directory. -/
inductive Reachable (X : Crates) : Machine → Prop
  | initial {d : Store FileName} {tick : Nat} (hFresh : Fresh d) : Reachable X (initial d tick)
  | step {m m' : Machine} (hReach : Reachable X m) (hStep : Step X m m') : Reachable X m'

/-- What a directory without a session holds. -/
def ClosedOk (X : Crates) (m : Machine) : Prop :=
  (Fresh m.world.store ∧ m.appended = [] ∧ m.durable = 0) ∨
    ∃ oldest, oldest ≤ m.oldest ∧ Recoverable X m.world.store ⟨m.appended, oldest⟩ m.durable ∧
      Rested m.world.store

def Inv (X : Crates) (m : Machine) : Prop :=
  match m.log with
  | some log => Refines X log m.world.store ⟨m.appended, m.oldest⟩ m.durable
  | none => ClosedOk X m

variable {X : Crates} {m m' : Machine}

/-- A run of `open_` on a closed machine: it succeeds or the machine stops. -/
theorem open_cases (hInv : ClosedOk X m) {env : Env FileName} (hClean : Clean env)
    (config : LogConfig) :
    wp env (Log.open_ X config)
      { ok := fun log _ w' => log.config = config ∧ m.durable ≤ log.nextOffset ∧
          log.nextOffset ≤ m.appended.length ∧ log.oldestBase ≤ m.oldest ∧
          Refines X log w'.store ⟨m.appended.take log.nextOffset, log.oldestBase⟩ m.durable
        err := fun _ _ _ => ¬ env.Steady
        panic := fun _ _ _ => False
        crash := fun _ w' => ¬ env.Alive ∧ ((Fresh w'.store ∧ m.appended = [] ∧ m.durable = 0) ∨
          ∃ oldest, oldest ≤ m.oldest ∧
            Recoverable X w'.store ⟨m.appended, oldest⟩ m.durable) } () m.world := by
  rcases hInv with ⟨hFresh, hNil, hZero⟩ | ⟨oldest, hOldest, hRec, hRested⟩
  · refine wp_mono (Log.open_fresh_spec hFresh config) ?_ (fun _ _ _ hE => hE)
      (fun _ _ _ hF => hF) ?_
    · rintro log st w' ⟨-, hConfig, hLive⟩
      have hNext : log.nextOffset = 0 := hLive.nextOffset
      have hBase : log.oldestBase = 0 := hLive.oldestBase
      refine ⟨hConfig, by omega, by omega, by omega, Layout.initial, hLive, Sound.initial X, ?_, ?_⟩
      · rw [hNil, hBase, List.take_nil]
        exact ⟨rfl, rfl, rfl⟩
      · rw [hZero]
        exact Nat.zero_le _
    · rintro st w' ⟨hNoisy, hLeft | hDisk⟩
      · exact ⟨hNoisy, Or.inl ⟨hLeft, hNil, hZero⟩⟩
      · refine ⟨hNoisy, Or.inr ⟨0, Nat.zero_le _, ?_⟩⟩
        rw [hNil, hZero]
        exact recoverable_initial hDisk
  · refine wp_mono (open_recoverable hClean hRec hRested config) ?_ (fun _ _ _ hE => hE)
      (fun _ _ _ hF => hF) ?_
    · rintro log st w' ⟨hConfig, hDurable, hNext, hRef⟩
      have hBase : log.oldestBase = oldest := hRef.oldestBase
      refine ⟨hConfig, hDurable, hNext, by omega, ?_⟩
      rw [hBase]
      exact hRef
    · rintro st w' ⟨hNoisy, hRec'⟩
      exact ⟨hNoisy, Or.inr ⟨oldest, hOldest, hRec'⟩⟩

theorem closedOk_of_refines {log : Log}
    (hRef : Refines X log m.world.store ⟨m.appended, m.oldest⟩ m.durable) : ClosedOk X m := by
  refine Or.inr ⟨m.oldest, Nat.le_refl _, hRef.disk, ?_⟩
  obtain ⟨L, hLive, -⟩ := hRef
  exact hLive.rested

theorem Inv.closedOk (hInv : m.Inv X) : ClosedOk X m := by
  unfold Inv at hInv
  cases hLog : m.log with
  | none =>
    rw [hLog] at hInv
    exact hInv
  | some log =>
    rw [hLog] at hInv
    exact closedOk_of_refines hInv

/-- A crash keeps a closed directory recoverable. -/
theorem closedOk_of_crash {log : Option Log} {d d' : Store FileName} {tick : Nat}
    {rs : List Record} {n oldest : Nat} (hSurvives : d.Survives d')
    (hDisk : (Fresh d ∧ rs = [] ∧ n = 0) ∨ ∃ o, o ≤ oldest ∧ Recoverable X d ⟨rs, o⟩ n) :
    ClosedOk X ⟨log, ⟨d', tick⟩, rs, n, oldest⟩ := by
  rcases hDisk with ⟨hFresh, hNil, hZero⟩ | ⟨o, ho, hRec⟩
  · exact Or.inl ⟨hFresh.crash hSurvives, hNil, hZero⟩
  · exact Or.inr ⟨o, ho, hRec.crash hSurvives, rested_of_crash hSurvives⟩

theorem Inv.refines (hInv : m.Inv X) {log : Log} (hOpen : m.log = some log) :
    Refines X log m.world.store ⟨m.appended, m.oldest⟩ m.durable := by
  unfold Inv at hInv
  rwa [hOpen] at hInv

/-- The step lemma of the machine. -/
theorem Inv.step (hX : X.Lawful) (hInv : m.Inv X) (hStep : Step X m m') : m'.Inv X := by
  cases hStep with
  | @opened env config log w' hClosed hEnv hRun =>
    have hSpec := ok_of_wp (open_cases hInv.closedOk hEnv.clean config) hRun
    exact hSpec.2.2.2.2
  | @openCrashed env config w' d hClosed hEnv hRun hSurvives =>
    have hSpec := open_cases hInv.closedOk hEnv.clean config
    rw [wp, hRun] at hSpec
    rw [Inv, hClosed]
    exact closedOk_of_crash hSurvives hSpec.2
  | @finished env log log' op reply w' hOpen hEnv hOp hRun =>
    have hSpec := exec_spec hX hEnv.clean (hInv.refines hOpen) hOp
    rw [wp, hRun] at hSpec
    obtain ⟨-, ⟨records, oldest⟩, hStep, hRef⟩ := hSpec
    obtain rfl : records = m.appended ++ op.records := hStep.records
    obtain rfl : log'.oldestBase = oldest := hRef.oldestBase
    exact hRef
  | @failed env log log' op e w' hOpen hEnv hOp hRun =>
    have hSpec := exec_spec hX hEnv.clean (hInv.refines hOpen) hOp
    rw [wp, hRun] at hSpec
    obtain ⟨-, ⟨⟨records, oldest⟩, hStep, hRef⟩, -⟩ := hSpec
    obtain rfl : records = m.appended := hStep.records
    obtain rfl : log'.oldestBase = oldest := hRef.oldestBase
    exact hRef
  | @crashed env log log' op w' d hOpen hEnv hOp hRun hSurvives =>
    have hSpec := exec_spec hX hEnv.clean (hInv.refines hOpen) hOp
    rw [wp, hRun] at hSpec
    obtain ⟨-, ⟨records, oldest⟩, hStep, hRec⟩ := hSpec
    obtain rfl : records = m.appended ++ op.records := hStep.records
    refine closedOk_of_crash hSurvives (Or.inr ⟨oldest, ?_, hRec⟩)
    have hStop := hStep.stop
    split
    · next hRetain =>
      rw [if_pos hRetain] at hStop
      exact hStop
    · next hOther =>
      rw [if_neg hOther] at hStop
      exact Nat.le_of_eq hStop
  | closed => exact hInv.closedOk
  | @stopped d hSurvives =>
    apply closedOk_of_crash hSurvives
    rcases hInv.closedOk with hFresh | ⟨oldest, hOldest, hRec, -⟩
    · exact Or.inl hFresh
    · exact Or.inr ⟨oldest, hOldest, hRec⟩

/-- The run lemma: the invariant holds in every reachable state. -/
theorem Reachable.inv (hX : X.Lawful) (hReach : Reachable X m) : m.Inv X := by
  induction hReach with
  | initial hFresh => exact Or.inl ⟨hFresh, rfl, rfl⟩
  | step _ hStep ih => exact ih.step hX hStep

/-- What a recovered log holds: a prefix of the appended records, from its oldest base on,
with every durable record in it. -/
structure Recovered (X : Crates) (m : Machine) (log : Log) (w : World FileName) : Prop where
  oldest : log.oldestBase ≤ m.oldest
  durable : m.durable ≤ log.nextOffset
  appended : log.nextOffset ≤ m.appended.length
  reads : ∀ env, env.Quiet → ∀ offset, (Log.readRecordAt X offset env log w).1 =
    .ok (if log.oldestBase ≤ offset ∧ offset < log.nextOffset then m.appended[offset]? else none)

/-- Crash recovery: whatever the sessions did and wherever they crashed, the log opens
again and holds a readable prefix that covers everything synced; and no operation on an open
log ever meets a file that already exists, or any other I/O error, or panics. -/
theorem crash_recovery (hX : X.Lawful) (hReach : Reachable X m) :
    (m.log = none → ∀ (env : Env FileName) (config : LogConfig), env.Quiet →
      ∃ log w', Log.open_ X config env () m.world = (.ok log, (), w') ∧ Recovered X m log w') ∧
    ∀ log, m.log = some log → ∀ (op : LogOp) (env : Env FileName), op.Admissible X log →
      Faultless env → ∀ r log' w', op.exec X env log m.world = (r, log', w') →
        (∃ reply, r = .ok reply) ∨ r = .crash ∨
          r = .err (.compressionUnavailable log.config.compression) := by
  have hInv := hReach.inv hX
  refine ⟨?_, ?_⟩
  · intro hClosed env config hEnv
    have hSpec := open_cases hInv.closedOk (clean_of_quiet hEnv) config
    unfold wp at hSpec
    rcases hRun : Log.open_ X config env () m.world with ⟨r, st, w'⟩
    rw [hRun] at hSpec
    cases r with
    | ok log =>
      obtain ⟨-, hDurable, hNext, hOldest, hRef⟩ := hSpec
      refine ⟨log, w', rfl, hOldest, hDurable, hNext, ?_⟩
      intro env' hEnv' offset
      obtain ⟨_, _, hRead, -⟩ := read_quiet hEnv' hRef offset
      rw [hRead, History.get_eq]
      dsimp only
      by_cases hRange : log.oldestBase ≤ offset ∧ offset < log.nextOffset
      · have hLen : offset < (m.appended.take log.nextOffset).length := by
          rw [List.length_take]
          omega
        rw [if_pos ⟨hRange.1, hLen⟩, if_pos hRange, List.getElem?_take, if_pos hRange.2]
      · rw [if_neg hRange, if_neg]
        intro hBoth
        have hLen := hBoth.2
        simp only [History.next, List.length_take] at hLen
        exact hRange ⟨hBoth.1, by omega⟩
    | err e => exact absurd hEnv.steady hSpec
    | panic p => exact hSpec.elim
    | crash => exact absurd hEnv.alive hSpec.1
  · intro log hOpen op env hOp hEnv r log' w' hRun
    have hSpec := exec_spec hX hEnv.clean (hInv.refines hOpen) hOp
    rw [wp, hRun] at hSpec
    cases r with
    | ok reply => exact Or.inl ⟨reply, rfl⟩
    | err e =>
      obtain ⟨-, -, ⟨rfl, -⟩ | hNoisy⟩ := hSpec
      · exact Or.inr (Or.inr rfl)
      · exact absurd hEnv.steady hNoisy
    | panic p => exact hSpec.elim
    | crash => exact Or.inr (Or.inl rfl)

/-- The machine stops inside the second write to a `.log` file, after ten bytes. -/
def stopsInSecondWrite : Env FileName where
  outcome tick call :=
    match call with
    | .write _ _ => if 6 < tick then .crash 10 else .ok
    | _ => .ok
  clock _ := 0
  mtime _ _ := 0

theorem faultless_stopsInSecondWrite : Faultless stopsInSecondWrite := by
  intro tick call
  cases call with
  | write name bytes =>
    by_cases hTick : 6 < tick
    · exact Or.inr ⟨10, if_pos hTick⟩
    · exact Or.inl (if_neg hTick)
  | _ => exact Or.inl rfl

/-- A session that appends one record, syncs, and stops while it writes a second one. -/
theorem crash_recovery_torn_append :
    ∃ m, Reachable Crates.uncompressed m ∧ m.log = none ∧ m.durable = 1 ∧
      m.appended = [sampleRecord 1, sampleRecord 2] ∧
      ∀ config, ∃ log w', Log.open_ Crates.uncompressed config Env.quiet () m.world =
        (.ok log, (), w') ∧ Recovered Crates.uncompressed m log w' := by
  have hEmpty : Reachable Crates.uncompressed (initial Store.empty 0) :=
    Reachable.initial fun name => Store.get_empty name
  have hOpen := hEmpty.step (@Step.opened _ _ stopsInSecondWrite smallSegments _ _ rfl
    faultless_stopsInSecondWrite rfl)
  have hFirst := hOpen.step (@Step.finished _ _ stopsInSecondWrite _ _ (.append (sampleRecord 1))
    _ _ rfl faultless_stopsInSecondWrite (by decide +kernel) rfl)
  have hSync := hFirst.step (@Step.finished _ _ stopsInSecondWrite _ _ .sync _ _ rfl
    faultless_stopsInSecondWrite (by decide +kernel) rfl)
  have hCrash := hSync.step (@Step.crashed _ _ stopsInSecondWrite _ _ (.append (sampleRecord 2))
    _ _ rfl faultless_stopsInSecondWrite (by decide +kernel) rfl
    (Store.Survives.refl (by decide +kernel)))
  refine ⟨_, hCrash, rfl, by decide +kernel, rfl, ?_⟩
  intro config
  exact (crash_recovery Crates.lawful_uncompressed hCrash).1 rfl Env.quiet config Env.quiet_quiet

end Machine

end Kafko
