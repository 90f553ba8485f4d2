import Kafko.Storage.Sessions

/-!
# Appends that fail

`append` changes four things in order: the segment list, the bytes of the segment, the index
and the next offset, with a fallible call between each. A failed fsync, a `.log` file that
cannot be created, a failed seek or read, and a segment write that wrote nothing leave no
trace; in runs whose failures are of this kind a failed append leaves the log as it was.

The other failures do leave traces. An index entry that cannot be written comes after the
bytes of its record, which stay in the segment without an offset; an `.index` file that
cannot be created leaves its `.log` file behind; and a segment write that stops half way
leaves the handle where the cache does not expect it.
-/

namespace Kafko

open Disk

/-- Failures that leave no trace, and no crash. -/
structure CleanFailures (env : Env FileName) : Prop where
  clean : Clean env
  alive : env.Alive

theorem cleanFailures_of_quiet {env : Env FileName} (h : env.Quiet) : CleanFailures env :=
  ⟨clean_of_quiet h, h.alive⟩

/-- The logs reachable by operations that succeed or fail cleanly and by closing and opening
again, with the records acknowledged so far. -/
inductive Reached (X : Crates) : Log → World FileName → List Record → Prop
  | created {env : Env FileName} {config : LogConfig} {log : Log} {w w' : World FileName}
      (hEnv : env.Quiet) (hFresh : Fresh w.store)
      (hRun : Log.create config env () w = (.ok log, (), w')) : Reached X log w' []
  | acknowledged {env : Env FileName} {op : LogOp} {reply : Reply} {log log' : Log}
      {w w' : World FileName} {rs : List Record} (hReach : Reached X log w rs)
      (hEnv : CleanFailures env) (hOp : op.Admissible X log)
      (hRun : op.exec X env log w = (.ok reply, log', w')) :
      Reached X log' w' (rs ++ op.records)
  | failed {env : Env FileName} {op : LogOp} {e : KafkoError} {log log' : Log}
      {w w' : World FileName} {rs : List Record} (hReach : Reached X log w rs)
      (hEnv : CleanFailures env) (hOp : op.Admissible X log)
      (hRun : op.exec X env log w = (.err e, log', w')) : Reached X log' w' rs
  | reopened {env : Env FileName} {config : LogConfig} {log log' : Log} {w w' : World FileName}
      {rs : List Record} (hReach : Reached X log w rs) (hEnv : env.Quiet)
      (hRun : Log.open_ X config env () w = (.ok log', (), w')) : Reached X log' w' rs

section

variable {X : Crates} {env : Env FileName} {log : Log} {w : World FileName} {h : History Record}
  {n : Nat} {rs : List Record}

/-- Opening a log that was closed cleanly brings everything back. -/
theorem reopen_quiet (hEnv : env.Quiet) (hRef : Refines X log w.store h n) (config : LogConfig) :
    ∃ log' w', Log.open_ X config env () w = (.ok log', (), w') ∧ log'.config = config ∧
      Refines X log' w'.store h n := by
  obtain ⟨L, hLive, hSound, hRep, hn⟩ := hRef
  obtain ⟨log', w', hOpen, hConfig, hLive'⟩ := Log.open_live hEnv hLive hSound config
  exact ⟨log', w', hOpen, hConfig, L, hLive', hSound, hRep, hn⟩

/-- Every reached log refines a history with the acknowledged records. -/
theorem Reached.refines (hX : X.Lawful) (hReach : Reached X log w rs) :
    ∃ oldest n, Refines X log w.store ⟨rs, oldest⟩ n := by
  induction hReach with
  | @created env config log w w' hEnv hFresh hRun =>
    obtain ⟨log', w'', hCreate, -, hRef⟩ := create_refines (X := X) (σ := Unit) hEnv hFresh config
    rw [hRun] at hCreate
    cases hCreate
    exact ⟨0, 0, hRef⟩
  | @acknowledged env op reply log log' w w' rs _ hEnv hOp hRun ih =>
    obtain ⟨oldest, n, hRef⟩ := ih
    have hSpec := exec_spec hX hEnv.clean hRef hOp
    rw [wp, hRun] at hSpec
    obtain ⟨-, ⟨records, oldest'⟩, hStep, hRef'⟩ := hSpec
    obtain rfl : records = rs ++ op.records := hStep.records
    exact ⟨oldest', _, hRef'⟩
  | @failed env op e log log' w w' rs _ hEnv hOp hRun ih =>
    obtain ⟨oldest, n, hRef⟩ := ih
    have hSpec := exec_spec hX hEnv.clean hRef hOp
    rw [wp, hRun] at hSpec
    obtain ⟨-, ⟨⟨records, oldest'⟩, hStep, hRef'⟩, -⟩ := hSpec
    obtain rfl : records = rs := hStep.records
    exact ⟨oldest', _, hRef'⟩
  | @reopened env config log log' w w' rs _ hEnv hRun ih =>
    obtain ⟨oldest, n, hRef⟩ := ih
    obtain ⟨log'', w'', hOpen, -, hRef'⟩ := reopen_quiet hEnv hRef config
    rw [hRun] at hOpen
    cases hOpen
    exact ⟨oldest, n, hRef'⟩

end

/-- Every fsync fails and nothing else. -/
def fsyncFails : Env FileName where
  outcome _ call :=
    match call with
    | .syncData _ => .fail .other 0
    | _ => .ok
  clock _ := 0
  mtime _ _ := 0

end Kafko
