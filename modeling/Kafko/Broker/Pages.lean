import Kafko.Broker.Recovery
import Kafko.Broker.Ledger

/-!
# Pages in files

How a page of the ledger lies in the files of a partition, and what opening, operating and
closing a log make of it. A writer that has the files open refines the page; without a writer
the files are those that some writer has left, unless the machine has stopped, after which they
hold a first part of the page with all of its durable records.
-/

namespace Kafko

open Disk

namespace Page

/-- What a stop of the machine leaves of a page. -/
def Left (X : Crates) (p : Page) (d : Store FileName) : Prop :=
  (Fresh d ∧ p.history = History.empty ∧ p.durable = 0) ∨ Recoverable X d p.history p.durable

/-- The files hold the page; the writer that has them open is given if there is one. -/
def Stored (X : Crates) (p : Page) : Option Log → Store FileName → Prop
  | some log, d => p.torn = false ∧ Refines X log d p.history p.durable
  | none, d => if p.torn then p.Left X d else ∃ log, Refines X log d p.history p.durable

variable {X : Crates} {env : Env FileName} {p : Page} {log : Log} {d d' : Store FileName}

theorem Stored.left {writer : Option Log} (h : p.Stored X writer d) : p.Left X d := by
  cases writer with
  | some log => exact Or.inr h.2.disk
  | none =>
    cases hTorn : p.torn with
    | true =>
      rw [Stored, hTorn, if_pos rfl] at h
      exact h
    | false =>
      rw [Stored, hTorn, if_neg Bool.false_ne_true] at h
      obtain ⟨log, hRef⟩ := h
      exact Or.inr hRef.disk

theorem Stored.released (h : p.Stored X (some log) d) : p.Stored X none d := by
  obtain ⟨hWhole, hRef⟩ := h
  rw [Stored, hWhole, if_neg Bool.false_ne_true]
  exact ⟨log, hRef⟩

/-- A page that was cut when it was opened is a first part of the page before. -/
theorem Reopens.left {p' : Page} (hReopens : p.Reopens p') (h : p'.Stored X (some log) d) :
    p.Left X d := by
  cases hReopens with
  | whole _ => exact h.left
  | @cut k hTorn hDurable hk =>
    obtain ⟨L, hLive, hSound, hRep, hn⟩ := h.2
    exact Or.inr ⟨L, _, hLive.disk, hSound, hRep, rfl, List.take_prefix k _, hn⟩

theorem Left.crash (h : p.Left X d) (hSurvives : d.Survives d') : p.Left X d' := by
  rcases h with ⟨hFresh, hEmpty⟩ | hRec
  · exact Or.inl ⟨hFresh.crash hSurvives, hEmpty⟩
  · exact Or.inr (hRec.crash hSurvives)

theorem Left.torn (h : p.Left X d) : p.tear.Stored X none d := h

end Page

section

variable {X : Crates} {env : Env FileName} {d : Store FileName} {h : History Record} {n : Nat}

theorem Refines.durable_le {log : Log} (hRef : Refines X log d h n) : n ≤ h.next := by
  obtain ⟨L, hLive, -, hRep, hn⟩ := hRef
  rw [← hRep.next]
  exact hn.trans (Layout.durableOffset_le_next hLive.disk)

/-- Opening files that a writer has left finds all of what they hold. -/
theorem open_refines (hClean : Clean env) {log : Log} (hRef : Refines X log d h n)
    (config : LogConfig) :
    wp env (Log.open_ X config)
      { ok := fun log' _ w' => Refines X log' w'.store h n
        err := fun _ _ _ => ¬ env.Steady
        panic := fun _ _ _ => False
        crash := fun _ w' => ¬ env.Alive ∧ Recoverable X w'.store h n } () ⟨d, 0⟩ := by
  obtain ⟨L, hLive, hSound, hRep, hn⟩ := hRef
  obtain ⟨init, active, f, hParts⟩ := hLive.parts
  have hWhole : ∀ g ∈ L.active.frames, Whole X g := fun g hg =>
    hSound.whole g (List.mem_append_right _ hg)
  have hHolds : Holds f L.active.frames L.active.frames.length [] := by
    refine ⟨Nat.le_refl _, ?_, Or.inl ⟨rfl, rfl⟩⟩
    rw [List.take_length, List.append_nil]
    exact hParts.data
  have hAll : L.cutTo L.active.frames.length = L := by
    rw [Layout.cutTo, List.take_length]
  have hSpec := Log.open_spec (w := ⟨d, 0⟩) () hClean hLive.disk hParts.file hParts.cut hHolds
    hWhole config
  rw [hAll] at hSpec
  refine wp_mono hSpec ?_ (fun _ _ _ hErr => hErr) ?_ ?_
  · rintro log' - w' ⟨-, -, hLive'⟩
    exact ⟨L, hLive', hSound, hRep, hn⟩
  · intro m _ w' hBad
    exact hBad ((hSound.positions.take _).trackable _ _)
  · rintro - w' ⟨hStop, hDisk⟩
    exact ⟨hStop, L, h, hDisk, hSound, hRep, rfl, List.prefix_rfl, hn⟩

/-- Opening files without a segment finds an empty history. -/
theorem open_blank (hFresh : Fresh d) (config : LogConfig) :
    wp env (Log.open_ X config)
      { ok := fun log _ w' => Refines X log w'.store History.empty 0
        err := fun _ _ _ => ¬ env.Steady
        panic := fun _ _ _ => False
        crash := fun _ w' => Page.blank.Left X w'.store } () ⟨d, 0⟩ := by
  refine wp_mono (Log.open_fresh_spec (w := ⟨d, 0⟩) hFresh config) ?_ (fun _ _ _ hErr => hErr)
    (fun _ _ _ hPanic => hPanic) ?_
  · rintro log - w' ⟨-, -, hLive⟩
    exact ⟨Layout.initial, hLive, Sound.initial X, ⟨rfl, rfl, rfl⟩, Nat.zero_le _⟩
  · rintro - w' ⟨-, hLeft | hDisk⟩
    · exact Or.inl ⟨hLeft, rfl, rfl⟩
    · exact Or.inr (recoverable_initial hDisk)

end

namespace Page

variable {X : Crates} {env : Env FileName} {p : Page} {log : Log} {d : Store FileName}

/-- Opening these files gives a writer for what is left of the page. -/
def Opens (X : Crates) (config : LogConfig) (env : Env FileName) (p : Page)
    (d : Store FileName) : Prop :=
  p.Left X d ∧ wp env (Log.open_ X config)
    { ok := fun log _ w' => ∃ p', p.Reopens p' ∧ p'.Stored X (some log) w'.store
      err := fun _ _ _ => ¬ env.Steady
      panic := fun _ _ _ => False
      crash := fun _ w' => p.Left X w'.store } () ⟨d, 0⟩

theorem opens_blank (hFresh : Fresh d) (config : LogConfig) : blank.Opens X config env d := by
  refine ⟨Or.inl ⟨hFresh, rfl, rfl⟩, ?_⟩
  refine wp_mono (open_blank hFresh config) ?_ (fun _ _ _ hErr => hErr)
    (fun _ _ _ hPanic => hPanic) (fun _ _ hCrash => hCrash)
  intro log _ w' hRef
  exact ⟨blank, .whole rfl, rfl, hRef⟩

theorem Stored.opens (h : p.Stored X none d) (hRested : Rested d) (hEnv : Faultless env)
    (config : LogConfig) : p.Opens X config env d := by
  refine ⟨h.left, ?_⟩
  cases hTorn : p.torn with
  | false =>
    rw [Stored, hTorn, if_neg Bool.false_ne_true] at h
    obtain ⟨log, hRef⟩ := h
    refine wp_mono (open_refines hEnv.clean hRef config) ?_ (fun _ _ _ hErr => hErr)
      (fun _ _ _ hPanic => hPanic) (fun _ w' hCrash => Or.inr hCrash.2)
    intro log' _ w' hRef'
    exact ⟨p, .whole hTorn, hTorn, hRef'⟩
  | true =>
    rw [Stored, hTorn, if_pos rfl] at h
    rcases h with ⟨hFresh, hEmpty, hZero⟩ | hRec
    · refine wp_mono (open_blank hFresh config) ?_ (fun _ _ _ hErr => hErr)
        (fun _ _ _ hPanic => hPanic) ?_
      · intro log _ w' hRef
        refine ⟨_, .cut hTorn (k := 0) (Nat.le_of_eq hZero) (Nat.zero_le _), rfl, ?_⟩
        rw [hEmpty, hZero]
        exact hRef
      · intro _ w' hLeft
        change p.Left X w'.store
        rw [Left, hEmpty, hZero]
        exact hLeft
    · refine wp_mono (open_recoverable (w := ⟨d, 0⟩) hEnv.clean hRec hRested config) ?_
        (fun _ _ _ hErr => hErr) (fun _ _ _ hPanic => hPanic)
        (fun _ w' hCrash => Or.inr hCrash.2)
      rintro log - w' ⟨-, hDurable, hNext, hRef⟩
      exact ⟨_, .cut hTorn hDurable hNext, rfl, hRef⟩

/-- A writer at work. -/
theorem Stored.exec (hX : X.Lawful) (hClean : Clean env) {w : World FileName}
    (h : p.Stored X (some log) w.store) {op : LogOp} (hOp : op.Admissible X log) :
    wp env (op.exec X)
      { ok := fun reply log' w' => ∃ p', p.Answers op (.ok reply) p' ∧
          p'.Stored X (some log') w'.store
        err := fun e log' w' => ∃ p', p.Answers op (.err e) p' ∧ p'.Stored X (some log') w'.store
        panic := fun _ _ _ => False
        crash := fun _ w' => ∃ p', p.Answers op .crash p' ∧ p'.Left X w'.store } log w := by
  obtain ⟨hWhole, hRef⟩ := h
  have hCount : ∀ log', op.durableAfter log log' p.history.next p.durable = p.durable ∨
      op.durableAfter log log' p.history.next p.durable = p.history.next := by
    intro log'
    unfold LogOp.durableAfter durableCount
    split
    · split
      · exact Or.inr rfl
      · exact Or.inl rfl
    · split
      · exact Or.inr rfl
      · exact Or.inl rfl
    · exact Or.inl rfl
  refine wp_mono (exec_spec hX hClean hRef hOp) ?_ ?_ (fun _ _ _ hPanic => hPanic) ?_
  · rintro reply log' w' ⟨-, h', hAccepts, hRef'⟩
    by_cases hSync : op = .sync
    · rw [if_pos hSync] at hRef'
      exact ⟨_, .accepted hAccepts (Or.inr rfl) (fun _ => rfl), hWhole, hRef'⟩
    · rw [if_neg hSync] at hRef'
      exact ⟨_, .accepted hAccepts (hCount log') (fun h => absurd h hSync), hWhole, hRef'⟩
  · rintro e log' w' ⟨-, ⟨h', hRejects, hRef'⟩, -⟩
    exact ⟨_, .rejected hRejects (hCount log'), hWhole, hRef'⟩
  · rintro log' w' ⟨-, h', hInterrupted, hRec⟩
    refine ⟨_, .interrupted hInterrupted.records hInterrupted.oldest ?_ (hCount log'), Or.inr hRec⟩
    intro hNot
    have hStop := hInterrupted.stop
    rwa [if_neg hNot] at hStop

/-- A writer that ends syncs its log, whatever the environment does with it. -/
theorem Stored.close {w : World FileName} (h : p.Stored X (some log) w.store) {synced : Prop}
    (hSynced : synced → env.Steady) :
    wp env (LogOp.exec X .sync)
      { ok := fun _ log' w' => log' = log ∧ p.Left X w'.store ∧ ∃ p', p.Closes synced p' ∧
          p'.Stored X (some log) w'.store
        err := fun _ log' w' => log' = log ∧ p.Left X w'.store ∧ ∃ p', p.Closes synced p' ∧
          p'.Stored X (some log) w'.store
        panic := fun _ _ _ => False
        crash := fun _ w' => p.Left X w'.store } log w := by
  obtain ⟨hWhole, hRef⟩ := h
  refine wp_bind_of (exec_sync hRef) ?_ ?_ (fun _ _ _ hPanic => hPanic) ?_
  · rintro - log' w' ⟨rfl, hRef'⟩
    have hLeft : p.Left X w'.store := Or.inr (hRef'.weaken hRef.durable_le).disk
    exact ⟨rfl, hLeft, ⟨p.history, p.history.next, p.torn⟩, ⟨rfl, rfl, Or.inl rfl⟩, hWhole, hRef'⟩
  · rintro e log' w' ⟨hNot, rfl, hRef'⟩
    refine ⟨rfl, Or.inr hRef'.disk, p, ⟨rfl, rfl, Or.inr ⟨?_, rfl⟩⟩, hWhole, hRef'⟩
    exact fun hAll => hNot (hSynced hAll)
  · rintro log' w' ⟨-, rfl, hRec⟩
    exact Or.inr hRec

end Page

end Kafko
