import Kafko.Storage.RetentionSpec

/-!
# Opening a log after a crash

What a crash leaves of a directory is again described by the layout it had (`OnDisk.crash`):
sealed files were synced, and the active file keeps a prefix that covers its sync point.
`Log.open_` trusts the sealed segments, scans the active one up to the first torn frame,
cuts the rest off and rebuilds its index. Every step of it leaves a directory that the old
layout still describes, so a crash inside recovery is no different from one before it.
-/

namespace Kafko

open Disk

/-! ## Crashes -/

/-- A frame that decodes, and none of whose strict prefixes does. -/
structure Whole (X : Crates) (f : LogFrame) : Prop where
  readable : Readable X f
  torn : ∀ n, n < f.bytes.length → ∃ needed,
    Record.decode X (f.bytes.take n) = .err (.truncated needed)

theorem Settled.survives {f g : File} (h : Settled f) (hSurvives : f.Survives g) :
    g.data = f.data ∧ Settled g := by
  obtain ⟨n, hn, hData⟩ := hSurvives.kept
  have hSame : g.data = f.data := by
    rw [hData, h.2, List.append_nil, List.take_of_length_le (by rw [← h.1]; exact hn)]
  refine ⟨hSame, ?_, hSurvives.cut⟩
  rw [hSurvives.synced, hSame, h.1]

theorem ActiveOnDisk.survives {f g : File} {fs : List LogFrame} {durable : Nat}
    (h : ActiveOnDisk f fs durable) (hSurvives : f.Survives g) : ActiveOnDisk g fs durable := by
  obtain ⟨n, hn, hData⟩ := hSurvives.kept
  refine ⟨?_, ?_, ?_⟩
  · rw [hSurvives.cut, List.append_nil, hData]
    exact (List.take_prefix _ _).trans h.content
  · rw [hSurvives.synced]
    exact h.synced
  · have := h.covered
    rw [hSurvives.synced, hData, List.length_take, List.length_append]
    omega

/-- The directory after a crash fits the layout it had. -/
theorem OnDisk.crash {d d' : Store FileName} {L : Layout} (h : OnDisk d L)
    (hSurvives : d.Survives d') : OnDisk d' L := by
  refine ⟨h.chain, ?_, ?_, ?_, ?_⟩
  · intro c hc
    obtain ⟨⟨f, hf, hData, hSettled⟩, ⟨x, entries, hx, hxData, hEntries, hxSettled⟩⟩ :=
      h.chunks c hc
    obtain ⟨g, hg, hfg⟩ := hSurvives.get_some hf
    obtain ⟨y, hy, hxy⟩ := hSurvives.get_some hx
    obtain ⟨hSame, hSettled'⟩ := hSettled.survives hfg
    obtain ⟨hxSame, hxSettled'⟩ := hxSettled.survives hxy
    exact ⟨⟨g, hg, hSame.trans hData, hSettled'⟩,
      ⟨y, entries, hy, hxSame.trans hxData, hEntries, hxSettled'⟩⟩
  · obtain ⟨f, hf, hActive⟩ := h.active
    obtain ⟨g, hg, hfg⟩ := hSurvives.get_some hf
    exact ⟨g, hg, hActive.survives hfg⟩
  · intro b hb
    rw [hSurvives.names] at hb
    exact h.logs b hb
  · intro b hb
    rw [hSurvives.names] at hb
    exact h.indexes b hb

/-- No truncation of a `.log` file is pending. -/
def Rested (d : Store FileName) : Prop := ∀ b f, d.get (.log b) = some f → f.cut = []

theorem rested_of_crash {d d' : Store FileName} (h : d.Survives d') : Rested d' := by
  intro b g hg
  have hSome := h.names (.log b)
  rw [hg, Option.isSome_some] at hSome
  obtain ⟨f, hf⟩ := Option.isSome_iff_exists.mp hSome.symm
  exact (h.files _ f g hf hg).cut

theorem Live.rested {log : Log} {d : Store FileName} {L : Layout} (h : Live log d L) :
    Rested d := by
  intro b g hg
  rcases h.disk.logs b (by rw [hg]; rfl) with rfl | ⟨c, hc, rfl⟩
  · obtain ⟨init, active, f, hParts⟩ := h.parts
    obtain rfl : f = g := Option.some.inj (hParts.file.symm.trans hg)
    exact hParts.cut
  · obtain ⟨f, hf, -, hSettled⟩ := (h.disk.chunks c hc).log
    obtain rfl : f = g := Option.some.inj (hf.symm.trans hg)
    exact hSettled.2

/-! ## Layouts cut to some frames of the active chunk -/

namespace Layout

def cutTo (L : Layout) (k : Nat) : Layout :=
  { L with active := ⟨L.active.base, L.active.frames.take k⟩ }

theorem push_cutTo (L : Layout) (k : Nat) :
    (L.cutTo k).push (L.active.frames.drop k) = L := by
  simp [cutTo, push]

theorem cutTo_length (L : Layout) : L.cutTo L.active.frames.length = L := by
  simp [cutTo]

theorem next_cutTo {L : Layout} {k : Nat} (hk : k ≤ L.active.frames.length) :
    (L.cutTo k).next = L.active.base + k := by
  simp [cutTo, next, Chunk.next, hk]

end Layout

/-- How much of the active chunk a file holds: `k` whole frames and a torn one. -/
structure Holds (f : File) (fs : List LogFrame) (k : Nat) (torn : Bytes) : Prop where
  le : k ≤ fs.length
  data : f.data = flat (fs.take k) ++ torn
  tail : (k = fs.length ∧ torn = []) ∨
    ∃ frame, fs[k]? = some frame ∧ ∃ n, n < frame.bytes.length ∧ torn = frame.bytes.take n

theorem Holds.exists {f : File} {fs : List LogFrame} (h : f.data <+: flat fs) :
    ∃ k torn, Holds f fs k torn := by
  obtain ⟨k, torn, hk, hData, hTail⟩ := exists_torn h
  exact ⟨k, torn, hk, hData, hTail⟩

/-- The file holds everything up to its sync point. -/
theorem Holds.synced_le {f : File} {fs : List LogFrame} {k n : Nat} {torn : Bytes}
    (h : Holds f fs k torn) (hn : n ≤ fs.length) (hLen : span (fs.take n) ≤ f.data.length) :
    n ≤ k := by
  rcases h.tail with ⟨rfl, -⟩ | ⟨frame, hFrame, m, hm, rfl⟩
  · exact hn
  · by_contra hlt
    have hMono := span_take_mono fs (m := k + 1) (n := n) (by omega)
    have hNext : span (fs.take (k + 1)) = span (fs.take k) + frame.bytes.length := by
      rw [List.take_add_one, hFrame, Option.toList_some, span_append]
      simp
    rw [h.data, List.length_append, List.length_take] at hLen
    have hSpan : (flat (fs.take k)).length = span (fs.take k) := rfl
    omega

theorem Holds.full {f : File} {fs : List LogFrame} {k : Nat} {torn : Bytes}
    (h : Holds f fs k torn) (hData : f.data = flat fs) : k = fs.length ∧ torn = [] := by
  have hk : fs.length ≤ k := by
    apply h.synced_le (Nat.le_refl _)
    rw [List.take_length, hData, span]
  have hEq : k = fs.length := Nat.le_antisymm h.le hk
  refine ⟨hEq, ?_⟩
  have := h.data
  rw [hEq, List.take_length, hData] at this
  simpa using this

/-- A torn frame stops the scan. -/
theorem Holds.torn_stops {X : Crates} {f : File} {fs : List LogFrame} {k : Nat} {torn : Bytes}
    (h : Holds f fs k torn) (hWhole : ∀ g ∈ fs, Whole X g) :
    torn = [] ∨ ∃ needed, Record.decode X torn = .err (.truncated needed) := by
  rcases h.tail with ⟨-, hNil⟩ | ⟨frame, hFrame, n, hn, rfl⟩
  · exact Or.inl hNil
  · exact Or.inr ((hWhole frame (List.mem_of_getElem? hFrame)).torn n hn)

/-! ## The scan and the truncation -/

namespace Log

open IndexedSegment

variable {env : Env FileName} {w : World FileName} {X : Crates}

theorem lastValid_flat {fs : List LogFrame} {torn : Bytes} (h : Decodes X torn fs)
    (hTorn : torn = [] ∨ ∃ needed, Record.decode X torn = .err (.truncated needed))
    {fuel : Nat} (hFuel : fs.length ≤ fuel) (pos : Nat) :
    lastValid X fuel (flat fs ++ torn) pos = .ok (pos + span fs) := by
  induction fs generalizing fuel pos with
  | nil =>
    rw [flat_nil, List.nil_append, span_nil, Nat.add_zero]
    cases fuel with
    | zero => rfl
    | succ fuel =>
      rw [lastValid]
      rcases hTorn with rfl | ⟨needed, hDecode⟩
      · rfl
      · rw [hDecode]
        split <;> rfl
  | cons f fs ih =>
    obtain ⟨fuel, rfl⟩ : ∃ n, fuel = n + 1 := ⟨fuel - 1, by simp at hFuel; omega⟩
    have hNe : (flat (f :: fs) ++ torn).isEmpty = false := by
      simp [f.nonempty]
    rw [lastValid, hNe, flat_cons, List.append_assoc, h.1]
    simp only [Bool.false_eq_true, if_false, List.length_append, Nat.add_sub_cancel]
    rw [ih h.2 (by simpa using hFuel), span_cons, Nat.add_assoc]

theorem readWhole_spec (hFull : env.FullReads) {s : Segment} {f : File}
    (hs : SegmentOk w.store s f) :
    wp env readWhole
      { ok := fun bytes s' w' => bytes = f.data ∧ s'.baseOffset = s.baseOffset ∧
          ∃ g, SegmentOk w'.store s' g ∧ w.store.Updates w'.store s.path g ∧
            g.rewind = f.rewind
        err := fun _ _ _ => ¬ env.Steady
        panic := fun _ _ _ => False
        crash := fun _ w' => ¬ env.Alive ∧ ∃ g, w.store.Updates w'.store s.path g ∧
          g.rewind = f.rewind } s w := by
  rw [readWhole, wp_get_bind]
  refine wp_bind_of (Segment.readAt_spec hFull hs 0 s.size) ?_ (fun _ _ _ hE => hE.1)
    (fun _ _ _ hF => hF) (fun _ _ hC => hC)
  rintro bytes s' w' ⟨rfl, hBase, hRead⟩
  rw [wp_pure]
  refine ⟨?_, hBase, hRead⟩
  simp [hs.size]

/-- What the truncation of a segment to the whole frames `fs` may end in. Up to the sync
that ends it no byte is lost. -/
def truncatePost (env : Env FileName) (d : Store FileName) (s : Segment) (f : File)
    (fs : List LogFrame) : Post FileName KafkoError Segment Unit where
  ok := fun _ s' w' => s'.baseOffset = s.baseOffset ∧
    ∃ g, SegmentOk w'.store s' g ∧ d.Updates w'.store s.path g ∧
      g.data = flat fs ∧ g.cut = [] ∧ (g.synced = f.synced ∨ g.synced = span fs)
  err := fun _ _ _ => ¬ env.Steady
  panic := fun _ _ _ => False
  crash := fun _ w' => ¬ env.Alive ∧ ∃ g, d.Updates w'.store s.path g ∧
    g.data ++ g.cut = f.data ∧ g.synced = f.synced ∧ span fs ≤ g.data.length

section Truncation

variable {d : Store FileName} {s s' : Segment} {f g : File} {fs : List LogFrame} {torn : Bytes}

theorem truncate_spec (hUpd : d.Updates w.store s.path g) (hBase : s'.baseOffset = s.baseOffset)
    (hData : g.data = f.data) (hSynced : g.synced = f.synced) (hCut : g.cut = [])
    (hLe : span fs ≤ g.data.length) (hTake : g.data.take (span fs) = flat fs) :
    wp env (Segment.truncate (span fs)) (truncatePost env d s f fs) s' w := by
  have hPath : s'.path = s.path := by rw [Segment.path, hBase, Segment.path]
  have hUpd₁ := hUpd.trans (Store.updates_put w.store s.path (g.setLen (span fs)))
  have hUpd₂ := hUpd₁.trans (Store.updates_put _ s.path (g.setLen (span fs)).sync)
  have hData₁ : (g.setLen (span fs)).data = flat fs := by rw [File.setLen_of_le hLe, hTake]
  rw [Segment.truncate, wp_get_bind, wp_bind, hPath]
  refine wp_onFile hUpd.self ?_ ?_ ?_
  · dsimp only
    rw [wp_bind]
    refine wp_onFile hUpd₁.self ?_ ?_ ?_
    · dsimp only
      rw [wp_modify]
      refine ⟨hBase, (g.setLen (span fs)).sync, ⟨?_, ?_, ?_⟩, hUpd₂, hData₁, rfl, Or.inr ?_⟩
      · rw [← hUpd₂.self]
        exact congrArg _ hPath
      · exact (congrArg List.length hData₁).symm
      · intro p hp
        cases hp
      · exact congrArg List.length hData₁
    · intro kind k hFail
      exact Env.not_steady_of_fail hFail
    · -- the bytes that were cut off may still come back
      intro k hCrash
      refine ⟨Env.not_alive_of_crash hCrash, g.setLen (span fs), hUpd₁, ?_, hSynced, ?_⟩
      · rw [File.setLen_content hLe, hData, hCut, List.append_nil]
      · rw [hData₁]
        exact Nat.le_refl _
  · intro kind k hFail
    exact Env.not_steady_of_fail hFail
  · intro k hCrash
    exact ⟨Env.not_alive_of_crash hCrash, g, hUpd, by rw [hData, hCut, List.append_nil], hSynced,
      hLe⟩

/-- The end of the recovery scan is behind the last whole frame. -/
theorem truncateBehind_spec (hg : SegmentOk w.store s' g) (hUpd : d.Updates w.store s.path g)
    (hBase : s'.baseOffset = s.baseOffset) (hRewind : g.rewind = f.rewind) (hCut : f.cut = [])
    (hData : f.data = flat fs ++ torn) {pos : Nat} (hPos : pos = span fs) :
    wp env (do
        let s ← Fx.get
        if pos < s.size then Segment.truncate pos else pure ())
      (truncatePost env d s f fs) s' w := by
  subst hPos
  obtain ⟨hgData, hgSynced, hgCut⟩ :
      g.data = f.data ∧ g.synced = f.synced ∧ g.cut = [] := by
    simp only [File.rewind, File.mk.injEq] at hRewind
    exact ⟨hRewind.1, hRewind.2.1, hRewind.2.2.1.trans hCut⟩
  have hLen : g.data.length = span fs + torn.length := by
    rw [hgData, hData, List.length_append, span]
  have hTake : g.data.take (span fs) = flat fs := by
    rw [hgData, hData, span, List.take_left']
    rfl
  rw [wp_get_bind]
  by_cases hShort : span fs < s'.size
  · rw [if_pos hShort]
    exact truncate_spec hUpd hBase hgData hgSynced hgCut (by omega) hTake
  · rw [if_neg hShort, wp_pure]
    have hNil : torn = [] := by
      have := hg.size
      exact List.eq_nil_of_length_eq_zero (by omega)
    exact ⟨hBase, g, hg, hUpd, by rw [hgData, hData, hNil, List.append_nil], hgCut,
      Or.inl hgSynced⟩

/-- The recovery scan and the truncation behind it leave the whole frames. -/
theorem truncateTail_spec (hFull : env.FullReads) (hs : SegmentOk w.store s f) (hCut : f.cut = [])
    (hData : f.data = flat fs ++ torn) (hReadable : ∀ g ∈ fs, Readable X g)
    (hTorn : torn = [] ∨ ∃ needed, Record.decode X torn = .err (.truncated needed)) :
    wp env (truncateTail X) (truncatePost env w.store s f fs) s w := by
  have hLen : f.data.length = span fs + torn.length := by rw [hData, List.length_append, span]
  rw [truncateTail, wp_bind, scanForLastValidPosition, wp_get_bind]
  by_cases hEmpty : s.size = 0
  · rw [if_pos hEmpty, wp_pure]
    have := hs.size
    exact truncateBehind_spec hs (Store.Updates.refl hs.file) rfl rfl hCut hData (by omega)
  · rw [if_neg hEmpty]
    refine wp_bind_of (readWhole_spec hFull hs) ?_ (fun _ _ _ hE => hE) (fun _ _ _ hF => hF) ?_
    · rintro bytes s' w' ⟨rfl, hBase, g, hg, hUpd, hRewind⟩
      have hFuel : fs.length ≤ f.data.length := by
        have := length_le_span fs
        omega
      have hScan := lastValid_flat (decodes_of_readable hReadable torn) hTorn hFuel 0
      rw [← hData, Nat.zero_add] at hScan
      rw [hScan, wp_lift_ok]
      exact truncateBehind_spec hg hUpd hBase hRewind hCut hData rfl
    · rintro s' w' ⟨hNoisy, g, hUpd, hRewind⟩
      simp only [File.rewind, File.mk.injEq] at hRewind
      refine ⟨hNoisy, g, hUpd, ?_, hRewind.2.1, ?_⟩
      · rw [hRewind.1, hRewind.2.2.1, hCut, List.append_nil]
      · rw [hRewind.1, hLen]
        omega

end Truncation

/-! ## The rebuilt index -/

theorem replayLoop_spec (hClean : Clean env) {x : SparseIndex} {base interval : Nat}
    {done gs : List LogFrame} (h : Tracking w.store x base interval done)
    (hReadable : ∀ g ∈ gs, Readable X g) {fuel : Nat} (hFuel : gs.length ≤ fuel) :
    wp env (replayLoop X base fuel (flat gs) (span done) done.length)
      { ok := fun count x' w' => count = done.length + gs.length ∧
          Tracking w'.store x' base interval (done ++ gs) ∧
          ∃ g, w.store.Updates w'.store x.path g
        err := fun _ _ _ => False
        panic := fun _ _ _ => ¬ Trackable base interval (done ++ gs)
        crash := fun _ w' => ¬ env.Alive ∧ ∃ g, w.store.Updates w'.store x.path g } x w := by
  induction gs generalizing fuel done x w with
  | nil =>
    obtain ⟨g, hg, -⟩ := h.file.file
    have hDone : ∀ fuel, replayLoop X base fuel [] (span done) done.length =
        pure done.length := by
      intro fuel
      cases fuel <;> rfl
    rw [flat_nil, hDone, wp_pure, List.append_nil]
    exact ⟨rfl, h, g, Store.Updates.refl hg⟩
  | cons frame gs ih =>
    obtain ⟨fuel, rfl⟩ : ∃ n, fuel = n + 1 := ⟨fuel - 1, by simp at hFuel; omega⟩
    have hNe : (flat (frame :: gs)).isEmpty = false := by
      simp [frame.nonempty]
    have hPath : ∀ x' : SparseIndex, x' = SparseIndex.tracked base interval (done ++ [frame]) →
        x'.path = x.path := by
      rintro x' rfl
      rw [SparseIndex.path, SparseIndex.path, h.tracked, SparseIndex.tracked_baseOffset,
        SparseIndex.tracked_baseOffset]
    rw [replayLoop, hNe, flat_cons, hReadable frame List.mem_cons_self]
    simp only [Bool.false_eq_true, if_false]
    rw [wp_lift_bind]
    simp only [List.length_append, Nat.add_sub_cancel]
    refine wp_bind_of (SparseIndex.trackFrame_spec hClean h frame) ?_ (fun _ _ _ hF => hF) ?_
      (fun _ _ hC => hC)
    · rintro - x' w' ⟨hTracking, g, hUpd⟩
      have hFuel' : gs.length ≤ fuel := by simpa using hFuel
      have hRest := ih hTracking (fun g hg => hReadable g (List.mem_cons_of_mem _ hg)) hFuel'
      rw [span_append, span_cons, span_nil, Nat.add_zero, List.length_append,
        List.length_singleton, List.append_assoc] at hRest
      refine wp_mono hRest ?_ (fun _ _ _ hF => hF) (fun _ _ _ hP => hP) ?_
      · rintro count x'' w'' ⟨rfl, hTracking', g', hUpd'⟩
        rw [hPath x' hTracking.tracked] at hUpd'
        refine ⟨?_, hTracking', g', hUpd.trans hUpd'⟩
        rw [List.length_cons]
        omega
      · rintro x'' w'' ⟨hNoisy, g', hUpd'⟩
        rw [hPath x' hTracking.tracked] at hUpd'
        exact ⟨hNoisy, g', hUpd.trans hUpd'⟩
    · rintro m x' w' ⟨-, hNeed, hBig⟩ hTrack
      have hSmall := hTrack done.length (by simp) (by simpa [← h.tracked] using hNeed)
      rw [List.take_left] at hSmall
      omega

theorem open_spec_segment {σ : Type} {st : σ} {base : Nat} {f : File}
    (hf : w.store.get (.log base) = some f) :
    wp env (Segment.open_ base)
      { ok := fun s st' w' => st' = st ∧ s = ⟨base, f.data.length, some 0⟩ ∧
          w.store.Updates w'.store (.log base) (f.seek 0)
        err := fun _ _ _ => ¬ env.Steady
        panic := fun _ _ _ => False
        crash := fun _ w' => ¬ env.Alive ∧ w.store.Updates w'.store (.log base) f } st w := by
  rw [Segment.open_, wp_bind]
  refine wp_onFile hf ?_ ?_ ?_
  · have hUpd := Store.updates_put w.store (.log base) f
    dsimp only
    rw [wp_bind]
    refine wp_onFile hUpd.self ?_ ?_ ?_
    · simp only [wp_pure]
      exact ⟨trivial, trivial, hUpd.trans (Store.updates_put _ _ _)⟩
    · intro kind k hFail
      exact Env.not_steady_of_fail hFail
    · intro k hCrash
      exact ⟨Env.not_alive_of_crash hCrash, hUpd⟩
  · intro kind k hFail
    exact Env.not_steady_of_fail hFail
  · intro k hCrash
    exact ⟨Env.not_alive_of_crash hCrash, Store.Updates.refl hf⟩

theorem open_spec_index {σ : Type} {st : σ} {base : Nat} (interval : Nat) {f : File}
    (hf : w.store.get (.index base) = some f) :
    wp env (SparseIndex.open_ base interval)
      { ok := fun x st' w' => st' = st ∧
          x = ⟨base, SparseIndex.decodeEntries f.data, 0, interval⟩ ∧
          w.store.Updates w'.store (.index base) (f.seek 0)
        err := fun _ _ _ => ¬ env.Steady
        panic := fun _ _ _ => False
        crash := fun _ w' => ¬ env.Alive ∧ w.store.Updates w'.store (.index base) f } st w := by
  rw [SparseIndex.open_, wp_bind]
  refine wp_onFile hf ?_ ?_ ?_
  · have hUpd := Store.updates_put w.store (.index base) f
    dsimp only
    rw [wp_bind]
    refine wp_onFile hUpd.self ?_ ?_ ?_
    · simp only [wp_pure]
      exact ⟨trivial, trivial, hUpd.trans (Store.updates_put _ _ _)⟩
    · intro kind k hFail
      exact Env.not_steady_of_fail hFail
    · intro k hCrash
      exact ⟨Env.not_alive_of_crash hCrash, hUpd⟩
  · intro kind k hFail
    exact Env.not_steady_of_fail hFail
  · intro k hCrash
    exact ⟨Env.not_alive_of_crash hCrash, Store.Updates.refl hf⟩

/-- What the recovery of the active segment may end in: `k` whole frames are kept. -/
def recoverPost {σ : Type} (env : Env FileName) (d : Store FileName) (L : Layout) (k interval : Nat)
    (st : σ) : Post FileName KafkoError σ (IndexedSegment × Nat) where
  ok := fun r st' w' => st' = st ∧ r.2 = k ∧
    Loaded w'.store r.1 ⟨L.active.base, L.active.frames.take k⟩ ∧
    r.1.index = SparseIndex.tracked L.active.base interval (L.active.frames.take k) ∧
    OnDisk w'.store (L.cutTo k) ∧
    ∀ name, name ≠ .log L.active.base → name ≠ .index L.active.base →
      w'.store.get name = d.get name
  err := fun _ _ _ => ¬ env.Steady
  panic := fun _ _ _ => ¬ Trackable L.active.base interval (L.active.frames.take k)
  crash := fun _ w' => ¬ env.Alive ∧ OnDisk w'.store L

/-- A directory cut to `k` frames is also described by the layout before the cut. -/
theorem onDisk_of_cutTo {d : Store FileName} {L : Layout} {k : Nat} (h : OnDisk d (L.cutTo k)) :
    OnDisk d L := by
  have hPush := h.push (L.active.frames.drop k)
  rwa [L.push_cutTo k] at hPush

/-- The last part of the recovery: replaying the whole frames into an empty index. -/
theorem replay_spec {σ : Type} {st : σ} (hClean : Clean env) {d : Store FileName} {L : Layout}
    {k interval : Nat} {s : Segment} {g : File} (hk : k ≤ L.active.frames.length)
    (hReadable : ∀ f ∈ L.active.frames.take k, Readable X f)
    (hBase : s.baseOffset = L.active.base) (hs : SegmentOk w.store s g)
    (hData : g.data = flat (L.active.frames.take k)) (hCut : g.cut = [])
    (hDisk : OnDisk w.store (L.cutTo k))
    (hIndex : w.store.get (.index L.active.base) = some File.empty)
    (hSame : ∀ name, name ≠ .log L.active.base → name ≠ .index L.active.base →
      w.store.get name = d.get name) :
    wp env (do
        let r ← Fx.withLocal ⟨s, ⟨L.active.base, [], 0, interval⟩⟩
          (replayRecordsToIndex X L.active.base)
        pure (r.2, r.1))
      (recoverPost env d L k interval st) st w := by
  have hLen : (L.active.frames.take k).length = k := by
    rw [List.length_take]
    omega
  have hPath : s.path = .log L.active.base := by rw [Segment.path, hBase]
  have hStart : Tracking w.store ⟨L.active.base, [], 0, interval⟩ L.active.base interval [] :=
    ⟨⟨File.empty, hIndex, rfl⟩, IndexFor.nil _, rfl⟩
  rw [wp_bind, wp_withLocal, replayRecordsToIndex, wp_get_bind]
  dsimp only
  by_cases hEmpty : s.size = 0
  · rw [if_pos hEmpty, wp_pure]
    have hNil : L.active.frames.take k = [] := by
      rw [← span_eq_zero, span, ← hData, ← hs.size, hEmpty]
    rw [hNil] at hLen
    simp only [wp_pure]
    refine ⟨rfl, hLen, ⟨hBase, ⟨g, hs, hData, hCut⟩, rfl, hStart.file, IndexFor.nil _⟩, ?_,
      hDisk, hSame⟩
    rw [hNil]
    rfl
  rw [if_neg hEmpty, wp_bind, onSegment, wp_zoom]
  refine wp_mono (readWhole_spec hClean.fullReads hs) ?_ (fun _ _ _ hE => hE)
    (fun _ _ _ hF => hF.elim) ?_
  · rintro bytes s' w' ⟨rfl, hBase', g', hs', hUpd, hRewind⟩
    rw [hPath] at hUpd
    have hMoves : w.store.Moves w'.store (.log L.active.base) :=
      ⟨g, g', by rw [← hPath]; exact hs.file, hUpd, hRewind⟩
    have hDisk' := hDisk.rewound hMoves.rewind
    simp only [File.rewind, File.mk.injEq] at hRewind
    have hStart' : Tracking w'.store ⟨L.active.base, [], 0, interval⟩ L.active.base interval [] :=
      ⟨⟨File.empty, by rw [← hIndex]; exact hUpd.others _ (by simp [SparseIndex.path]), rfl⟩,
        IndexFor.nil _, rfl⟩
    have hFuel : (L.active.frames.take k).length ≤ g.data.length := by
      rw [hData]
      exact length_le_span _
    have hLoop := replayLoop_spec (X := X) hClean hStart' hReadable hFuel
    rw [← hData, span_nil, List.length_nil, List.nil_append] at hLoop
    dsimp only
    rw [onIndex, wp_zoom]
    refine wp_mono hLoop ?_ (fun _ _ _ hF => hF.elim) (fun _ _ _ hP => hP) ?_
    · rintro count x w'' ⟨hCount, hx, y, hUpd'⟩
      have hUpd'' : w'.store.Updates w''.store (.index L.active.base) y := hUpd'
      have hxBase : x.baseOffset = L.active.base := by
        rw [hx.tracked, SparseIndex.tracked_baseOffset]
      have hLog : w''.store.get (.log L.active.base) = some g' := by
        rw [hUpd''.others _ (by simp)]
        exact hUpd.self
      simp only [wp_pure]
      refine ⟨rfl, by omega, ⟨hBase'.trans hBase, ⟨g', ⟨?_, hs'.size, hs'.cursor⟩,
        hRewind.1.trans hData, hRewind.2.2.1.trans hCut⟩, hxBase, hx.file, hx.entries⟩, hx.tracked,
        ?_, ?_⟩
      · rw [← hLog, Segment.path, hBase'.trans hBase]
      · exact hDisk'.index_only hUpd''.others
      · intro name hne hne'
        rw [hUpd''.others name hne', hUpd.others name hne, hSame name hne hne']
    · rintro x w'' ⟨hNoisy, y, hUpd'⟩
      have hUpd'' : w'.store.Updates w''.store (.index L.active.base) y := hUpd'
      exact ⟨hNoisy, onDisk_of_cutTo (hDisk'.index_only hUpd''.others)⟩
  · rintro s' w' ⟨hNoisy, g', hUpd, hRewind⟩
    have hMoves : w.store.Moves w'.store s.path := ⟨g, g', hs.file, hUpd, hRewind⟩
    exact ⟨hNoisy, onDisk_of_cutTo (hDisk.rewound hMoves.rewind)⟩

/-- The directory after the truncation. -/
theorem onDisk_cutTo {d d' : Store FileName} {L : Layout} {f g : File} {k : Nat} {torn : Bytes}
    (h : OnDisk d L) (hf : d.get (.log L.active.base) = some f)
    (hHolds : Holds f L.active.frames k torn) (hUpd : d.Updates d' (.log L.active.base) g)
    (hData : g.data = flat (L.active.frames.take k)) (hCut : g.cut = [])
    (hSynced : g.synced = f.synced ∨ g.synced = span (L.active.frames.take k)) :
    OnDisk d' (L.cutTo k) := by
  obtain ⟨f', hf', hActive⟩ := h.active
  obtain rfl : f = f' := Option.some.inj (hf.symm.trans hf')
  obtain ⟨n, hDurable, hn, hSync⟩ := hActive.synced
  have hnk : n ≤ k := hHolds.synced_le hn (by rw [← hSync]; exact hActive.covered)
  have hLen : (L.active.frames.take k).length = k := by
    have := hHolds.le
    rw [List.length_take]
    omega
  refine h.congr rfl rfl rfl ?_ ⟨g, hUpd.self, ?_⟩
  · intro name hne _
    rw [hUpd.others name hne]
  rcases hSynced with hSame | hAll
  · refine activeOnDisk_of_full hData hCut hDurable ?_ ?_
    · exact hnk.trans (Nat.le_of_eq hLen.symm)
    · change g.synced = span ((L.active.frames.take k).take n)
      rw [hSame, hSync, List.take_take, Nat.min_eq_left hnk]
  · apply activeOnDisk_of_full hData hCut (hDurable.trans hnk) (Nat.le_of_eq hLen.symm)
    change g.synced = span ((L.active.frames.take k).take k)
    rw [hAll, List.take_take, Nat.min_self]

theorem recoverActiveSegment_spec {σ : Type} {st : σ} (hClean : Clean env) {L : Layout} {f : File}
    {k : Nat} {torn : Bytes} (h : OnDisk w.store L)
    (hf : w.store.get (.log L.active.base) = some f) (hCut : f.cut = [])
    (hHolds : Holds f L.active.frames k torn) (hWhole : ∀ g ∈ L.active.frames, Whole X g)
    (interval : Nat) :
    wp env (recoverActiveSegment X L.active.base interval)
      (recoverPost env w.store L k interval st) st w := by
  have hReadable : ∀ g ∈ L.active.frames.take k, Readable X g :=
    fun g hg => (hWhole g (List.mem_of_mem_take hg)).readable
  obtain ⟨f', hf', hActive⟩ := h.active
  obtain rfl : f = f' := Option.some.inj (hf.symm.trans hf')
  obtain ⟨n, hDurable, hn, hSync⟩ := hActive.synced
  have hnk : n ≤ k := hHolds.synced_le hn (by rw [← hSync]; exact hActive.covered)
  rw [recoverActiveSegment]
  refine wp_bind_of (open_spec_segment hf) ?_ (fun _ _ _ hE => hE) (fun _ _ _ hF => hF.elim) ?_
  · rintro s st' w₁ ⟨rfl, rfl, hUpd₁⟩
    have hs : SegmentOk w₁.store ⟨L.active.base, f.data.length, some 0⟩ (f.seek 0) := by
      refine ⟨hUpd₁.self, rfl, ?_⟩
      intro p hp
      exact Option.some.inj hp
    rw [wp_bind, wp_withLocal]
    refine wp_mono (truncateTail_spec hClean.fullReads hs hCut hHolds.data hReadable
      (hHolds.torn_stops hWhole)) ?_ (fun _ _ _ hE => hE) (fun _ _ _ hF => hF.elim) ?_
    · rintro - s₂ w₂ ⟨hBase, g, hs₂, hUpd₂, hData, hgCut, hSynced⟩
      have hUpd := hUpd₁.trans hUpd₂
      have hDisk := onDisk_cutTo h hf hHolds hUpd hData hgCut hSynced
      dsimp only
      refine wp_bind_of (removeIfExists_spec hClean (.index L.active.base)
        (P := fun d => d.get (.index L.active.base) = none ∧
          ∀ name, name ≠ .index L.active.base → d.get name = w₂.store.get name) ?_ ?_) ?_
        (fun _ _ _ hF => hF.elim) (fun _ _ _ hF => hF.elim) ?_
      · exact ⟨Store.get_erase_self _ _, fun name hne => Store.get_erase_of_ne _ hne⟩
      · exact fun hNone => ⟨hNone, fun _ _ => rfl⟩
      · rintro - st' w₃ ⟨rfl, hGone, hSame₃⟩
        have hDisk₃ := hDisk.index_only hSame₃
        rw [wp_bind, SparseIndex.create, wp_bind]
        refine wp_createNew hGone ?_ ?_ ?_
        · simp only [wp_pure]
          have hUpd₄ := Store.updates_put w₃.store (.index L.active.base) File.empty
          refine replay_spec hClean hHolds.le hReadable hBase ⟨?_, hs₂.size, hs₂.cursor⟩ hData
            hgCut (hDisk₃.index_only hUpd₄.others) hUpd₄.self ?_
          · rw [← hs₂.file]
            have hNe : s₂.path ≠ .index L.active.base := by simp [Segment.path]
            exact (hUpd₄.others _ hNe).trans (hSame₃ _ hNe)
          · intro name hne hne'
            rw [← hUpd.others name hne, ← hSame₃ name hne']
            exact hUpd₄.others name hne'
        · intro kind k hFail
          exact Env.not_steady_of_fail hFail
        · intro k hCrash
          exact ⟨Env.not_alive_of_crash hCrash, onDisk_of_cutTo hDisk₃⟩
      · rintro st' w₃ ⟨hNoisy, -, hw⟩
        rw [← hw] at hDisk
        exact ⟨hNoisy, onDisk_of_cutTo hDisk⟩
    · -- a crash before the sync of the truncation loses nothing
      rintro s₂ w₂ ⟨hNoisy, g, hUpd₂, hContent, hSynced, hLe⟩
      have hUpd := hUpd₁.trans hUpd₂
      refine ⟨hNoisy, h.congr rfl rfl rfl ?_ ⟨g, hUpd.self, ?_, ?_, ?_⟩⟩
      · intro name hne _
        rw [hUpd.others name hne]
      · have hBefore := hActive.content
        rw [hCut, List.append_nil] at hBefore
        rw [hContent]
        exact hBefore
      · rw [hSynced]
        exact hActive.synced
      · have := span_take_mono L.active.frames hnk
        rw [hSynced]
        exact (Nat.le_of_eq hSync).trans (this.trans hLe)
  · rintro st' w₁ ⟨hNoisy, hUpd₁⟩
    have hMoves : w.store.Moves w₁.store (.log L.active.base) := ⟨f, f, hf, hUpd₁, rfl⟩
    exact ⟨hNoisy, h.rewound hMoves.rewind⟩

end Log

end Kafko
