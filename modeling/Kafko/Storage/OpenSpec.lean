import Kafko.Storage.RecoverySpec

/-!
# Opening the whole log

`Log.open_` finds the segments by their names, loads the sealed ones with their indexes and
recovers the last one. On an empty directory it creates the first segment.
-/

namespace Kafko

open Disk

/-! ## The bytes of an index file -/

theorem exists_four {bs : Bytes} (h : bs.length = 4) : ∃ a b c d, bs = [a, b, c, d] := by
  obtain _ | ⟨a, _ | ⟨b, _ | ⟨c, _ | ⟨d, _ | ⟨e, bs⟩⟩⟩⟩⟩ := bs <;> simp at h
  exact ⟨a, b, c, d, rfl⟩

theorem IndexEntry.decodeEntries_encode {e : IndexEntry} (hRel : e.relativeOffset < 2 ^ 32)
    (hPos : e.filePosition < 2 ^ 32) (rest : Bytes) :
    SparseIndex.decodeEntries (e.encode ++ rest) = e :: SparseIndex.decodeEntries rest := by
  obtain ⟨a, b, c, d, hFirst⟩ := exists_four (length_beBytes 4 e.relativeOffset)
  obtain ⟨a', b', c', d', hSecond⟩ := exists_four (length_beBytes 4 e.filePosition)
  have hRel' := beNat_beBytes_of_lt (w := 4) (n := e.relativeOffset) (by omega)
  have hPos' := beNat_beBytes_of_lt (w := 4) (n := e.filePosition) (by omega)
  rw [hFirst] at hRel'
  rw [hSecond] at hPos'
  rw [IndexEntry.encode, hFirst, hSecond]
  simp only [List.cons_append, List.nil_append, SparseIndex.decodeEntries, hRel', hPos']

theorem SparseIndex.decodeEntries_encodeEntries {entries : List IndexEntry}
    (h : ∀ e ∈ entries, e.relativeOffset < 2 ^ 32 ∧ e.filePosition < 2 ^ 32) :
    decodeEntries (encodeEntries entries) = entries := by
  induction entries with
  | nil => rfl
  | cons e es ih =>
    obtain ⟨hRel, hPos⟩ := h e List.mem_cons_self
    have hRest := ih fun e' he' => h e' (List.mem_cons_of_mem _ he')
    change decodeEntries (e.encode ++ encodeEntries es) = e :: es
    rw [e.decodeEntries_encode hRel hPos, hRest]

/-! ## Finding the segments -/

theorem OnDisk.isSome_log {d : Store FileName} {L : Layout} (h : OnDisk d L) (b : Nat) :
    (d.get (.log b)).isSome ↔ b ∈ L.allChunks.map Chunk.base := by
  constructor
  · intro hSome
    rcases h.logs b hSome with rfl | ⟨c, hc, rfl⟩
    · exact List.mem_map.mpr ⟨L.active, by simp [Layout.allChunks], rfl⟩
    · exact List.mem_map.mpr ⟨c, by simp [Layout.allChunks, hc], rfl⟩
  · intro hMem
    obtain ⟨c, hc, rfl⟩ := List.mem_map.mp hMem
    rcases List.mem_append.mp hc with hc | hc
    · obtain ⟨f, hf, -⟩ := (h.chunks c hc).log
      rw [hf]
      rfl
    · obtain rfl := List.mem_singleton.mp hc
      obtain ⟨f, hf, -⟩ := h.active
      rw [hf]
      rfl

theorem Log.logBase_injective {a b : FileName} {n : Nat} (ha : Log.logBase a = some n)
    (hb : Log.logBase b = some n) : a = b := by
  cases a <;> cases b <;> simp_all [Log.logBase]

theorem Log.mem_logBases {d : Store FileName} {b : Nat} :
    b ∈ d.names.filterMap Log.logBase ↔ (d.get (.log b)).isSome := by
  rw [List.mem_filterMap]
  constructor
  · rintro ⟨name, hName, hBase⟩
    obtain rfl := Log.logBase_injective (b := .log b) hBase rfl
    exact Store.mem_names.mp hName
  · intro hSome
    exact ⟨.log b, Store.mem_names.mpr hSome, rfl⟩

/-- The sorted names of the `.log` files are the bases of the chunks. -/
theorem OnDisk.discovered {d : Store FileName} {L : Layout} (h : OnDisk d L) :
    (d.names.filterMap Log.logBase).insertionSort (· ≤ ·) = L.allChunks.map Chunk.base := by
  have hSorted : (L.allChunks.map Chunk.base).Pairwise (· < ·) :=
    List.pairwise_map.mpr (Layout.allChunks_sorted h.chain)
  have hNodup : (d.names.filterMap Log.logBase).Nodup :=
    d.nodup_names.filterMap fun a b n ha hb => Log.logBase_injective ha hb
  have hPerm : (d.names.filterMap Log.logBase).Perm (L.allChunks.map Chunk.base) := by
    rw [List.perm_ext_iff_of_nodup hNodup (hSorted.imp fun hlt => Nat.ne_of_lt hlt)]
    intro b
    rw [Log.mem_logBases, h.isSome_log]
  exact List.Perm.eq_of_pairwise' (List.pairwise_insertionSort (· ≤ ·) _)
    (hSorted.imp fun hlt => Nat.le_of_lt hlt) ((List.perm_insertionSort _ _).trans hPerm)

/-! ## Loading the sealed segments -/

namespace Log

variable {σ : Type} {st : σ} {env : Env FileName} {w : World FileName} {X : Crates} {L : Layout}

/-- Opening the files of sealed chunks moves their handles and nothing else. -/
theorem openSealed_spec (interval : Nat) {cs : List Chunk}
    (hSealed : ∀ c ∈ cs, SealedOnDisk w.store c)
    (hSorted : cs.Pairwise fun a b => a.base < b.base) :
    wp env (openSealed interval (cs.map Chunk.base))
      { ok := fun ps st' w' => st' = st ∧ List.Forall₂ (Loaded w'.store) ps cs ∧
          (∀ name, (w'.store.get name).map File.rewind = (w.store.get name).map File.rewind) ∧
          ∀ b, (∀ c ∈ cs, b ≠ c.base) → w'.store.get (.log b) = w.store.get (.log b) ∧
            w'.store.get (.index b) = w.store.get (.index b)
        err := fun _ _ _ => ¬ env.Steady
        panic := fun _ _ _ => False
        crash := fun _ w' => ¬ env.Alive ∧
          ∀ name, (w'.store.get name).map File.rewind = (w.store.get name).map File.rewind }
      st w := by
  induction cs generalizing w with
  | nil => exact ⟨rfl, List.Forall₂.nil, fun _ => rfl, fun _ _ => ⟨rfl, rfl⟩⟩
  | cons c cs ih =>
    obtain ⟨⟨f, hf, hData, hSettled⟩, ⟨x, entries, hx, hxData, hEntries, -⟩⟩ :=
      hSealed c List.mem_cons_self
    obtain ⟨hLt, hRest⟩ := List.pairwise_cons.mp hSorted
    rw [List.map_cons, openSealed]
    refine wp_bind_of (open_spec_segment hf) ?_ (fun _ _ _ hE => hE) (fun _ _ _ hF => hF.elim) ?_
    · rintro s st₁ w₁ ⟨rfl, rfl, hUpd₁⟩
      have hMoves₁ : w.store.Moves w₁.store (.log c.base) := ⟨f, _, hf, hUpd₁, rfl⟩
      have hx₁ : w₁.store.get (.index c.base) = some x := by
        rw [hUpd₁.others _ (by simp), hx]
      refine wp_bind_of (open_spec_index interval hx₁) ?_ (fun _ _ _ hE => hE)
        (fun _ _ _ hF => hF.elim) ?_
      · rintro i st₂ w₂ ⟨rfl, rfl, hUpd₂⟩
        have hMoves₂ : w₁.store.Moves w₂.store (.index c.base) := ⟨x, _, hx₁, hUpd₂, rfl⟩
        have hSame₂ : ∀ name, (w₂.store.get name).map File.rewind =
            (w.store.get name).map File.rewind :=
          fun name => (hMoves₂.rewind name).trans (hMoves₁.rewind name)
        have hSealed₂ : ∀ c' ∈ cs, SealedOnDisk w₂.store c' := fun c' hc' =>
          (hSealed c' (List.mem_cons_of_mem _ hc')).congr (hSame₂ _) (hSame₂ _)
        refine wp_bind_of (ih hSealed₂ hRest) ?_ (fun _ _ _ hE => hE) (fun _ _ _ hF => hF) ?_
        · rintro ps st₃ w₃ ⟨rfl, hLoaded, hSame₃, hOthers⟩
          have hHead : ∀ c' ∈ cs, c.base ≠ c'.base := fun c' hc' => Nat.ne_of_lt (hLt c' hc')
          obtain ⟨hLog₃, hIndex₃⟩ := hOthers c.base hHead
          rw [wp_pure]
          refine ⟨rfl, List.Forall₂.cons ?_ hLoaded, fun name => (hSame₃ name).trans (hSame₂ name),
            ?_⟩
          · refine ⟨rfl, ⟨f.seek 0, ⟨?_, rfl, ?_⟩, hData, hSettled.2⟩, rfl, ⟨x.seek 0, ?_, ?_⟩, ?_⟩
            · change w₃.store.get (.log c.base) = _
              rw [hLog₃, hUpd₂.others _ (by simp)]
              exact hUpd₁.self
            · intro p hp
              exact Option.some.inj hp
            · change w₃.store.get (.index c.base) = _
              rw [hIndex₃]
              exact hUpd₂.self
            · change x.data = _
              rw [hxData, SparseIndex.decodeEntries_encodeEntries hEntries.small]
            · dsimp only
              rw [hxData, SparseIndex.decodeEntries_encodeEntries hEntries.small]
              exact hEntries
          · intro b hb
            obtain ⟨hLog, hIndex⟩ := hOthers b fun c' hc' => hb c' (List.mem_cons_of_mem _ hc')
            have hNe := hb c List.mem_cons_self
            constructor
            · rw [hLog, hUpd₂.others _ (by simp), hUpd₁.others _ (by simp [hNe])]
            · rw [hIndex, hUpd₂.others _ (by simp [hNe]), hUpd₁.others _ (by simp)]
        · rintro st₃ w₃ ⟨hNoisy, hSame₃⟩
          exact ⟨hNoisy, fun name => (hSame₃ name).trans (hSame₂ name)⟩
      · rintro st₂ w₂ ⟨hNoisy, hUpd₂⟩
        have hMoves₂ : w₁.store.Moves w₂.store (.index c.base) := ⟨x, x, hx₁, hUpd₂, rfl⟩
        exact ⟨hNoisy, fun name => (hMoves₂.rewind name).trans (hMoves₁.rewind name)⟩
    · rintro st₁ w₁ ⟨hNoisy, hUpd₁⟩
      have hMoves₁ : w.store.Moves w₁.store (.log c.base) := ⟨f, f, hf, hUpd₁, rfl⟩
      exact ⟨hNoisy, hMoves₁.rewind⟩

/-! ## Opening an existing log -/

/-- Opening an existing log comes down to the recovery of its active segment. -/
theorem wp_open_existing (h : OnDisk w.store L) {f : File}
    (hf : w.store.get (.log L.active.base) = some f) (config : LogConfig)
    {Q : Post FileName KafkoError σ Log} (hErr : ∀ e st' w', ¬ env.Steady → Q.err e st' w')
    (hCrash : ∀ st' w', ¬ env.Alive → OnDisk w'.store L → Q.crash st' w')
    (hRecover : ∀ ps w₁, List.Forall₂ (Loaded w₁.store) ps L.chunks → OnDisk w₁.store L →
      w₁.store.get (.log L.active.base) = some f →
      wp env (do
        let r ← recoverActiveSegment X L.active.base config.indexInterval
        pure ⟨config, ps ++ [r.1], L.active.base + r.2⟩) Q st w₁) :
    wp env (open_ X config) Q st w := by
  have hBases : L.allChunks.map Chunk.base = L.chunks.map Chunk.base ++ [L.active.base] := by
    simp [Layout.allChunks]
  rw [open_, wp_bind]
  refine wp_mkdir ?_ ?_ ?_
  · dsimp only
    rw [wp_bind, discoverSegmentOffsets, wp_bind]
    refine wp_readDir ?_ ?_ ?_
    · simp only [wp_pure]
      rw [h.discovered, hBases, List.getLast?_append, List.getLast?_singleton, Option.some_or,
        List.dropLast_concat]
      dsimp only
      refine wp_bind_of (openSealed_spec config.indexInterval h.chunks h.chain.pairwise) ?_
        (fun _ _ _ hE => hErr _ _ _ hE) (fun _ _ _ hF => hF.elim) ?_
      · rintro ps st₁ w₁ ⟨rfl, hLoaded, hSame, hOthers⟩
        apply hRecover ps w₁ hLoaded (h.rewound hSame)
        rw [(hOthers L.active.base fun c hc => (h.chain.base_ne hc).symm).1]
        exact hf
      · rintro st₁ w₁ ⟨hNoisy, hSame⟩
        exact hCrash _ _ hNoisy (h.rewound hSame)
    · intro kind k hFail
      exact hErr _ _ _ (Env.not_steady_of_fail hFail)
    · intro k hStop
      exact hCrash _ _ (Env.not_alive_of_crash hStop) h
  · intro kind k hFail
    exact hErr _ _ _ (Env.not_steady_of_fail hFail)
  · intro k hStop
    exact hCrash _ _ (Env.not_alive_of_crash hStop) h

variable (st) in
/-- Opening a log whose active file holds `k` whole frames keeps exactly these. -/
theorem open_spec (hClean : Clean env) (h : OnDisk w.store L) {f : File} {k : Nat} {torn : Bytes}
    (hf : w.store.get (.log L.active.base) = some f) (hCut : f.cut = [])
    (hHolds : Holds f L.active.frames k torn) (hWhole : ∀ g ∈ L.active.frames, Whole X g)
    (config : LogConfig) :
    wp env (open_ X config)
      { ok := fun log st' w' => st' = st ∧ log.config = config ∧ Live log w'.store (L.cutTo k)
        err := fun _ _ _ => ¬ env.Steady
        panic := fun _ _ _ =>
          ¬ Trackable L.active.base config.indexInterval (L.active.frames.take k)
        crash := fun _ w' => ¬ env.Alive ∧ OnDisk w'.store L } st w := by
  refine wp_open_existing h hf config (fun _ _ _ hE => hE) (fun _ _ hC hDisk => ⟨hC, hDisk⟩) ?_
  intro ps w₁ hLoaded hDisk hf₁
  refine wp_bind_of (recoverActiveSegment_spec hClean hDisk hf₁ hCut hHolds hWhole
    config.indexInterval) ?_ (fun _ _ _ hE => hE) (fun _ _ _ hP => hP) (fun _ _ hC => hC)
  rintro ⟨pair, count⟩ st₂ w₂ ⟨rfl, hCount, hPair, hIndex, hCutTo, hRest⟩
  rw [wp_pure]
  refine ⟨rfl, rfl, live_of_loaded hCutTo ?_ ?_ ?_⟩
  · refine List.rel_append (loaded_congr hLoaded ?_)
      (List.Forall₂.cons hPair List.Forall₂.nil)
    intro c hc
    have hNe := h.chain.base_ne hc
    exact ⟨hRest _ (by simp [hNe]) (by simp), hRest _ (by simp) (by simp [hNe])⟩
  · intro p hp
    obtain rfl : pair = p := by simpa using hp
    exact hIndex
  · rw [Layout.next_cutTo hHolds.le]
    exact congrArg _ hCount

/-! ## Creating a log -/

end Log

/-- A directory without files. -/
def Fresh (d : Store FileName) : Prop := ∀ name, d.get name = none

/-- The log before the first record. -/
def Layout.initial : Layout := ⟨0, [], ⟨0, []⟩, 0⟩

theorem onDisk_initial {d d' : Store FileName} (h : Fresh d)
    (hUpd : d.Updates d' (.log 0) File.empty) : OnDisk d' Layout.initial := by
  refine ⟨rfl, by simp [Layout.initial], ⟨File.empty, hUpd.self, ?_⟩, ?_, ?_⟩
  · exact activeOnDisk_of_full (k := 0) rfl rfl (Nat.le_refl _) (Nat.zero_le _) rfl
  · intro b hb
    by_cases hZero : b = 0
    · exact Or.inl hZero
    · rw [hUpd.others _ (by simp [hZero]), h] at hb
      cases hb
  · intro b hb
    rw [hUpd.others _ (by simp), h] at hb
    cases hb

namespace Log

/-- What creating the first segment may end in. -/
def createPost {σ : Type} (env : Env FileName) (config : LogConfig) (st : σ) :
    Post FileName KafkoError σ Log where
  ok := fun log st' w' => st' = st ∧ log.config = config ∧ Live log w'.store Layout.initial
  err := fun _ _ _ => ¬ env.Steady
  panic := fun _ _ _ => False
  crash := fun _ w' => ¬ env.Alive ∧ (Fresh w'.store ∨ OnDisk w'.store Layout.initial)

variable {σ : Type} {st : σ} {env : Env FileName} {w : World FileName} {X : Crates}

theorem create_spec (h : Fresh w.store) (config : LogConfig) :
    wp env (create config) (createPost env config st) st w := by
  rw [create, wp_bind]
  refine wp_mkdir ?_ ?_ ?_
  · dsimp only
    rw [wp_bind, Segment.create, wp_bind]
    refine wp_createNew (h _) ?_ ?_ ?_
    · have hLog := Store.updates_put w.store (.log 0) File.empty
      simp only [wp_pure]
      rw [wp_bind, SparseIndex.create, wp_bind]
      refine wp_createNew ?_ ?_ ?_ ?_
      · rw [hLog.others _ (by simp)]
        exact h _
      · simp only [wp_pure]
        have hIndex := Store.updates_put (w.store.put (.log 0) File.empty) (.index 0) File.empty
        have hFile : ((w.store.put (.log 0) File.empty).put (.index 0) File.empty).get (.log 0) =
            some File.empty := by
          rw [hIndex.others _ (by simp), hLog.self]
        refine ⟨rfl, rfl, live_of_loaded ((onDisk_initial h hLog).index_only hIndex.others) ?_ ?_
          rfl⟩
        · refine List.Forall₂.cons ⟨rfl, ⟨File.empty, ⟨hFile, rfl, ?_⟩, rfl, rfl⟩, rfl,
            ⟨File.empty, hIndex.self, rfl⟩, IndexFor.nil _⟩ List.Forall₂.nil
          intro p hp
          exact Option.some.inj hp
        · intro p hp
          obtain rfl := Option.some.inj hp
          rfl
      · intro kind k hFail
        exact Env.not_steady_of_fail hFail
      · intro k hCrash
        exact ⟨Env.not_alive_of_crash hCrash, Or.inr (onDisk_initial h hLog)⟩
    · intro kind k hFail
      exact Env.not_steady_of_fail hFail
    · intro k hCrash
      exact ⟨Env.not_alive_of_crash hCrash, Or.inl h⟩
  · intro kind k hFail
    exact Env.not_steady_of_fail hFail
  · intro k hCrash
    exact ⟨Env.not_alive_of_crash hCrash, Or.inl h⟩

theorem open_fresh_spec (h : Fresh w.store) (config : LogConfig) :
    wp env (open_ X config) (createPost env config st) st w := by
  have hNone : w.store.names.filterMap logBase = [] := by
    rw [List.eq_nil_iff_forall_not_mem]
    intro b hb
    rw [mem_logBases, h] at hb
    cases hb
  rw [open_, wp_bind]
  refine wp_mkdir ?_ ?_ ?_
  · dsimp only
    rw [wp_bind, discoverSegmentOffsets, wp_bind]
    refine wp_readDir ?_ ?_ ?_
    · simp only [wp_pure, hNone, List.insertionSort_nil, List.getLast?_nil]
      exact create_spec (w := ⟨w.store, w.tick + 1 + 1⟩) h config
    · intro kind k hFail
      exact Env.not_steady_of_fail hFail
    · intro k hCrash
      exact ⟨Env.not_alive_of_crash hCrash, Or.inl h⟩
  · intro kind k hFail
    exact Env.not_steady_of_fail hFail
  · intro k hCrash
    exact ⟨Env.not_alive_of_crash hCrash, Or.inl h⟩

end Log

end Kafko
