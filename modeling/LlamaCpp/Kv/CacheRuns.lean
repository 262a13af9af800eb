import LlamaCpp.Kv.Prepare

/-!
# Runs of the cache

`Reachable` collects the states that the calls of `llama_memory_i` lead to from a new
cache, as long as the assertions of the cell table hold (`Op.Ok`).  A batch is one
`decode`: `prepare`, and then `apply_ubatch` for some of the ubatches, all of them
unless the computation fails on the way.  Every reachable state has the invariant
(`Reachable.inv`).

`prepare_unchanged_iff` says when `prepare` has no effect that can be observed.
`prepare_loses_cell` is a reachable state in which it loses a cell.
-/

namespace LlamaCpp.KvCache

open List Option

variable {c : KvConfig} {kv kv' : KvCache} {ubatch : LlamaUbatch} {sinfo : SlotInfo}
  {us : List LlamaUbatch} {sinfos : List SlotInfo}

/-! ## The calls -/

/-- The calls of `llama_memory_i`. -/
inductive Op where
  | clear
  | seqRm (seqId : Option SeqId) (p0 p1 : Int)
  | seqCp (s d : SeqId) (p0 p1 : Int)
  | seqKeep (s : SeqId)
  | seqAdd (s : SeqId) (p0 p1 shift : Int)
  | seqDiv (s : SeqId) (p0 p1 d : Int)
  | update (computed : Bool)
  | decode (ubatches : List LlamaUbatch) (n : Nat)

/-- `prepare` the ubatches, and apply the first `n` of them. -/
def decode (c : KvConfig) (kv : KvCache) (ubatches : List LlamaUbatch) (n : Nat) : Option KvCache :=
  (kv.prepare c ubatches).bind fun (sinfos, kv') =>
    ((sinfos.zip ubatches).take n).foldlM (fun kv x => kv.applyUbatch c x.1 x.2) kv'

def step (c : KvConfig) (kv : KvCache) : Op → Option KvCache
  | .clear => some (kv.clear c)
  | .seqRm seqId p0 p1 => (kv.seqRm c seqId p0 p1).map Prod.fst
  | .seqCp s d p0 p1 => kv.seqCp c s d p0 p1
  | .seqKeep s => kv.seqKeep c s
  | .seqAdd s p0 p1 shift => kv.seqAdd c s p0 p1 shift
  | .seqDiv s p0 p1 d => kv.seqDiv c s p0 p1 d
  | .update computed => kv.update c computed
  | .decode ubatches n => kv.decode c ubatches n

/-- The assertions that the call makes. -/
def Op.Ok (c : KvConfig) (kv : KvCache) : Op → Prop
  | .seqCp s d p0 p1 => CopyOk c kv s d p0 p1
  | .seqDiv _ _ _ d => 1 ≤ d
  | .decode ubatches _ => ∀ u ∈ ubatches, UbatchOk c u
  | _ => True

inductive Reachable (c : KvConfig) : KvCache → Prop
  | init : Reachable c (init c)
  | step {kv kv' : KvCache} {op : Op} (h : Reachable c kv) (hok : op.Ok c kv)
      (hrun : kv.step c op = some kv') : Reachable c kv'

/-! ## The invariant along a run -/

theorem le_placeToken_maxRm (σ : Placing) (τ : Target) (s : SeqId) :
    σ.maxRm s ≤ (placeToken c ubatch σ τ).maxRm s := by
  have hwrite : (placeToken c ubatch σ τ).maxRm = (evict σ τ.strm τ.idx).maxRm := rfl
  rw [hwrite]
  unfold evict
  dsimp only
  split
  · exact le_rfl
  · cases (σ.kv.vCells τ.strm).seqGet τ.idx with
    | none => exact le_rfl
    | some s' =>
      dsimp only
      rw [Function.update_apply]
      split
      · rename_i hs
        exact hs ▸ le_max_left _ _
      · exact le_rfl

theorem le_placeTokens_maxRm (τs : List Target) (σ : Placing) (s : SeqId) :
    σ.maxRm s ≤ (τs.foldl (placeToken c ubatch) σ).maxRm s := by
  induction τs generalizing σ with
  | nil => exact le_rfl
  | cons τ τs ih => exact (le_placeToken_maxRm σ τ s).trans (ih _)

/-- A placement keeps the invariant wherever its cells are. -/
theorem Inv.applyUbatch (h : kv.Inv c) (htargets : ∀ τ ∈ sinfo.targets, TargetOk c ubatch τ)
    (hheads : ∀ slot ∈ sinfo.slots, slot.2.getLastD 0 + 1 ≤ c.kvSize)
    (hrun : kv.applyUbatch c sinfo ubatch = some kv') : kv'.Inv c := by
  unfold KvCache.applyUbatch at hrun
  split_ifs at hrun with hsh hmsa
  · exact some.inj hrun ▸ h
  · obtain ⟨kv₂, hpurge, rfl⟩ := map_eq_some_iff.mp hrun
    have hinv₁ := Inv.placeTokens (σ := ⟨kv, fun _ => -1⟩) h htargets
    exact (purge_spec (fun s => le_placeTokens_maxRm sinfo.targets ⟨kv, fun _ => -1⟩ s)
      (by simpa using hsh) hinv₁ hpurge).1.advanceHeads hheads

/-- Every slot that `prepare` hands out was a slot in some well kept state. -/
theorem slot_of_placeAll {states : List PrepState} {kvN : KvCache} {ok : Bool} (hinv : kv.Inv c)
    (hus : ∀ u ∈ us, UbatchOk c u) (hrun : kv.placeAll c us = some (states, kvN, ok)) :
    ∀ x ∈ (states.map (·.sinfo)).zip us, ∃ kv₀ : KvCache, kv₀.Inv c ∧ Slot c kv₀ x.2 x.1 := by
  refine placeAll_induct (P := fun _ us states _ => ∀ x ∈ (states.map (·.sinfo)).zip us, ∃ kv₀ : KvCache, kv₀.Inv c ∧
    Slot c kv₀ x.2 x.1) (fun _ _ x hx => by simp at hx) (fun _ _ _ _ _ _ _ x hx => by simp at hx) ?_ hinv hus hrun
  intro kv u us sinfo kv₁ states kvN hinv _ _ _ hslot _ ih x hx
  rw [map_cons, zip_cons_cons] at hx
  rcases mem_cons.mp hx with rfl | hx
  · exact ⟨kv, hinv, hslot⟩
  · exact ih x hx

theorem prepare_cases (hrun : kv.prepare c us = some (sinfos, kv')) :
    ∃ states kvN ok, kv.placeAll c us = some (states, kvN, ok) ∧
      kv' = states.foldr rollback kvN ∧
      sinfos = if ok then states.map (·.sinfo) else [] := by
  unfold prepare at hrun
  obtain ⟨⟨states, kvN, ok⟩, hplace, hrun⟩ := bind_eq_some_iff.mp hrun
  dsimp only at hrun
  split_ifs at hrun <;> obtain ⟨rfl, rfl⟩ := Prod.mk.inj (some.inj hrun) <;>
    exact ⟨states, kvN, _, hplace, rfl, by simp_all⟩

theorem undone_prepare (hinv : kv.Inv c) (hus : ∀ u ∈ us, UbatchOk c u)
    (hrun : kv.prepare c us = some (sinfos, kv')) : Undone c kv us kv' := by
  obtain ⟨states, kvN, ok, hplace, rfl, -⟩ := prepare_cases hrun
  exact placeAll_spec hinv hus hplace

/-- The slots that `prepare` returns were slots in well kept states. -/
theorem slot_of_prepare (hinv : kv.Inv c) (hus : ∀ u ∈ us, UbatchOk c u)
    (hrun : kv.prepare c us = some (sinfos, kv')) :
    ∀ x ∈ sinfos.zip us, UbatchOk c x.2 ∧ ∃ kv₀ : KvCache, kv₀.Inv c ∧ Slot c kv₀ x.2 x.1 := by
  obtain ⟨states, kvN, ok, hplace, -, hsinfos⟩ := prepare_cases hrun
  intro x hx
  refine ⟨hus _ (of_mem_zip hx).2, ?_⟩
  cases ok with
  | true => exact slot_of_placeAll hinv hus hplace x (by simpa [hsinfos] using hx)
  | false => simp [hsinfos] at hx

theorem Inv.decode (h : kv.Inv c) (hus : ∀ u ∈ us, UbatchOk c u) {n : Nat}
    (hrun : kv.decode c us n = some kv') : kv'.Inv c := by
  obtain ⟨⟨sinfos, kv₁⟩, hprep, hrun⟩ := bind_eq_some_iff.mp hrun
  refine Loops.foldlM_inv (undone_prepare h hus hprep).inv (fun x hx kv kv' hinv happly => ?_) hrun
  obtain ⟨hu, kv₀, h₀, hslot⟩ := slot_of_prepare h hus hprep x (mem_of_mem_take hx)
  exact hinv.applyUbatch (fun τ hτ => hslot.targetOk hu h₀ hτ) (slot_head_le h₀ hu hslot) happly

theorem Inv.step {op : Op} (h : kv.Inv c) (hok : op.Ok c kv) (hrun : kv.step c op = some kv') : kv'.Inv c := by
  cases op with
  | clear =>
    cases hrun
    exact h.clear
  | seqRm seqId p0 p1 =>
    obtain ⟨⟨_, ok⟩, hrm, rfl⟩ := map_eq_some_iff.mp hrun
    exact h.seqRm hrm
  | seqCp => exact h.seqCp hok hrun
  | seqKeep => exact h.seqKeep hrun
  | seqAdd => exact h.seqAdd hrun
  | seqDiv => exact h.seqDiv hok hrun
  | update => exact h.update hrun
  | decode => exact h.decode hok hrun

/-! ## `prepare` can be observed -/

/-- Nothing that can be observed differs: the cells, the indexes and the heads. -/
structure Unchanged (c : KvConfig) (kv kv' : KvCache) : Prop where
  cell : ∀ t < c.nStream, ∀ i < c.kvSize, (kv'.cell t i).Same (kv.cell t i)
  used : ∀ t < c.nStream, (kv'.vCells t).used = (kv.vCells t).used
  seqPos : ∀ t < c.nStream, (kv'.vCells t).seqPos = (kv.vCells t).seqPos
  head : ∀ t < c.nStream, kv'.vHeads t = kv.vHeads t

/-- Undoing all placements leaves no trace exactly if it brings every cell and every
head back. -/
theorem Undone.unchanged_iff (h : Undone c kv us kv') (hinv : kv.Inv c) : Unchanged c kv kv' ↔
      (∀ t < c.nStream, ∀ i < c.kvSize, CellSafe c t i kv us) ∧ ∀ t < c.nStream, HeadSafe c t kv us := by
  constructor
  · intro hsame
    exact ⟨fun t ht i hi => (h.cell t i hi).mp (hsame.cell t ht i hi), fun t ht => (h.head t).mp (hsame.head t ht)⟩
  · rintro ⟨hcell, hhead⟩
    have hsame : ∀ t < c.nStream, ∀ i < c.kvSize, (kv'.cell t i).Same (kv.cell t i) :=
      fun t ht i hi => (h.cell t i hi).mpr (hcell t ht i hi)
    -- the indexes follow from the cells
    have hidx : ∀ t < c.nStream, (kv'.vCells t).used = (kv.vCells t).used ∧
        (kv'.vCells t).seqPos = (kv.vCells t).seqPos := by
      intro t ht
      refine (hinv.rep t).indexes_eq (h.inv.rep t) ((h.inv.size t).trans (hinv.size t).symm)
        (fun i hi => ?_) fun i hi => ?_
      · exact (hsame t ht i (hinv.size t ▸ hi)).pos
      · exact (hsame t ht i (hinv.size t ▸ hi)).seq
    exact ⟨hsame, fun t ht => (hidx t ht).1, fun t ht => (hidx t ht).2, fun t ht => (h.head t).mpr (hhead t ht)⟩

/-- Without a window the cells that are handed out are empty. -/
theorem empty_of_target (hswa : c.swaType = .none) (hu : UbatchOk c ubatch)
    (hslot : Slot c kv ubatch sinfo) {τ : Target} (hτ : τ ∈ sinfo.targets) :
    (kv.vCells τ.strm).pos τ.idx = -1 := by
  have huse := hslot.canUse_of_mem hu hτ
  by_contra hne
  obtain ⟨s', -, hmask⟩ := singleton_of_canUse huse.2 (decide_eq_false hne)
  simp [KvConfig.isMasked, isMaskedSwa, hswa] at hmask

theorem not_purges (hswa : c.swaType = .none) (hinv : kv.Inv c) (hu : UbatchOk c ubatch)
    (hslot : Slot c kv ubatch sinfo) {t i : Nat} : ¬Purges c kv sinfo t i := by
  rintro ⟨-, s, -, j, hj, hseq, -⟩
  obtain ⟨τ, hτ, rfl, rfl⟩ := (hslot.has_iff_target hu).mp hj
  have hmem : s ∈ (kv.vCells τ.strm).seq τ.idx := by
    rw [← KvCells.cell_seq]
    exact hseq ▸ Finset.mem_singleton_self s
  exact (hinv.rep τ.strm).pos_ne_of_mem (hslot.canUse_of_mem hu hτ).1 hmem
    (empty_of_target hswa hu hslot hτ)

/-- Without a window only empty cells are handed out, so nothing is purged. -/
theorem cellSafe_of_noSwa (hswa : c.swaType = .none) (hinv : kv.Inv c) (hus : ∀ u ∈ us, UbatchOk c u)
    (t i : Nat) : CellSafe c t i kv us := by
  induction us generalizing kv with
  | nil => trivial
  | cons u us ih =>
    intro sinfo kv' hfind hne happly
    have hu := hus u mem_cons_self
    have hslot := slot_of_findSlot hinv hu hfind hne
    have hinv' := (frame_applyUbatch hinv hu hslot happly).inv
    exact .inr ⟨not_purges hswa hinv hu hslot, ih hinv' fun u' hu' => hus u' (mem_cons_of_mem _ hu')⟩

/-- A unified cache has one head, and its index is that of its stream. -/
theorem headSafe_of_unified (hn : c.nStream ≤ 1) (hinv : kv.Inv c) (hus : ∀ u ∈ us, UbatchOk c u) :
    HeadSafe c 0 kv us := by
  cases us with
  | nil => trivial
  | cons u us =>
    intro sinfo kv' hfind hne happly
    have hslot := slot_of_findSlot hinv (hus u mem_cons_self) hfind hne
    have hstrm : sinfo.strm = [0] := by
      rw [hslot.strm, nSeqs, if_neg (by omega)]
      simp [groupStrm, KvConfig.seqToStream, show ¬1 < c.nStream by omega]
    rw [hstrm]
    refine ⟨fun s hs => ?_, fun hno => absurd mem_cons_self hno⟩
    cases s with
    | zero => rfl
    | succ s => simp at hs

/-- `prepare`, whether it succeeds or not, leaves no trace exactly if every purge it
provokes stays within the cells handed out so far, and every stream that it places
tokens in finds its own head under its index in the slot. -/
theorem prepare_unchanged_iff (hinv : kv.Inv c) {us : List LlamaUbatch}
    (hus : ∀ u ∈ us, UbatchOk c u) {sinfos : List SlotInfo}
    (hrun : kv.prepare c us = some (sinfos, kv')) :
    Unchanged c kv kv' ↔
      (∀ t < c.nStream, ∀ i < c.kvSize, CellSafe c t i kv us) ∧
        ∀ t < c.nStream, HeadSafe c t kv us :=
  (undone_prepare hinv hus hrun).unchanged_iff hinv

/-- A unified cache of `n` cells for two sequences. -/
def unifiedConfig (n : Nat) (swaType : LlamaSwaType) : KvConfig where
  nSeqMax := 2
  nStream := 1
  kvSize := n
  nSwa := 1
  swaType := swaType
  msaStrictSlots := false
  nPosPerEmbd := 1
  pleNHeads := 0
  pleImageTokenId := 0
  pleEosTokenId := 0
  canShift := true
  shared := false

/-- Two ubatches of which the second does not fit. -/
theorem prepare_unchanged_partial : ∃ kv',
    (init (unifiedConfig 3 .none)).prepare (unifiedConfig 3 .none)
      [textUbatch [(0, 0), (0, 1)], textUbatch [(0, 2), (0, 3)]] = some ([], kv') ∧
    Unchanged (unifiedConfig 3 .none) (init (unifiedConfig 3 .none)) kv' := by
  have hus : ∀ u ∈ [textUbatch [(0, 0), (0, 1)], textUbatch [(0, 2), (0, 3)]],
      UbatchOk (unifiedConfig 3 .none) u := by
    intro u hu
    rcases mem_cons.mp hu with rfl | hu
    · exact textUbatch_ok (by decide) (by decide) (by decide)
    · rw [mem_singleton.mp hu]
      exact textUbatch_ok (by decide) (by decide) (by decide)
  have hfails : ((init (unifiedConfig 3 .none)).prepare (unifiedConfig 3 .none)
      [textUbatch [(0, 0), (0, 1)], textUbatch [(0, 2), (0, 3)]]).map (·.1) = some [] := by
    decide +kernel
  obtain ⟨⟨sinfos, kv'⟩, hrun, rfl⟩ := map_eq_some_iff.mp hfails
  refine ⟨kv', hrun, (prepare_unchanged_iff inv_init hus hrun).mpr
    ⟨fun t _ i _ => cellSafe_of_noSwa rfl inv_init hus t i, fun t ht => ?_⟩⟩
  obtain rfl : t = 0 := Nat.lt_one_iff.mp ht
  exact headSafe_of_unified (by decide) inv_init hus

/-- Sequence `0` has positions `0` and `1` in the cells `0` and `2`, and the head is at
cell `2`: the calls that lead there. -/
def windowRun : List Op :=
  [.decode [textUbatch [(0, 0), (1, 0), (0, 1)]] 1, .seqRm (some 1) (-1) (-1),
    .decode [textUbatch [(1, 0)]] 1]

theorem Reachable.foldlM {ops : List Op} (h : Reachable c kv) (hok : ∀ op ∈ ops, ∀ kv, op.Ok c kv)
    (hrun : ops.foldlM (KvCache.step c) kv = some kv') : Reachable c kv' :=
  Loops.foldlM_inv (I := Reachable c) h
    (fun op hop _ _ hreach hstep => hreach.step (hok op hop _) hstep) hrun

/-- The next token of sequence `0` would overwrite position `1`, which purges position
`0` in a cell that the slot does not name: `prepare` loses it. -/
theorem prepare_loses_cell :
    ¬∀ (c : KvConfig) (kv kv' : KvCache) (us : List LlamaUbatch) (sinfos : List SlotInfo),
      Reachable c kv → (∀ u ∈ us, UbatchOk c u) → kv.prepare c us = some (sinfos, kv') →
      Unchanged c kv kv' := by
  intro h
  have hlost : ((windowRun.foldlM (step (unifiedConfig 3 .standard))
      (init (unifiedConfig 3 .standard))).bind fun kv =>
        (kv.prepare (unifiedConfig 3 .standard) [textUbatch [(0, 2)]]).map fun x =>
          ((kv.vCells 0).pos 0, (x.2.vCells 0).pos 0)) = some (0, -1) := by
    decide +kernel
  obtain ⟨kv, hkv, hprep⟩ := bind_eq_some_iff.mp hlost
  obtain ⟨⟨sinfos, kv'⟩, hrun, hpos⟩ := map_eq_some_iff.mp hprep
  have hreach : Reachable (unifiedConfig 3 .standard) kv := by
    refine Reachable.init.foldlM (fun op hop kv => ?_) hkv
    simp only [windowRun, mem_cons, not_mem_nil, or_false] at hop
    rcases hop with rfl | rfl | rfl
    · intro u hu
      rw [mem_singleton.mp hu]
      exact textUbatch_ok (by decide) (by decide) (by decide)
    · trivial
    · intro u hu
      rw [mem_singleton.mp hu]
      exact textUbatch_ok (by decide) (by decide) (by decide)
  have hsame := (h _ kv kv' _ sinfos hreach (fun u hu => by
    rw [mem_singleton.mp hu]
    exact textUbatch_ok (by decide) (by decide) (by decide)) hrun).cell 0 (by decide) 0 (by decide)
  obtain ⟨hbefore, hafter⟩ := Prod.mk.inj hpos
  have := hsame.pos
  rw [cell, cell, KvCells.cell_pos, KvCells.cell_pos, hafter, hbefore] at this
  exact absurd this (by decide)

theorem Reachable.inv (h : Reachable c kv) : kv.Inv c := by
  induction h with
  | init => exact inv_init
  | step _ hok hrun ih => exact ih.step hok hrun

/-- Every reachable state has the invariant, and `seq_pos_min` and `seq_pos_max` answer like a scan of the cells. -/
theorem reachable_wellKept (h : Reachable c kv) : kv.Inv c ∧ ∀ s,
    kv.seqPosMin c s = ((kv.vCells (c.seqToStream s)).scanPositions s).min?.getD (-1) ∧
      kv.seqPosMax c s = ((kv.vCells (c.seqToStream s)).scanPositions s).max?.getD (-1) :=
  ⟨h.inv, fun s => ⟨(h.inv.rep _).seqPosMin_eq s, (h.inv.rep _).seqPosMax_eq s⟩⟩

abbrev smallConfig : KvConfig := unifiedConfig 2 .none

/-- A cache with two tokens of sequence `0`. -/
def twoPlaced : Option KvCache := (init smallConfig).step smallConfig (.decode [textUbatch [(0, 0), (0, 1)]] 1)

theorem twoPlaced_reachable : ∃ kv, twoPlaced = some kv ∧ Reachable smallConfig kv := by
  obtain ⟨kv, hrun⟩ := isSome_iff_exists.mp (show twoPlaced.isSome = true by decide +kernel)
  have hok : Op.Ok smallConfig (init smallConfig) (.decode [textUbatch [(0, 0), (0, 1)]] 1) := fun u hu => by
    rw [mem_singleton.mp hu]
    exact textUbatch_ok (by decide) (by decide) (by decide)
  exact ⟨kv, hrun, Reachable.init.step hok hrun⟩

theorem reachable_wellKept_two : ∃ kv, twoPlaced = some kv ∧ kv.Inv smallConfig := by
  obtain ⟨kv, hrun, hreach⟩ := twoPlaced_reachable
  exact ⟨kv, hrun, (reachable_wellKept hreach).1⟩

end LlamaCpp.KvCache
