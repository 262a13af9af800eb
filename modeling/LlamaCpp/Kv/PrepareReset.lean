import LlamaCpp.Kv.CacheRuns

/-!
# When `prepare` changes nothing

`prepare_unchanged_iff` is about the cells and heads that the calls look at.  Two caches
that are to stay equal need more: a placement and its undo do not touch what lies outside
the cells (`Rest`), and the shifts come back unless a cell with a shift is overwritten
(`shift_foldr_rollback`).  `prepare_eq_self` puts this together.
-/

namespace LlamaCpp.KvCache

open List Option

open KvCells (Rep Acts)

variable {c : KvConfig} {kv kv' kv'' : KvCache} {ubatch : LlamaUbatch} {sinfo : SlotInfo}
  {us : List LlamaUbatch}

/-! ## Outside the cells -/

/-- What lies outside the cells of the cache is the same. -/
structure Rest (c : KvConfig) (kv kv' : KvCache) : Prop where
  scInfo : kv'.scInfo = kv.scInfo
  hasShift : ∀ t, (kv'.vCells t).hasShift = (kv.vCells t).hasShift
  beyond : ∀ t, ∀ i, c.kvSize ≤ i → kv'.cell t i = kv.cell t i

theorem Rest.refl (kv : KvCache) : Rest c kv kv := ⟨rfl, fun _ => rfl, fun _ _ _ => rfl⟩

theorem Rest.trans (h : Rest c kv kv') (h' : Rest c kv' kv'') : Rest c kv kv'' where
  scInfo := h'.scInfo.trans h.scInfo
  hasShift := fun t => (h'.hasShift t).trans (h.hasShift t)
  beyond := fun t i hi => (h'.beyond t i hi).trans (h.beyond t i hi)

theorem rest_setCells (kv : KvCache) {t : Nat} {cells : KvCells}
    (hshift : cells.hasShift = (kv.vCells t).hasShift)
    (hcell : ∀ i, c.kvSize ≤ i → cells.cell i = kv.cell t i) : Rest c kv (kv.setCells t cells) where
  scInfo := rfl
  hasShift := fun u => by
    rcases eq_or_ne u t with rfl | hu
    · simpa using hshift
    · simp [hu]
  beyond := fun u i hi => by
    rcases eq_or_ne u t with rfl | hu
    · simpa [cell] using hcell i hi
    · simp [cell, hu]

theorem rest_setHead (kv : KvCache) (t head : Nat) : Rest c kv (kv.setHead t head) :=
  ⟨rfl, fun _ => rfl, fun _ _ _ => rfl⟩

theorem rest_lowerHead (kv : KvCache) (t head : Nat) : Rest c kv (kv.lowerHead t head) := by
  unfold lowerHead
  split
  · exact rest_setHead kv t head
  · exact .refl kv

/-! ## Placing -/

theorem hasShift_seqRm (cells : KvCells) (i : Nat) (s : SeqId) : (cells.seqRm i s).1.hasShift = cells.hasShift := by
  unfold KvCells.seqRm
  dsimp only
  split <;> rfl

theorem hasShift_sweep {act : KvCells → Nat → KvCells × Bool}
    (hact : ∀ cells i, (act cells i).1.hasShift = cells.hasShift) (cells : KvCells) :
    (cells.sweep act).1.hasShift = cells.hasShift := by
  rw [KvCells.sweep_eq]
  refine Loops.foldl_range_inv (I := fun _ (σ : KvCells × Nat) => σ.1.hasShift = cells.hasShift) rfl
    fun i _ σ hσ => ?_
  exact (hact σ.1 i).trans hσ

theorem rest_rmSeq (hinv : kv.Inv c) (s : SeqId) (p0 p1 : Int) : Rest c kv (kv.rmCells c (some s) p0 p1) := by
  refine (rest_setCells kv ?_ fun i hi => ?_).trans (rest_lowerHead _ _ _)
  · refine hasShift_sweep (fun cells i => ?_) _
    unfold KvCells.onSeq
    split
    · exact hasShift_seqRm cells i s
    · rfl
  · rw [KvCells.sweep_cell (acts_seqRm_onSeq s p0 p1), hinv.size, if_neg (Nat.not_lt_of_le hi)]
    rfl

theorem rest_purgeSeq (hinv : kv.Inv c) {m : SeqId → Int} {s : SeqId}
    (hrun : purgeSeq c m kv s = some kv') : Rest c kv kv' ∧ kv'.Inv c := by
  unfold purgeSeq at hrun
  split_ifs at hrun
  · obtain rfl := some.inj hrun
    exact ⟨.refl kv, hinv⟩
  · split at hrun
    · rename_i kv₁ hrm
      obtain rfl := some.inj hrun
      refine ⟨?_, hinv.seqRm hrm⟩
      rcases seqRm_cases hrm with ⟨rfl, -⟩ | ⟨-, -, -, rfl⟩
      · exact .refl _
      · exact rest_rmSeq hinv s _ _
    · simp at hrun
  · obtain rfl := some.inj hrun
    exact ⟨.refl kv, hinv⟩

theorem hasShift_writeToken (i : Nat) (cells : KvCells) (idx : Nat) :
    (writeToken c ubatch i cells idx).hasShift = cells.hasShift := by
  have hids : ∀ (ids : List SeqId) (cells : KvCells),
      (ids.foldl (fun cells s => cells.seqAdd idx s) cells).hasShift = cells.hasShift := by
    intro ids
    induction ids with
    | nil => exact fun _ => rfl
    | cons s ids ih => exact fun cells => ih _
  unfold writeToken
  rw [hids]
  split <;> rfl

theorem rest_evict (σ : Placing) {t idx : Nat} (hidx : idx < c.kvSize) : Rest c σ.kv (evict σ t idx).kv := by
  rw [evict_kv]
  split
  · exact .refl σ.kv
  · exact rest_setCells σ.kv rfl fun i hi =>
      (KvCells.rewrites_rm (σ.kv.vCells t) idx).elsewhere i (by omega)

theorem rest_placeToken (σ : Placing) {τ : Target} (hidx : τ.idx < c.kvSize) :
    Rest c σ.kv (placeToken c ubatch σ τ).kv := by
  refine (rest_evict σ hidx).trans (rest_setCells _ (hasShift_writeToken ..) fun i hi => ?_)
  exact (rewrites_writeToken c ubatch τ.i _ τ.idx).elsewhere i (by omega)

theorem rest_placeTokens {τs : List Target} (hτs : ∀ τ ∈ τs, τ.idx < c.kvSize) (σ : Placing) :
    Rest c σ.kv (τs.foldl (placeToken c ubatch) σ).kv := by
  induction τs generalizing σ with
  | nil => exact .refl σ.kv
  | cons τ τs ih =>
    exact (rest_placeToken σ (hτs τ mem_cons_self)).trans
      (ih (fun τ' hτ' => hτs τ' (mem_cons_of_mem _ hτ')) _)

theorem rest_advanceHeads (sinfo : SlotInfo) (kv : KvCache) : Rest c kv (advanceHeads sinfo kv) := by
  unfold advanceHeads
  induction sinfo.slots generalizing kv with
  | nil => exact .refl kv
  | cons slot slots ih => exact (rest_setHead kv _ _).trans (ih _)

theorem rest_applyUbatch (hinv : kv.Inv c) (hu : UbatchOk c ubatch) (hslot : Slot c kv ubatch sinfo)
    (hrun : kv.applyUbatch c sinfo ubatch = some kv') : Rest c kv kv' := by
  unfold KvCache.applyUbatch at hrun
  split_ifs at hrun
  · exact some.inj hrun ▸ .refl kv
  · obtain ⟨kv₁, hpurge, rfl⟩ := map_eq_some_iff.mp hrun
    have htargets : ∀ τ ∈ sinfo.targets, TargetOk c ubatch τ := fun τ hτ => hslot.targetOk hu hinv hτ
    have hplaced := hinv.placeTokens (σ := ⟨kv, fun _ => -1⟩) htargets
    have hpurged : Rest c _ kv₁ ∧ kv₁.Inv c :=
      Loops.foldlM_inv (I := fun kv₂ : KvCache => Rest c _ kv₂ ∧ kv₂.Inv c) ⟨Rest.refl _, hplaced⟩
        (fun s _ kv₂ kv₃ h hstep => by
          have hstep := rest_purgeSeq h.2 hstep
          exact ⟨h.1.trans hstep.1, hstep.2⟩) hpurge
    have hplace : Rest c kv (sinfo.targets.foldl (placeToken c ubatch) ⟨kv, fun _ => -1⟩).kv :=
      rest_placeTokens (fun τ hτ => (htargets τ hτ).idx_lt) ⟨kv, fun _ => -1⟩
    exact (hplace.trans hpurged.1).trans (rest_advanceHeads sinfo kv₁)

/-! ## Undoing -/

theorem hasShift_setIdxs (cells other : KvCells) (idxs : List Nat) :
    (cells.setIdxs idxs other).hasShift = cells.hasShift := by
  unfold KvCells.setIdxs KvCells.setBy
  refine Loops.foldl_range_inv (I := fun _ (x : KvCells) => x.hasShift = cells.hasShift) rfl
    fun j _ x hx => ?_
  rw [← hx]
  unfold KvCells.setCell
  dsimp only
  split_ifs <;> rfl

theorem rest_rollback (hinv : kv.Inv c) (hu : UbatchOk c ubatch) (hslot : Slot c kv ubatch sinfo)
    (kv' : KvCache) : Rest c kv' (rollback (kv.saved sinfo) kv') where
  scInfo := by
    rw [rollback_eq hslot]
    exact Loops.foldl_range_inv (I := fun _ (x : KvCache) => x.scInfo = kv'.scInfo) rfl
      fun _ _ _ hx => hx
  hasShift := by
    rw [rollback_eq hslot]
    refine Loops.foldl_range_inv
      (I := fun _ (x : KvCache) => ∀ t, (x.vCells t).hasShift = (kv'.vCells t).hasShift)
      (fun _ => rfl) fun g _ x hx t => ?_
    rw [← hx t]
    rcases eq_or_ne t (groupStrm c ubatch g) with rfl | ht
    · simp [rollbackGroup, hasShift_setIdxs]
    · simp [rollbackGroup, ht]
  beyond := fun t i hi => (rollback_cell hslot hu kv' t i).2 fun hhas =>
    absurd (hslot.lt_of_has hu hinv hhas) (Nat.not_lt_of_le hi)

def SameShifts (c : KvConfig) (kv kv' : KvCache) : Prop :=
  ∀ t, ∀ i < c.kvSize, (kv'.cell t i).shift = (kv.cell t i).shift

/-- Without a window a placement finds only empty cells, which have no shift. -/
theorem sameShifts_rollback (hswa : c.swaType = .none) (hinv : kv.Inv c) (hu : UbatchOk c ubatch)
    (hslot : Slot c kv ubatch sinfo) (happly : kv.applyUbatch c sinfo ubatch = some kv')
    (h : SameShifts c kv' kv'') : SameShifts c kv (rollback (kv.saved sinfo) kv'') := by
  intro t i hi
  have hframe := frame_applyUbatch hinv hu hslot happly
  have hcell := rollback_cell hslot hu kv'' t i
  have hshift : (kv''.cell t i).shift = 0 ∨ (kv''.cell t i).shift = (kv.cell t i).shift := by
    rw [h t i hi]
    exact hframe.shift t i hi
  by_cases hhas : sinfo.Has t i
  · -- the cell was empty
    obtain ⟨τ, hτ, rfl, rfl⟩ := (hslot.has_iff_target hu).mp hhas
    have hempty := empty_of_target hswa hu hslot hτ
    have hzero : (kv.cell τ.strm τ.idx).shift = 0 :=
      (hinv.rep τ.strm).shift_zero _ (hinv.size τ.strm ▸ hi) hempty
    rw [hcell.1 hhas]
    change (kv''.cell τ.strm τ.idx).shift = _
    rcases hshift with h0 | h1
    · rw [h0, hzero]
    · exact h1
  · rw [hcell.2 hhas, h t i hi, hframe.kept t i hi hhas]
    exact not_purges hswa hinv hu hslot

theorem placeAll_rest {states : List PrepState} {kvN : KvCache} {ok : Bool} (hinv : kv.Inv c)
    (hus : ∀ u ∈ us, UbatchOk c u) (hrun : kv.placeAll c us = some (states, kvN, ok)) :
    Rest c kv (states.foldr rollback kvN) ∧ (c.swaType = .none → SameShifts c kv (states.foldr rollback kvN)) := by
  refine placeAll_induct (P := fun kv _ states kvN => Rest c kv (states.foldr rollback kvN) ∧
    (c.swaType = .none → SameShifts c kv (states.foldr rollback kvN))) (fun kv _ => ⟨.refl kv, fun _ _ _ _ => rfl⟩)
    (fun kv _ _ _ _ _ _ => ⟨.refl kv, fun _ _ _ _ => rfl⟩) ?_ hinv hus hrun
  rintro kv u us sinfo kv₁ states kvN hinv hu _ _ hslot happly ⟨ihrest, ihshift⟩
  exact ⟨((rest_applyUbatch hinv hu hslot happly).trans ihrest).trans (rest_rollback hinv hu hslot _),
    fun hswa => sameShifts_rollback hswa hinv hu hslot happly (ihshift hswa)⟩

/-! ## The whole of `prepare` -/

/-- `prepare` gives back what it takes: no purge reaches a cell before a slot names it, every
stream finds its own head under its index in the slot, and no cell waits for its shift in a
cache with a window. -/
structure GivesBack (c : KvConfig) (kv : KvCache) (us : List LlamaUbatch) : Prop where
  inv : kv.Inv c
  ubatches : ∀ u ∈ us, UbatchOk c u
  cell : ∀ t, ∀ i < c.kvSize, CellSafe c t i kv us
  head : ∀ t, HeadSafe c t kv us
  shift : c.swaType = .none ∨ ∀ t, ∀ i < c.kvSize, (kv.cell t i).shift = 0

theorem cells_eq {x y : KvCells} (hsize : x.size = y.size) (hshift : x.hasShift = y.hasShift)
    (hused : x.used = y.used) (hseqPos : x.seqPos = y.seqPos) (hcell : ∀ i, x.cell i = y.cell i) :
    x = y := by
  have hpos : x.pos = y.pos := funext fun i => congrArg KvCell.pos (hcell i)
  have hext : x.ext = y.ext := funext fun i => congrArg KvCell.ext (hcell i)
  have hsh : x.shift = y.shift := funext fun i => congrArg KvCell.shift (hcell i)
  have hseq : x.seq = y.seq := funext fun i => congrArg KvCell.seq (hcell i)
  cases x
  cases y
  simp_all

/-- No slots are returned only if some ubatch found none. -/
theorem placeAll_of_noSlots (hrun : kv.prepare c us = some ([], kv')) :
    ∃ states kvN, kv.placeAll c us = some (states, kvN, false) := by
  unfold prepare at hrun
  obtain ⟨⟨states, kvN, ok⟩, hplace, hrun⟩ := bind_eq_some_iff.mp hrun
  cases ok with
  | false => exact ⟨states, kvN, hplace⟩
  | true =>
    cases states with
    | nil | cons state states => simp at hrun

theorem prepare_eq_self {sinfos : List SlotInfo} (h : GivesBack c kv us)
    (hrun : kv.prepare c us = some (sinfos, kv')) : kv' = kv := by
  obtain ⟨states, kvN, ok, hplace, rfl, -⟩ := prepare_cases hrun
  have hundone := placeAll_spec h.inv h.ubatches hplace
  obtain ⟨hrest, hshifts⟩ := placeAll_rest h.inv h.ubatches hplace
  generalize states.foldr rollback kvN = kv' at hundone hrest hshifts
  have hcell : ∀ t i, kv'.cell t i = kv.cell t i := by
    intro t i
    rcases Nat.lt_or_ge i c.kvSize with hi | hi
    · have hsame := (hundone.cell t i hi).mpr (h.cell t i hi)
      refine KvCell.eq_of_fields hsame.pos hsame.ext ?_ hsame.seq
      rcases h.shift with hswa | hzero
      · exact hshifts hswa t i hi
      · rcases hundone.shift t i hi with h0 | h1
        · rw [h0, hzero t i hi]
        · exact h1
    · exact hrest.beyond t i hi
  have hcells : kv'.vCells = kv.vCells := by
    funext t
    have hsize : (kv'.vCells t).size = (kv.vCells t).size :=
      (hundone.inv.size t).trans (h.inv.size t).symm
    obtain ⟨hused, hseqPos⟩ := (h.inv.rep t).indexes_eq (hundone.inv.rep t) hsize
      (fun i _ => congrArg KvCell.pos (hcell t i)) fun i _ => congrArg KvCell.seq (hcell t i)
    exact cells_eq hsize (hrest.hasShift t) hused hseqPos (hcell t)
  have hheads : kv'.vHeads = kv.vHeads := funext fun t => (hundone.head t).mpr (h.head t)
  have hqueue := hrest.scInfo
  cases kv'
  cases kv
  simp_all

end LlamaCpp.KvCache
