import LlamaCpp.Kv.CacheInvariant
import LlamaCpp.Kv.Search

/-!
# What `apply_ubatch` does to the cells

`apply_ubatch` places the tokens one by one and then purges.  Placing rewrites one cell
per token (`placedCell`), and notes for every sequence the largest position that was
overwritten (`MaxRm`).  Purging takes a sequence out of its cells up to that position
(`KvCell.purge`).

`Slot` is what `find_slot` promises about a slot of a ubatch and `UbatchOk` what the
allocator promises about a ubatch; `applyUbatch_spec` puts the two halves together.
-/

namespace LlamaCpp

open List Option

namespace KvCell

/-- The cell once its old content is gone. -/
def evicted (x : KvCell) : KvCell := if x.pos = -1 then x else .blank

/-- The cell is empty or belongs to one sequence. -/
def AtMostOne (x : KvCell) : Prop := x.pos = -1 ∨ ∃ s, x.seq = {s}

/-- The sequences whose overwritten positions reach the cell leave it. -/
def purge (m : SeqId → Int) (x : KvCell) : KvCell :=
  let rest := x.seq.filter fun s => m s < x.pos
  if rest = x.seq then x else if rest = ∅ then .blank else { x with seq := rest }

end KvCell

namespace KvCache

open KvCells (Rep Rewrites)
open Loops (RewritesAt)

variable {c : KvConfig} {kv : KvCache} {ubatch : LlamaUbatch} {sinfo : SlotInfo} {cells : KvCells}
  {i : Nat} {σ : Placing} {τs : List Target} {τ : Target}

abbrev RewritesCell (t i : Nat) (f : KvCell → KvCell) (kv kv' : KvCache) : Prop :=
  RewritesAt (fun (kv : KvCache) (k : Nat × Nat) => kv.cell k.1 k.2) (t, i) f kv kv'

theorem rewritesCell_setCells {t : Nat} {f : KvCell → KvCell} (h : Rewrites i f (kv.vCells t) cells) :
    RewritesCell t i f kv (kv.setCells t cells) where
  here := by
    simp only [cell, setCells_vCells, Function.update_self]
    exact h.here
  elsewhere := by
    rintro ⟨u, j⟩ hne
    by_cases hu : u = t
    · subst hu
      simp only [cell, setCells_vCells, Function.update_self]
      exact h.elsewhere j fun hj => hne (by rw [hj])
    · simp [cell, setCells_vCells, hu]

/-! ## Placing one token -/

/-- The cell of token `i`, written over a cell `x`. -/
def placedCell (c : KvConfig) (ubatch : LlamaUbatch) (i : Nat) (x : KvCell) : KvCell where
  pos := ubatch.pos i
  ext := (ubatchExt c ubatch i).getD x.evicted.ext
  shift := x.evicted.shift
  seq := x.evicted.seq ∪ (ubatch.seqId i).toFinset

theorem rewrites_foldl_seqAdd (ids : List SeqId) (cells : KvCells) (idx : Nat) :
    Rewrites idx (fun x => { x with seq := x.seq ∪ ids.toFinset }) cells
      (ids.foldl (fun cells s => cells.seqAdd idx s) cells) := by
  induction ids generalizing cells with
  | nil => exact ⟨KvCell.eq_of_fields rfl rfl rfl (by simp), fun _ _ => rfl⟩
  | cons s ids ih =>
    have h := (KvCells.rewrites_seqAdd cells idx s).trans (ih (cells.seqAdd idx s))
    refine ⟨h.here.trans ?_, h.elsewhere⟩
    simp [KvCell.seqAdd]

theorem rep_foldl_seqAdd {ids : List SeqId} {idx : Nat} (h : Rep cells) (hidx : idx < cells.size)
    (hpos : cells.pos idx ≠ -1) (hnd : ids.Nodup) (hnew : ∀ s ∈ ids, s ∉ cells.seq idx) :
    Rep (ids.foldl (fun cells s => cells.seqAdd idx s) cells) := by
  induction ids generalizing cells with
  | nil => exact h
  | cons s ids ih =>
    rw [nodup_cons] at hnd
    refine ih (KvCells.rep_seqAdd h hidx hpos (hnew s mem_cons_self)) hidx hpos hnd.2
      fun s' hs' => ?_
    rw [KvCells.seqAdd_seq, if_pos rfl, Finset.mem_insert, not_or]
    exact ⟨fun heq => hnd.1 (heq ▸ hs'), hnew s' (mem_cons_of_mem _ hs')⟩

theorem foldl_seqAdd_size (ids : List SeqId) (cells : KvCells) (idx : Nat) :
    (ids.foldl (fun cells s => cells.seqAdd idx s) cells).size = cells.size := by
  induction ids generalizing cells with
  | nil => rfl
  | cons s ids ih => exact ih _

/-- Position and extra record are written first, the sequences after them. -/
theorem writeToken_eq (c : KvConfig) (ubatch : LlamaUbatch) (i : Nat) (cells : KvCells) (idx : Nat) :
    writeToken c ubatch i cells idx = (ubatch.seqId i).foldl (fun cells s => cells.seqAdd idx s)
      ((ubatchExt c ubatch i).elim (cells.posSet idx (ubatch.pos i))
        ((cells.posSet idx (ubatch.pos i)).extSet idx)) := by
  unfold writeToken
  cases ubatchExt c ubatch i <;> rfl

theorem rewrites_writeToken (c : KvConfig) (ubatch : LlamaUbatch) (i : Nat) (cells : KvCells)
    (idx : Nat) :
    Rewrites idx
      (fun x => ⟨ubatch.pos i, (ubatchExt c ubatch i).getD x.ext, x.shift, x.seq ∪ (ubatch.seqId i).toFinset⟩)
      cells (writeToken c ubatch i cells idx) := by
  rw [writeToken_eq]
  have hset := KvCells.rewrites_posSet cells idx (ubatch.pos i)
  cases ubatchExt c ubatch i with
  | none => exact hset.trans (rewrites_foldl_seqAdd _ _ idx)
  | some e =>
    exact (hset.trans (KvCells.rewrites_extSet _ idx e)).trans (rewrites_foldl_seqAdd _ _ idx)

theorem writeToken_size (c : KvConfig) (ubatch : LlamaUbatch) (i : Nat) (cells : KvCells)
    (idx : Nat) : (writeToken c ubatch i cells idx).size = cells.size := by
  rw [writeToken_eq, foldl_seqAdd_size]
  cases ubatchExt c ubatch i <;> rfl

theorem rep_writeToken {idx : Nat} (h : Rep cells) (hidx : idx < cells.size)
    (hempty : cells.pos idx = -1) (hpos : 0 ≤ ubatch.pos i) (hnd : (ubatch.seqId i).Nodup) :
    Rep (writeToken c ubatch i cells idx) := by
  have hset := KvCells.rep_posSet h hidx hempty hpos
  have hseq : ∀ s ∈ ubatch.seqId i, s ∉ cells.seq idx := by
    intro s _
    rw [h.seq_empty idx hidx hempty]
    exact Finset.notMem_empty s
  rw [writeToken_eq]
  cases ubatchExt c ubatch i with
  | none => exact rep_foldl_seqAdd hset hidx (by simp; omega) hnd hseq
  | some e =>
    exact rep_foldl_seqAdd (KvCells.rep_extSet hset idx e) hidx (by simp; omega) hnd hseq

theorem evict_kv (σ : Placing) (t idx : Nat) :
    (evict σ t idx).kv = if (σ.kv.vCells t).isEmpty idx then σ.kv else σ.kv.setCells t ((σ.kv.vCells t).rm idx) := by
  unfold evict
  dsimp only
  split <;> rfl

theorem rewritesCell_evict (σ : Placing) (t idx : Nat) :
    RewritesCell t idx KvCell.evicted σ.kv (evict σ t idx).kv := by
  rw [evict_kv]
  split
  · rename_i he
    have hp : (σ.kv.cell t idx).pos = -1 := of_decide_eq_true he
    exact ⟨(if_pos hp).symm, fun _ _ => rfl⟩
  · rename_i he
    have hp : (σ.kv.cell t idx).pos ≠ -1 := fun hp => he (decide_eq_true hp)
    have h := rewritesCell_setCells (KvCells.rewrites_rm (σ.kv.vCells t) idx)
    exact ⟨h.here.trans (if_neg hp).symm, h.elsewhere⟩

theorem rewritesCell_placeToken (σ : Placing) (τ : Target) :
    RewritesCell τ.strm τ.idx (placedCell c ubatch τ.i) σ.kv (placeToken c ubatch σ τ).kv := by
  have hev := rewritesCell_evict σ τ.strm τ.idx
  have hwr : RewritesCell τ.strm τ.idx _ (evict σ τ.strm τ.idx).kv (placeToken c ubatch σ τ).kv :=
    rewritesCell_setCells
      (rewrites_writeToken c ubatch τ.i ((evict σ τ.strm τ.idx).kv.vCells τ.strm) τ.idx)
  refine ⟨?_, fun k hk => (hwr.elsewhere k hk).trans (hev.elsewhere k hk)⟩
  have hhere := hev.here
  have h := hwr.here
  rw [hhere] at h
  exact h

/-- A token and a cell it can be placed in. -/
structure TargetOk (c : KvConfig) (ubatch : LlamaUbatch) (τ : Target) : Prop where
  idx_lt : τ.idx < c.kvSize
  pos_nonneg : 0 ≤ ubatch.pos τ.i
  nodup : (ubatch.seqId τ.i).Nodup
  owner : ∀ s ∈ ubatch.seqId τ.i, c.seqToStream s = τ.strm

theorem Inv.evict {σ : Placing} (h : σ.kv.Inv c) {t idx : Nat} (hidx : idx < c.kvSize) :
    (evict σ t idx).kv.Inv c := by
  rw [evict_kv]
  split
  · exact h
  · refine h.setCells (h.size t) (KvCells.rep_rm (h.rep t) (h.size t ▸ hidx)) fun i hi s hs => ?_
    rw [KvCells.rm_seq] at hs
    split at hs
    · exact absurd hs (Finset.notMem_empty s)
    · exact h.owner t i hi s hs

theorem Inv.placeToken {σ : Placing} (h : σ.kv.Inv c) {τ : Target} (hτ : TargetOk c ubatch τ) :
    (placeToken c ubatch σ τ).kv.Inv c := by
  have hev := h.evict (t := τ.strm) hτ.idx_lt
  have hempty : ((KvCache.evict σ τ.strm τ.idx).kv.cell τ.strm τ.idx).pos = -1 := by
    have hhere := (rewritesCell_evict σ τ.strm τ.idx).here
    rw [hhere]
    unfold KvCell.evicted
    split
    · assumption
    · rfl
  refine hev.setCells ((writeToken_size ..).trans (hev.size _))
    (rep_writeToken (hev.rep _) (hev.size τ.strm ▸ hτ.idx_lt) hempty hτ.pos_nonneg hτ.nodup)
    fun i hi s hs => ?_
  have hrw := rewrites_writeToken c ubatch τ.i
    ((KvCache.evict σ τ.strm τ.idx).kv.vCells τ.strm) τ.idx
  by_cases hi' : i = τ.idx
  · subst hi'
    rw [← KvCells.cell_seq, hrw.here] at hs
    rcases Finset.mem_union.mp hs with hs | hs
    · exact hev.owner _ _ hi s hs
    · exact hτ.owner s (List.mem_toFinset.mp hs)
  · rw [← KvCells.cell_seq, hrw.elsewhere i hi'] at hs
    exact hev.owner _ _ hi s hs

/-! ## Placing all tokens -/

/-- The cell a token is placed in. -/
def Target.key (τ : Target) : Nat × Nat := (τ.strm, τ.idx)

theorem Inv.placeTokens (h : σ.kv.Inv c) (hτs : ∀ τ ∈ τs, TargetOk c ubatch τ) :
    (τs.foldl (KvCache.placeToken c ubatch) σ).kv.Inv c := by
  induction τs generalizing σ with
  | nil => exact h
  | cons τ τs ih =>
    exact ih (h.placeToken (hτs τ mem_cons_self)) fun τ' hτ' =>
      hτs τ' (mem_cons_of_mem _ hτ')

theorem placeToken_view (σ : Placing) (τ : Target) :
    RewritesAt (fun (σ : Placing) (k : Nat × Nat) => σ.kv.cell k.1 k.2) τ.key
      (placedCell c ubatch τ.i) σ (placeToken c ubatch σ τ) :=
  ⟨(rewritesCell_placeToken σ τ).here, (rewritesCell_placeToken σ τ).elsewhere⟩

theorem placeTokens_cell_of_mem (hnd : (τs.map Target.key).Nodup) (hτ : τ ∈ τs) :
    (τs.foldl (placeToken c ubatch) σ).kv.cell τ.strm τ.idx = placedCell c ubatch τ.i (σ.kv.cell τ.strm τ.idx) :=
  Loops.foldl_view_of_mem (fun (σ : Placing) (k : Nat × Nat) => σ.kv.cell k.1 k.2) Target.key
    placeToken_view hnd hτ σ

theorem placeTokens_cell_of_notMem {t : Nat} (hti : (t, i) ∉ τs.map Target.key) :
    (τs.foldl (placeToken c ubatch) σ).kv.cell t i = σ.kv.cell t i :=
  Loops.foldl_view_of_notMem (fun (σ : Placing) (k : Nat × Nat) => σ.kv.cell k.1 k.2) Target.key
    placeToken_view hti σ

theorem placeToken_vHeads (σ : Placing) (τ : Target) : (placeToken c ubatch σ τ).kv.vHeads = σ.kv.vHeads := by
  have hwrite : (placeToken c ubatch σ τ).kv.vHeads = (evict σ τ.strm τ.idx).kv.vHeads := rfl
  rw [hwrite, evict_kv]
  split <;> rfl

theorem placeTokens_vHeads (σ : Placing) (τs : List Target) :
    (τs.foldl (placeToken c ubatch) σ).kv.vHeads = σ.kv.vHeads := by
  induction τs generalizing σ with
  | nil => rfl
  | cons τ τs ih => rw [foldl_cons, ih, placeToken_vHeads]

/-! ## The largest overwritten positions -/

/-- Placing the tokens overwrites `s` at position `p`: some target cell is held by `s`
alone. -/
def Overwrites (kv : KvCache) (τs : List Target) (s : SeqId) (p : Int) : Prop :=
  ∃ τ ∈ τs, (kv.cell τ.strm τ.idx).pos = p ∧ p ≠ -1 ∧ (kv.cell τ.strm τ.idx).seq = {s}

/-- `m` is, for every sequence, the largest position that is overwritten, or `-1`. -/
structure MaxRm (kv : KvCache) (τs : List Target) (m : SeqId → Int) : Prop where
  ge : ∀ s, -1 ≤ m s
  attained : ∀ s, m s ≠ -1 → Overwrites kv τs s (m s)
  le : ∀ s p, Overwrites kv τs s p → p ≤ m s

theorem seqGet_of_singleton {s : SeqId} (h : cells.seq i = {s}) : cells.seqGet i = some s := by
  unfold KvCells.seqGet
  rw [h, find?_eq_some_iff_append]
  have hmem : s ∈ List.finRange llamaMaxSeq := mem_finRange s
  obtain ⟨as, bs, hsplit⟩ := append_of_mem hmem
  refine ⟨by simp, as, bs, hsplit, fun a ha => ?_⟩
  have hnd := nodup_finRange llamaMaxSeq
  rw [hsplit, nodup_append] at hnd
  simpa using hnd.2.2 a ha s mem_cons_self

/-- A cell that can be used and is not empty has one sequence. -/
theorem singleton_of_canUse (h : canUse c cells i = true) (hne : cells.isEmpty i = false) :
    ∃ s, cells.seq i = {s} ∧ c.isMasked (cells.pos i) (cells.seqPosMax s + 1) = true := by
  simp only [canUse, hne, Bool.false_or, Bool.and_eq_true, beq_iff_eq, KvCells.seqCount] at h
  obtain ⟨s, hs⟩ := Finset.card_eq_one.mp h.1
  refine ⟨s, hs, ?_⟩
  have hmask := h.2
  rw [seqGet_of_singleton hs] at hmask
  exact hmask

/-- What placing one token does to the noted positions. -/
theorem placeToken_maxRm (hone : (σ.kv.cell τ.strm τ.idx).AtMostOne) (s : SeqId) :
    (placeToken c ubatch σ τ).maxRm s =
      if (σ.kv.cell τ.strm τ.idx).pos ≠ -1 ∧ (σ.kv.cell τ.strm τ.idx).seq = {s} then
        max (σ.maxRm s) (σ.kv.cell τ.strm τ.idx).pos
      else σ.maxRm s := by
  have hwrite : (placeToken c ubatch σ τ).maxRm = (evict σ τ.strm τ.idx).maxRm := rfl
  rw [hwrite]
  unfold evict
  dsimp only
  split
  · rename_i he
    rw [if_neg fun h => h.1 (of_decide_eq_true he)]
  · rename_i he
    have hpos : (σ.kv.cell τ.strm τ.idx).pos ≠ -1 := fun hp => he (decide_eq_true hp)
    obtain ⟨s', hseq⟩ := hone.resolve_left hpos
    rw [seqGet_of_singleton hseq]
    by_cases hs : s = s'
    · subst hs
      rw [if_pos ⟨hpos, hseq⟩]
      exact Function.update_self ..
    · rw [if_neg fun h => hs (Finset.singleton_injective (h.2.symm.trans hseq))]
      exact Function.update_of_ne hs _ _

theorem overwrites_cons {s : SeqId} {p : Int} : Overwrites kv (τ :: τs) s p ↔
      ((kv.cell τ.strm τ.idx).pos = p ∧ p ≠ -1 ∧ (kv.cell τ.strm τ.idx).seq = {s}) ∨ Overwrites kv τs s p := by
  simp only [Overwrites, mem_cons, exists_eq_or_imp]

/-- The noted positions only grow, and they grow to the largest one overwritten. -/
theorem placeTokens_maxRm (hnd : (τs.map Target.key).Nodup)
    (hone : ∀ τ ∈ τs, (σ.kv.cell τ.strm τ.idx).AtMostOne) (s : SeqId) :
    (Overwrites σ.kv τs s ((τs.foldl (placeToken c ubatch) σ).maxRm s) ∨
        (τs.foldl (placeToken c ubatch) σ).maxRm s = σ.maxRm s) ∧
      σ.maxRm s ≤ (τs.foldl (placeToken c ubatch) σ).maxRm s ∧
      ∀ p, Overwrites σ.kv τs s p → p ≤ (τs.foldl (placeToken c ubatch) σ).maxRm s := by
  induction τs generalizing σ with
  | nil => exact ⟨.inr rfl, le_rfl, fun p hp => by simp [Overwrites] at hp⟩
  | cons τ τs ih =>
    rw [map_cons, nodup_cons] at hnd
    -- the cells of the later tokens are still as they were
    have hkeep : ∀ τ' ∈ τs, (placeToken c ubatch σ τ).kv.cell τ'.strm τ'.idx =
        σ.kv.cell τ'.strm τ'.idx := fun τ' hτ' =>
      (placeToken_view σ τ).elsewhere τ'.key fun heq =>
        hnd.1 (heq ▸ List.mem_map_of_mem hτ')
    have hover : ∀ p, Overwrites (placeToken c ubatch σ τ).kv τs s p ↔ Overwrites σ.kv τs s p := by
      intro p
      constructor
      · rintro ⟨τ', hτ', h⟩
        exact ⟨τ', hτ', hkeep τ' hτ' ▸ h⟩
      · rintro ⟨τ', hτ', h⟩
        exact ⟨τ', hτ', (hkeep τ' hτ').symm ▸ h⟩
    obtain ⟨hat, hle, hall⟩ := ih (σ := placeToken c ubatch σ τ) hnd.2 fun τ' hτ' =>
      hkeep τ' hτ' ▸ hone τ' (mem_cons_of_mem _ hτ')
    have hstep : (placeToken c ubatch σ τ).maxRm s = _ :=
      placeToken_maxRm (hone τ mem_cons_self) s
    simp only [foldl_cons, hover] at hat hall ⊢
    split at hstep
    · rename_i h
      refine ⟨?_, by omega, fun p hp => ?_⟩
      · rcases hat with hat | hat
        · exact .inl (overwrites_cons.mpr (.inr hat))
        · rw [hat, hstep]
          rcases max_choice (σ.maxRm s) (σ.kv.cell τ.strm τ.idx).pos with hmax | hmax
          · exact .inr hmax
          · rw [hmax]
            exact .inl (overwrites_cons.mpr (.inl ⟨rfl, h.1, h.2⟩))
      · rcases overwrites_cons.mp hp with ⟨rfl, -⟩ | hp
        · omega
        · exact hall p hp
    · rename_i h
      refine ⟨?_, by omega, fun p hp => ?_⟩
      · rw [← hstep]
        exact hat.imp_left fun hat => overwrites_cons.mpr (.inr hat)
      · rcases overwrites_cons.mp hp with ⟨rfl, hp, hseq⟩ | hp
        · exact absurd ⟨hp, hseq⟩ h
        · exact hall p hp

theorem maxRm_placeTokens (hnd : (τs.map Target.key).Nodup)
    (hone : ∀ τ ∈ τs, (kv.cell τ.strm τ.idx).AtMostOne) :
    MaxRm kv τs (τs.foldl (placeToken c ubatch) ⟨kv, fun _ => -1⟩).maxRm where
  ge := fun s => (placeTokens_maxRm (σ := ⟨kv, fun _ => -1⟩) hnd hone s).2.1
  attained := fun s hne =>
    (placeTokens_maxRm (σ := ⟨kv, fun _ => -1⟩) hnd hone s).1.resolve_right hne
  le := fun s =>
    (placeTokens_maxRm (σ := ⟨kv, fun _ => -1⟩) hnd hone s).2.2

end KvCache

/-! ## Purging -/

namespace KvCell

def purgeOne (m : SeqId → Int) (x : KvCell) (s : SeqId) : KvCell :=
  if s ∈ x.seq ∧ x.pos ≤ m s then x.seqRm s else x

/-- `purge` for the sequences of a list. -/
def purgeIn (m : SeqId → Int) (l : List SeqId) (x : KvCell) : KvCell :=
  let rest := x.seq.filter fun s => s ∉ l ∨ m s < x.pos
  if rest = x.seq then x else if rest = ∅ then .blank else { x with seq := rest }

variable {m : SeqId → Int} {s : SeqId} {x : KvCell}

theorem purgeIn_cons_of_mem {l : List SeqId} (hs : s ∈ x.seq ∧ x.pos ≤ m s) :
    (x.seqRm s).purgeIn m l = x.purgeIn m (s :: l) := by
  have hrest : x.seq.filter (fun s' => s' ∉ s :: l ∨ m s' < x.pos) =
      (x.seq.erase s).filter (fun s' => s' ∉ l ∨ m s' < x.pos) := by
    ext s'
    simp only [Finset.mem_filter, Finset.mem_erase, mem_cons, not_or]
    constructor
    · rintro ⟨hs', h⟩
      have hne : s' ≠ s := by
        rintro rfl
        rcases h with h | h
        · exact h.1 rfl
        · omega
      exact ⟨⟨hne, hs'⟩, h.imp_left fun h => h.2⟩
    · rintro ⟨⟨hne, hs'⟩, h⟩
      exact ⟨hs', h.imp_left fun h => ⟨hne, h⟩⟩
  have hne : x.seq.filter (fun s' => s' ∉ s :: l ∨ m s' < x.pos) ≠ x.seq := by
    intro heq
    have := heq.symm ▸ hs.1
    rw [hrest] at this
    exact Finset.notMem_erase s _ (Finset.mem_of_mem_filter s this)
  simp only [purgeIn, if_neg hne]
  rw [hrest]
  unfold seqRm
  split
  · rename_i he
    rw [he, Finset.filter_empty, if_pos rfl]
    exact if_pos (Finset.filter_empty _)
  · rename_i he
    split
    · rename_i hall
      rw [hall, if_neg he]
    · rfl

theorem purgeIn_cons_of_not {l : List SeqId} (hs : ¬(s ∈ x.seq ∧ x.pos ≤ m s)) :
    x.purgeIn m l = x.purgeIn m (s :: l) := by
  have hrest : x.seq.filter (fun s' => s' ∉ l ∨ m s' < x.pos) =
      x.seq.filter (fun s' => s' ∉ s :: l ∨ m s' < x.pos) := by
    refine Finset.filter_congr fun s' hs' => ?_
    rw [mem_cons, not_or]
    constructor
    · rintro (h | h)
      · by_cases heq : s' = s
        · subst heq
          exact .inr (by_contra fun hlt => hs ⟨hs', by omega⟩)
        · exact .inl ⟨heq, h⟩
      · exact .inr h
    · exact Or.imp_left And.right
  simp only [purgeIn, hrest]

theorem foldl_purgeOne (m : SeqId → Int) (l : List SeqId) (x : KvCell) : l.foldl (purgeOne m) x = x.purgeIn m l := by
  induction l generalizing x with
  | nil => simp [purgeIn]
  | cons s l ih =>
    rw [foldl_cons, ih]
    unfold purgeOne
    split
    · rename_i hs
      exact purgeIn_cons_of_mem hs
    · rename_i hs
      exact purgeIn_cons_of_not hs

theorem purgeIn_finRange (m : SeqId → Int) (x : KvCell) : x.purgeIn m (List.finRange llamaMaxSeq) = x.purge m := by
  simp [purgeIn, purge, mem_finRange]

theorem purge_seq (m : SeqId → Int) (x : KvCell) : (x.purge m).seq = x.seq.filter fun s => m s < x.pos := by
  unfold purge
  dsimp only
  split_ifs with hall hnone
  · exact hall.symm
  · exact hnone.symm
  · rfl

theorem purge_eq_self (h : ∀ s ∈ x.seq, m s < x.pos) : x.purge m = x := by
  unfold purge
  exact if_pos (Finset.filter_true_of_mem h)

theorem purge_pos_of_mem (hs : s ∈ (x.purge m).seq) : (x.purge m).pos = x.pos := by
  unfold purge at hs ⊢
  dsimp only at hs ⊢
  split_ifs at hs ⊢ with hall hnone
  · rfl
  · exact absurd hs (Finset.notMem_empty s)
  · rfl

theorem purge_shift (h : x.shift = 0) : (x.purge m).shift = 0 := by
  unfold purge
  dsimp only
  split_ifs
  · exact h
  · rfl
  · exact h

end KvCell

namespace KvCache

/-- Every sequence that would be purged has a stream, and nothing is purged under MSA. -/
def PurgeOk (c : KvConfig) (m : SeqId → Int) : Prop :=
  ∀ s, m s ≠ -1 → s.val < c.seqToStreamSize ∧ c.msaStrictSlots = false

variable {m : SeqId → Int}

theorem purgeSeq_spec (hinv : kv.Inv c) (hsh : c.shared = false) {s : SeqId} (hm : -1 ≤ m s)
    {kv' : KvCache} (hrun : purgeSeq c m kv s = some kv') :
    kv'.Inv c ∧ (∀ t, ∀ i < c.kvSize, kv'.cell t i = (kv.cell t i).purgeOne m s) ∧
      ∀ t, (m s ≠ -1 → c.seqToStream s ≠ t) → kv'.vHeads t = kv.vHeads t := by
  -- no cell of `s` is at or below the noted position
  have hsame : (∀ i < c.kvSize, s ∈ (kv.cell (c.seqToStream s) i).seq →
      m s < (kv.cell (c.seqToStream s) i).pos) → kv' = kv →
      kv'.Inv c ∧ (∀ t, ∀ i < c.kvSize, kv'.cell t i = (kv.cell t i).purgeOne m s) ∧
        ∀ t, (m s ≠ -1 → c.seqToStream s ≠ t) → kv'.vHeads t = kv.vHeads t := by
    rintro hgt rfl
    refine ⟨hinv, fun t i hi => (if_neg ?_).symm, fun _ _ => rfl⟩
    rintro ⟨hs, hle⟩
    obtain rfl := hinv.owner t i hi s hs
    have := hgt i hi hs
    omega
  unfold purgeSeq at hrun
  split_ifs at hrun with hnone hstrm hmin
  · refine hsame (fun i hi hs => ?_) (some.inj hrun).symm
    have hsz : i < (kv.vCells (c.seqToStream s)).size := hinv.size _ ▸ hi
    have hp : 0 ≤ (kv.cell (c.seqToStream s) i).pos :=
      (hinv.rep _).pos_nonneg hsz ((hinv.rep _).pos_ne_of_mem hsz hs)
    omega
  · split at hrun
    · rename_i kv'' hrm
      obtain rfl := some.inj hrun
      have hhi : rangeHi (m s + 1) = m s + 1 := if_neg (by omega)
      have hlo : rangeLo (kv.seqPosMin c s) ≤ m s := by
        unfold rangeLo
        split <;> omega
      rcases seqRm_cases hrm with ⟨-, hcase⟩ | ⟨-, -, -, hkv⟩
      · rcases hcase with h | h | h
        · exact absurd h (by simp [hsh])
        · omega
        · exact absurd h (by simp)
      · have hact := acts_seqRm_onSeq s (rangeLo (kv.seqPosMin c s)) (m s + 1)
        rw [hhi] at hkv
        refine ⟨hinv.seqRm hrm, fun t i hi => ?_, fun t ht => ?_⟩
        · rw [hkv]
          refine (pass_cell hact kv _ t i).trans ?_
          by_cases hs : s ∈ (kv.cell t i).seq
          · obtain rfl := hinv.owner t i hi s hs
            have hsz : i < (kv.vCells (c.seqToStream s)).size := hinv.size _ ▸ hi
            have hge : kv.seqPosMin c s ≤ (kv.cell (c.seqToStream s) i).pos :=
              ((hinv.rep _).pos_mem_Icc hsz hs).1
            have hp : 0 ≤ (kv.cell (c.seqToStream s) i).pos :=
              (hinv.rep _).pos_nonneg hsz ((hinv.rep _).pos_ne_of_mem hsz hs)
            have hlo' : rangeLo (kv.seqPosMin c s) ≤ (kv.cell (c.seqToStream s) i).pos := by
              unfold rangeLo
              split <;> omega
            rw [if_pos ⟨rfl, hsz⟩]
            refine if_congr ?_ rfl rfl
            unfold KvCell.OnSeq
            constructor
            · exact fun h => ⟨hs, by omega⟩
            · exact fun h => ⟨⟨hlo', by omega⟩, hs⟩
          · have hkeep : (kv.cell t i).purgeOne m s = kv.cell t i := if_neg fun h => hs h.1
            rw [hkeep]
            split
            · exact if_neg fun h => hs h.2
            · rfl
        · rw [hkv]
          exact pass_vHeads_of_ne kv (ht hnone).symm
    · exact absurd hrun (by simp)
  · refine hsame (fun i hi hs => ?_) (some.inj hrun).symm
    have hge : kv.seqPosMin c s ≤ (kv.cell (c.seqToStream s) i).pos :=
      ((hinv.rep _).pos_mem_Icc (hinv.size _ ▸ hi) hs).1
    omega

/-- A purge of a sequence that has a stream does not abort. -/
theorem purgeSeq_isSome (hm : PurgeOk c m) (kv : KvCache) (s : SeqId) : (purgeSeq c m kv s).isSome = true := by
  unfold purgeSeq
  split_ifs with hnone hstrm hmin
  · rfl
  · exact absurd (hm s hnone).1 (by omega)
  · have hrm : ∃ kv', kv.seqRm c (some s) (kv.seqPosMin c s) (m s + 1) = some (kv', true) := by
      have hrej : kv.msaRejects c (some s) (rangeLo (kv.seqPosMin c s)) (rangeHi (m s + 1)) ≠ true := by
        simp [msaRejects, (hm s hnone).2]
      have hstrm' : ¬∃ s' ∈ some s, c.seqToStreamSize ≤ s'.val := by
        rintro ⟨s', hs', hge⟩
        exact hstrm (some.inj hs' ▸ hge)
      unfold KvCache.seqRm
      rw [if_neg hstrm', if_neg hrej]
      split_ifs <;> exact ⟨_, rfl⟩
    obtain ⟨kv', hkv'⟩ := hrm
    rw [hkv']
    rfl
  · rfl

/-- All purges, when they return. -/
theorem purge_spec (hm : ∀ s, -1 ≤ m s) (hsh : c.shared = false) {l : List SeqId} {kv kv' : KvCache}
    (hinv : kv.Inv c) (hrun : l.foldlM (purgeSeq c m) kv = some kv') :
    kv'.Inv c ∧ (∀ t, ∀ i < c.kvSize, kv'.cell t i = l.foldl (KvCell.purgeOne m) (kv.cell t i)) ∧
      ∀ t, (∀ s, m s ≠ -1 → c.seqToStream s ≠ t) → kv'.vHeads t = kv.vHeads t := by
  induction l generalizing kv with
  | nil =>
    obtain rfl : kv = kv' := by simpa using hrun
    exact ⟨hinv, fun _ _ _ => rfl, fun _ _ => rfl⟩
  | cons s l ih =>
    rw [foldlM_cons] at hrun
    obtain ⟨kv₁, hone, hrun⟩ := bind_eq_some_iff.mp hrun
    obtain ⟨hinv₁, hcell₁, hhead₁⟩ := purgeSeq_spec hinv hsh (hm s) hone
    obtain ⟨hinv', hcell, hhead⟩ := ih hinv₁ hrun
    refine ⟨hinv', fun t i hi => ?_, fun t ht => ?_⟩
    · rw [hcell t i hi, hcell₁ t i hi]
      rfl
    · rw [hhead t ht, hhead₁ t (ht s)]

theorem purge_isSome (hm : PurgeOk c m) (l : List SeqId) (kv : KvCache) :
    ∃ kv', l.foldlM (purgeSeq c m) kv = some kv' := by
  induction l generalizing kv with
  | nil => exact ⟨kv, rfl⟩
  | cons s l ih =>
    obtain ⟨kv₁, hone⟩ := isSome_iff_exists.mp (purgeSeq_isSome hm kv s)
    obtain ⟨kv', hrest⟩ := ih kv₁
    exact ⟨kv', by rw [foldlM_cons, hone]; exact hrest⟩

end KvCache

end LlamaCpp
