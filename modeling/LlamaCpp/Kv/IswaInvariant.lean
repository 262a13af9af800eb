import LlamaCpp.Kv.Iswa
import LlamaCpp.Kv.SeqRoundTrip

/-!
# What the calls of the window cache keep

Every call keeps both caches well kept (`Iswa.Inv`), a restore of a saved state
included.  A restore of one sequence stays within the stream of that sequence in both
caches (`Iswa.keeps_stateRead`).
-/

namespace LlamaCpp.Iswa

open List Option

open Readers (Reader Input Keeps bind_ok bind_error)
open KvCache (UbatchOk CopyOk SlotInfo)

variable {c : IswaConfig} {σ σ' τ : IswaState}

variable (c) in
/-- Both caches are well kept. -/
structure Inv (σ : IswaState) : Prop where
  base : σ.base.cache.Inv c.base
  swa : σ.swa.cache.Inv c.swa

theorem inv_init : Inv c (init c) := ⟨KvCache.inv_init, KvCache.inv_init⟩

/-! ## Sequences -/

theorem Inv.clear (h : Inv c σ) (data : Bool) : Inv c (clear c data σ) :=
  ⟨h.base.clear, h.swa.clear⟩

theorem mapCells_eq_some {σ σ' : KvState} {f : KvCache → Option KvCache} :
    σ.mapCells f = some σ' ↔ ∃ kv, f σ.cache = some kv ∧ σ' = { σ with cache := kv } := by
  unfold KvState.mapCells
  rw [map_eq_some_iff]
  simp only [eq_comm]

/-- The same call on both caches, taken apart. -/
theorem onBoth_eq_some {f : KvConfig → KvCache → Option KvCache} (hrun : onBoth c f σ = some σ') :
    ∃ base swa, f c.base σ.base.cache = some base ∧ f c.swa σ.swa.cache = some swa ∧
      σ' = ⟨{ σ.base with cache := base }, { σ.swa with cache := swa }⟩ := by
  unfold onBoth at hrun
  obtain ⟨base, hbase, hrun⟩ := bind_eq_some_iff.mp hrun
  obtain ⟨swa, hswa, rfl⟩ := map_eq_some_iff.mp hrun
  obtain ⟨kv, hkv, rfl⟩ := mapCells_eq_some.mp hbase
  obtain ⟨kv', hkv', rfl⟩ := mapCells_eq_some.mp hswa
  exact ⟨kv, kv', hkv, hkv', rfl⟩

variable {p0 p1 : Int}

theorem seqRm_eq_some {seqId : Option SeqId} {ok : Bool}
    (hrun : seqRm c seqId p0 p1 σ = some (σ', ok)) :
    ∃ base swa res res', σ.base.cache.seqRm c.base seqId p0 p1 = some (base, res) ∧
      σ.swa.cache.seqRm c.swa seqId p0 p1 = some (swa, res') ∧ ok = (res && res') ∧
      σ' = ⟨{ σ.base with cache := base }, { σ.swa with cache := swa }⟩ := by
  unfold seqRm at hrun
  obtain ⟨⟨base, res⟩, hbase, hrun⟩ := bind_eq_some_iff.mp hrun
  obtain ⟨⟨swa, res'⟩, hswa, heq⟩ := map_eq_some_iff.mp hrun
  obtain ⟨rfl, rfl⟩ := Prod.mk.inj heq
  exact ⟨base, swa, res, res', hbase, hswa, rfl, rfl⟩

theorem Inv.seqRm (h : Inv c σ) {seqId : Option SeqId} {ok : Bool}
    (hrun : seqRm c seqId p0 p1 σ = some (σ', ok)) : Inv c σ' := by
  obtain ⟨base, swa, res, res', hbase, hswa, -, rfl⟩ := seqRm_eq_some hrun
  exact ⟨h.base.seqRm hbase, h.swa.seqRm hswa⟩

theorem Inv.seqCp (h : Inv c σ) {s d : SeqId}
    (hbase : CopyOk c.base σ.base.cache s d p0 p1) (hswa : CopyOk c.swa σ.swa.cache s d p0 p1)
    (hrun : seqCp c s d p0 p1 σ = some σ') : Inv c σ' := by
  obtain ⟨base, swa, hb, hw, rfl⟩ := onBoth_eq_some hrun
  exact ⟨h.base.seqCp hbase hb, h.swa.seqCp hswa hw⟩

theorem Inv.seqKeep (h : Inv c σ) {s : SeqId} (hrun : seqKeep c s σ = some σ') : Inv c σ' := by
  obtain ⟨base, swa, hb, hw, rfl⟩ := onBoth_eq_some hrun
  exact ⟨h.base.seqKeep hb, h.swa.seqKeep hw⟩

theorem Inv.seqAdd (h : Inv c σ) {s : SeqId} {shift : Int}
    (hrun : seqAdd c s p0 p1 shift σ = some σ') : Inv c σ' := by
  obtain ⟨base, swa, hb, hw, rfl⟩ := onBoth_eq_some hrun
  exact ⟨h.base.seqAdd hb, h.swa.seqAdd hw⟩

theorem Inv.seqDiv (h : Inv c σ) {s : SeqId} {d : Int} (hd : 1 ≤ d)
    (hrun : seqDiv c s p0 p1 d σ = some σ') : Inv c σ' := by
  obtain ⟨base, swa, hb, hw, rfl⟩ := onBoth_eq_some hrun
  exact ⟨h.base.seqDiv hd hb, h.swa.seqDiv hd hw⟩

theorem inv_updateKv {c : KvConfig} {σ σ' : KvState} {shift : KvCache → KvData → KvData} {computed : Bool}
    (h : σ.cache.Inv c) (hrun : σ.update c shift computed = some σ') : σ'.cache.Inv c := by
  obtain ⟨kv, hkv, rfl⟩ := map_eq_some_iff.mp hrun
  exact h.update hkv

theorem Inv.update (h : Inv c σ) {shift : KvCache → KvData → KvData} {computed : Bool}
    (hrun : update c shift computed σ = some σ') : Inv c σ' := by
  obtain ⟨base, hb, hrun⟩ := bind_eq_some_iff.mp hrun
  obtain ⟨swa, hw, rfl⟩ := map_eq_some_iff.mp hrun
  exact ⟨inv_updateKv h.base hb, inv_updateKv h.swa hw⟩

/-! ## Batches -/

/-- What the allocator promises about a ubatch depends on the streams alone. -/
theorem ubatchOk_swa {u : LlamaUbatch} (h : UbatchOk c.base u) : UbatchOk c.swa u := by
  have hn := c.nStream_eq
  have hseqs : KvCache.nSeqs c.swa u = KvCache.nSeqs c.base u := by
    unfold KvCache.nSeqs
    rw [hn]
  have htokens : KvCache.tokensPerStream c.swa u = KvCache.tokensPerStream c.base u := by
    unfold KvCache.tokensPerStream
    rw [hseqs]
  have hsize : c.swa.seqToStreamSize = c.base.seqToStreamSize := by
    unfold KvConfig.seqToStreamSize
    rw [hn]
  exact
    { tokens := h.tokens, pos_nonneg := h.pos_nonneg, nodup := h.nodup, unq_length := h.unq_length
      unq_nodup := h.unq_nodup
      unq_stream := by
        rw [hseqs, hsize]
        exact h.unq_stream
      dvd := hseqs ▸ h.dvd
      groups := by
        rw [hn, hseqs, htokens]
        exact h.groups }

variable {us : List LlamaUbatch}

/-- `prepare`, taken apart: `swa` is prepared if `base` has slots. -/
theorem prepare_eq_some {sinfos : List SlotInfo × List SlotInfo}
    (hrun : prepare c us σ = some (sinfos, σ')) :
    ∃ sb base, σ.base.cache.prepare c.base us = some (sb, base) ∧
      ((sb = [] ∧ sinfos = ([], []) ∧ σ' = { σ with base := { σ.base with cache := base } }) ∨
        ∃ ss swa, σ.swa.cache.prepare c.swa us = some (ss, swa) ∧ sb ≠ [] ∧ sinfos = (sb, ss) ∧
          σ' = ⟨{ σ.base with cache := base }, { σ.swa with cache := swa }⟩) := by
  unfold prepare at hrun
  obtain ⟨⟨sb, base⟩, hbase, hrun⟩ := bind_eq_some_iff.mp hrun
  refine ⟨sb, base, hbase, ?_⟩
  dsimp only at hrun
  split_ifs at hrun with hnil
  · obtain ⟨rfl, rfl⟩ := Prod.mk.inj (some.inj hrun)
    exact .inl ⟨List.isEmpty_iff.mp hnil, rfl, rfl⟩
  · obtain ⟨⟨ss, swa⟩, hswa, heq⟩ := map_eq_some_iff.mp hrun
    obtain ⟨rfl, rfl⟩ := Prod.mk.inj heq
    exact .inr ⟨ss, swa, hswa, fun h => hnil (List.isEmpty_iff.mpr h), rfl, rfl⟩

theorem Inv.prepare (h : Inv c σ) (hus : ∀ u ∈ us, UbatchOk c.base u)
    {sinfos : List SlotInfo × List SlotInfo} (hrun : prepare c us σ = some (sinfos, σ')) : Inv c σ' := by
  obtain ⟨sb, base, hbase, ⟨-, -, rfl⟩ | ⟨ss, swa, hswa, -, -, rfl⟩⟩ := prepare_eq_some hrun
  · exact ⟨(KvCache.undone_prepare h.base hus hbase).inv, h.swa⟩
  · exact ⟨(KvCache.undone_prepare h.base hus hbase).inv,
      (KvCache.undone_prepare h.swa (fun u hu => ubatchOk_swa (hus u hu)) hswa).inv⟩

theorem mem_zip_of_mem_zip {α β γ : Type} {as : List α} {bs : List β} {cs : List γ} {x : (α × β) × γ}
    (h : x ∈ (as.zip bs).zip cs) : (x.1.1, x.2) ∈ as.zip cs ∧ (x.1.2, x.2) ∈ bs.zip cs := by
  obtain ⟨i, hi, rfl⟩ := mem_iff_getElem.mp h
  simp only [length_zip, lt_min_iff] at hi
  simp only [getElem_zip]
  exact ⟨mem_iff_getElem.mpr ⟨i, by simp [hi], by simp⟩, mem_iff_getElem.mpr ⟨i, by simp [hi], by simp⟩⟩

theorem Inv.decode (h : Inv c σ) {n : Nat} (hus : ∀ u ∈ us, UbatchOk c.base u)
    (hrun : decode c us n σ = some σ') : Inv c σ' := by
  unfold Iswa.decode at hrun
  obtain ⟨⟨⟨sb, ss⟩, σ₁⟩, hprep, hrun⟩ := bind_eq_some_iff.mp hrun
  have h₁ := h.prepare hus hprep
  dsimp only at hrun
  split_ifs at hrun with hnil
  · exact some.inj hrun ▸ h₁
  obtain ⟨sb', base, hbase, ⟨-, heq, -⟩ | ⟨ss', swa, hswa, -, heq, -⟩⟩ := prepare_eq_some hprep <;>
    obtain ⟨rfl, rfl⟩ := Prod.mk.inj heq
  · exact absurd (.inl rfl) hnil
  have hslotsB := KvCache.slot_of_prepare h.base hus hbase
  have hslotsW := KvCache.slot_of_prepare h.swa (fun u hu => ubatchOk_swa (hus u hu)) hswa
  refine Loops.foldlM_inv h₁ (fun x hx σ₁ σ₂ hinv happly => ?_) hrun
  obtain ⟨hxB, hxW⟩ := mem_zip_of_mem_zip (mem_of_mem_take hx)
  obtain ⟨huB, kvB, hinvB, hslotB⟩ := hslotsB _ hxB
  obtain ⟨huW, kvW, hinvW, hslotW⟩ := hslotsW _ hxW
  obtain ⟨base, hone, happly⟩ := bind_eq_some_iff.mp happly
  obtain ⟨swa, htwo, rfl⟩ := map_eq_some_iff.mp happly
  obtain ⟨kv, hkv, rfl⟩ := mapCells_eq_some.mp hone
  obtain ⟨kv', hkv', rfl⟩ := mapCells_eq_some.mp htwo
  exact ⟨hinv.base.applyUbatch (fun τ hτ => hslotB.targetOk huB hinvB hτ)
      (KvCache.slot_head_le hinvB huB hslotB) hkv,
    hinv.swa.applyUbatch (fun τ hτ => hslotW.targetOk huW hinvW hτ)
      (KvCache.slot_head_le hinvW huW hslotW) hkv'⟩

/-! ## Restores -/

variable (c) in
/-- The values of the cells of both caches fit in their fields. -/
structure Fits (σ : IswaState) : Prop where
  base : KvCache.Fits c.base σ.base.cache
  swa : KvCache.Fits c.swa σ.swa.cache

variable (c) in
/-- A restore that asks for what was saved. -/
structure Matches (src dest : Option SeqId) : Prop where
  base : KvCache.Matches c.base src dest
  swa : KvCache.Matches c.swa src dest

theorem inv_stateRead (hσ : Inv c σ) (hfits : Fits c σ) (hτ : Inv c τ) {src dest : Option SeqId}
    (h : Matches c src dest) (partialOnly : Bool) (rest : List UInt8) :
    Readers.Settles (Inv c) rest
      (stateRead c dest partialOnly ⟨stateWrite c σ src partialOnly ++ rest, τ⟩) := by
  have hswa : ∀ τ, Inv c τ → Readers.Settles (Inv c) rest
      (readSwa c dest ⟨KvCache.stateWrite c.swa c.swaLayout σ.swa src ++ rest, τ⟩) := fun τ hτ =>
    (KvCache.inv_stateRead c.swa_fits c.swa_shared hσ.swa hfits.swa hτ.swa h.swa rest).zoom
      fun swa hinv => ⟨hτ.base, hinv⟩
  cases partialOnly with
  | true => exact hswa τ hτ
  | false =>
    have hbase : Readers.Settles (Inv c) (KvCache.stateWrite c.swa c.swaLayout σ.swa src ++ rest)
        (readBase c dest ⟨KvCache.stateWrite c.base c.baseLayout σ.base src ++
          (KvCache.stateWrite c.swa c.swaLayout σ.swa src ++ rest), τ⟩) :=
      (KvCache.inv_stateRead c.base_fits c.base_shared hσ.base hfits.base hτ.base h.base _).zoom
        fun base hinv => ⟨hinv, hτ.swa⟩
    rw [stateWrite, if_neg (by simp), append_assoc]
    exact hbase.bind fun _ τ hτ => hswa τ hτ

variable (c) in
/-- Only the stream of `d` may differ from `σ₀`, in either cache. -/
structure Within (d : SeqId) (σ₀ σ : IswaState) : Prop where
  base : KvCache.StateWithin c.base d σ₀.base σ.base
  swa : KvCache.StateWithin c.swa d σ₀.swa σ.swa

theorem Inv.within (h : Inv c σ) (hn : 1 < c.base.nStream) (d : SeqId) : Within c d σ σ where
  base := ⟨⟨h.base.alone hn, fun _ _ => rfl⟩, fun _ _ => rfl⟩
  swa := ⟨⟨h.swa.alone (c.nStream_eq.symm ▸ hn), fun _ _ => rfl⟩, fun _ _ => rfl⟩

/-- A restore of one sequence stays within its stream, whatever it reads and however it
ends. -/
theorem keeps_stateRead (d : SeqId) (σ₀ : IswaState) (partialOnly : Bool) :
    Keeps (Within c d σ₀) (stateRead c (some d) partialOnly) := by
  have hswa : Keeps (Within c d σ₀) (readSwa c (some d)) :=
    KvCache.keeps_stateRead.zoom (fun _ h => h.swa) fun _ _ h hswa => ⟨h.base, hswa⟩
  have hbase : Keeps (Within c d σ₀) (readBase c (some d)) :=
    KvCache.keeps_stateRead.zoom (fun _ h => h.base) fun _ _ h hbase => ⟨hbase, h.swa⟩
  exact .ite hswa (hbase.seq fun _ => hswa)

end LlamaCpp.Iswa
