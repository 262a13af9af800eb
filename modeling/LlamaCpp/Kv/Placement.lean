import Mathlib.Data.List.GetD
import LlamaCpp.Kv.Apply

/-!
# Placing a ubatch

`UbatchOk` is what the allocator promises about a ubatch and `Slot` what `find_slot`
promises about the slot it returns (`slot_of_findSlot`).  With both, `apply_ubatch`
returns, keeps the invariant, and does to every cell what `Placed` says
(`applyUbatch_spec`): the cells of the slot receive the tokens, and then every cell is
purged.
-/

namespace LlamaCpp.KvCache

open List

open KvCells (Rep)

variable {c : KvConfig} {kv : KvCache} {ubatch : LlamaUbatch} {sinfo : SlotInfo}

/-! ## Ubatches -/

/-- A ubatch as the allocator builds it: the ids of a token are distinct and have a
stream; with several streams the tokens come in groups, one group per sequence. -/
structure UbatchOk (c : KvConfig) (ubatch : LlamaUbatch) : Prop where
  tokens : 0 < ubatch.nTokens
  pos_nonneg : ∀ i < ubatch.nTokens, 0 ≤ ubatch.pos i
  nodup : ∀ i < ubatch.nTokens, (ubatch.seqId i).Nodup
  unq_length : ubatch.seqIdUnq.length = ubatch.nSeqsUnq
  unq_nodup : ubatch.seqIdUnq.Nodup
  unq_stream : ∀ g < nSeqs c ubatch, (ubatch.seqIdUnq.getD g 0).val < c.seqToStreamSize
  dvd : nSeqs c ubatch ∣ ubatch.nTokens
  groups : 1 < c.nStream → ∀ g < nSeqs c ubatch, ∀ ii < tokensPerStream c ubatch,
    ubatch.seqId (g * tokensPerStream c ubatch + ii) = [ubatch.seqIdUnq.getD g 0]

namespace UbatchOk

variable (h : UbatchOk c ubatch)

include h

theorem nSeqs_pos : 0 < nSeqs c ubatch :=
  Nat.pos_of_dvd_of_pos h.dvd h.tokens

theorem mul_tokensPerStream : nSeqs c ubatch * tokensPerStream c ubatch = ubatch.nTokens :=
  Nat.mul_div_cancel' h.dvd

theorem tokensPerStream_pos : 0 < tokensPerStream c ubatch := by
  have hmul := h.mul_tokensPerStream
  have := h.tokens
  rcases Nat.eq_zero_or_pos (tokensPerStream c ubatch) with h0 | h0
  · rw [h0] at hmul
    omega
  · exact h0

theorem index_lt {g ii : Nat} (hg : g < nSeqs c ubatch) (hii : ii < tokensPerStream c ubatch) :
    g * tokensPerStream c ubatch + ii < ubatch.nTokens := by
  have hmul := h.mul_tokensPerStream
  have hle : (g + 1) * tokensPerStream c ubatch ≤ nSeqs c ubatch * tokensPerStream c ubatch :=
    Nat.mul_le_mul_right _ hg
  rw [Nat.add_one_mul] at hle
  omega

/-- The sequences of a token belong to the stream of its group. -/
theorem owner {g ii : Nat} (hg : g < nSeqs c ubatch) (hii : ii < tokensPerStream c ubatch)
    {s : SeqId} (hs : s ∈ ubatch.seqId (g * tokensPerStream c ubatch + ii)) :
    c.seqToStream s = groupStrm c ubatch g := by
  by_cases hn : 1 < c.nStream
  · rw [h.groups hn g hg ii hii, mem_singleton] at hs
    rw [hs, groupStrm]
  · simp [groupStrm, KvConfig.seqToStream, hn]

/-- Different groups go to different streams. -/
theorem groupStrm_injOn {g g' : Nat} (hg : g < nSeqs c ubatch) (hg' : g' < nSeqs c ubatch)
    (heq : groupStrm c ubatch g = groupStrm c ubatch g') : g = g' := by
  by_cases hn : 1 < c.nStream
  · have hlen : nSeqs c ubatch = ubatch.seqIdUnq.length := by
      rw [nSeqs, if_pos hn, h.unq_length]
    rw [hlen] at hg hg'
    simp only [groupStrm, KvConfig.seqToStream, if_pos hn, getD_eq_getElem _ _ hg, getD_eq_getElem _ _ hg'] at heq
    exact (h.unq_nodup.getElem_inj_iff).mp (Fin.ext heq)
  · rw [nSeqs, if_neg hn] at hg hg'
    omega

end UbatchOk

/-- The text ubatch that `split_simple` makes of tokens with one sequence each. -/
def textUbatch (tokens : List (SeqId × Int)) : LlamaUbatch :=
  let unq := (List.finRange llamaMaxSeq).filter fun s => tokens.any fun x => x.1 == s
  { LlamaUbatch.empty with
    nTokens := tokens.length, nSeqTokens := 1, nSeqs := tokens.length, nSeqsUnq := unq.length
    nPos := 1, token := some fun _ => 0, pos := fun i => (tokens.getD i (0, 0)).2
    seqId := fun i => [(tokens.getD i (0, 0)).1], seqIdUnq := unq
    seqIdx := fun s => if unq.contains s then unq.idxOf s else -1 }

theorem textUbatch_ok (hn : c.nStream ≤ 1) {tokens : List (SeqId × Int)} (hne : tokens ≠ [])
    (hpos : ∀ x ∈ tokens, 0 ≤ x.2) : UbatchOk c (textUbatch tokens) where
  tokens := length_pos_iff.mpr hne
  pos_nonneg := by
    intro i hi
    have hi : i < tokens.length := hi
    simpa [textUbatch, hi] using hpos _ (getElem_mem hi)
  nodup := fun _ _ => nodup_singleton _
  unq_length := rfl
  unq_nodup := (nodup_finRange _).filter _
  unq_stream := by
    intro g _
    rw [KvConfig.seqToStreamSize, if_neg (by omega)]
    exact Fin.isLt _
  dvd := by
    rw [nSeqs, if_neg (by omega)]
    exact one_dvd _
  groups := fun h => absurd h (by omega)

/-! ## Slots -/

/-- A slot for a ubatch: every group is offered cells of its stream. -/
structure Slot (c : KvConfig) (kv : KvCache) (ubatch : LlamaUbatch) (sinfo : SlotInfo) : Prop where
  strm : sinfo.strm = (List.range (nSeqs c ubatch)).map (groupStrm c ubatch)
  length : sinfo.idxs.length = nSeqs c ubatch
  offers : ∀ g < nSeqs c ubatch,
    Offers c (kv.vCells (groupStrm c ubatch g)) (groupPos c ubatch g) (sinfo.idxs.getD g [])

theorem groupPos_length (c : KvConfig) (ubatch : LlamaUbatch) (g : Nat) :
    (groupPos c ubatch g).length = tokensPerStream c ubatch := by
  simp [groupPos]

/-- A search that finds something finds a slot, as long as no head is past its end. -/
theorem slot_of_heads (hhead : ∀ t, kv.vHeads t ≤ (kv.vCells t).size) (hu : UbatchOk c ubatch)
    (hrun : kv.findSlot c ubatch false = some sinfo) (hne : sinfo.isEmpty = false) :
    Slot c kv ubatch sinfo := by
  obtain ⟨hall, hstrm⟩ := findSlot_spec hrun hne
  have hlen := hall.length_eq
  rw [length_range] at hlen
  refine ⟨hstrm, hlen.symm, fun g hg => ?_⟩
  have hg' : g < sinfo.idxs.length := hlen ▸ hg
  have hslot := (forall₂_iff_get.mp hall).2 g (by simpa using hg) hg'
  rw [getD_eq_getElem _ _ hg']
  refine streamSlot_offers (hhead _) (fun hnil => ?_) (by simpa using hslot)
  have := groupPos_length c ubatch g
  rw [hnil, length_nil] at this
  have := hu.tokensPerStream_pos
  omega

theorem slot_of_findSlot (hinv : kv.Inv c) (hu : UbatchOk c ubatch)
    (hrun : kv.findSlot c ubatch false = some sinfo) (hne : sinfo.isEmpty = false) :
    Slot c kv ubatch sinfo :=
  slot_of_heads (fun t => (hinv.size t).symm ▸ hinv.head_le t) hu hrun hne

namespace Slot

variable (h : Slot c kv ubatch sinfo) (hu : UbatchOk c ubatch) {τ : Target}

include h

theorem idxs_length {g : Nat} (hg : g < nSeqs c ubatch) :
    (sinfo.idxs.getD g []).length = tokensPerStream c ubatch := by
  rw [(h.offers g hg).length, groupPos_length]

theorem slots_eq : sinfo.slots =
    (List.range (nSeqs c ubatch)).map fun g => (groupStrm c ubatch g, sinfo.idxs.getD g []) := by
  unfold SlotInfo.slots
  rw [h.strm]
  refine ext_getElem (by simp [h.length]) fun g hg hg' => ?_
  have hg' : g < sinfo.idxs.length := by
    rw [h.length]
    simpa using hg'
  simp [hg']

/-- The cells of a group are those it was offered. -/
theorem getD_mem {g ii : Nat} (hg : g < nSeqs c ubatch) (hii : ii < tokensPerStream c ubatch) :
    (sinfo.idxs.getD g []).getD ii 0 ∈ sinfo.idxs.getD g [] := by
  have hii : ii < (sinfo.idxs.getD g []).length := (h.idxs_length hg).symm ▸ hii
  rw [getD_eq_getElem _ _ hii]
  exact getElem_mem hii

include hu

theorem size_eq : sinfo.size = tokensPerStream c ubatch := by
  have hpos := hu.nSeqs_pos
  have hlen := h.idxs_length hpos
  unfold SlotInfo.size
  rw [← hlen]
  cases hidxs : sinfo.idxs with
  | nil => simp
  | cons idxs rest => simp

theorem targets_eq : sinfo.targets =
    (List.range (nSeqs c ubatch)).flatMap fun g =>
      (List.range (tokensPerStream c ubatch)).map fun ii =>
        ⟨groupStrm c ubatch g, g * tokensPerStream c ubatch + ii, (sinfo.idxs.getD g []).getD ii 0⟩ := by
  have hzip : sinfo.slots.zipIdx = (List.range (nSeqs c ubatch)).map fun g =>
      ((groupStrm c ubatch g, sinfo.idxs.getD g []), g) := by
    rw [h.slots_eq]
    refine ext_getElem (by simp) fun g hg hg' => by simp
  unfold SlotInfo.targets
  rw [hzip, h.size_eq hu, flatMap_map]

theorem mem_targets : τ ∈ sinfo.targets ↔
    ∃ g < nSeqs c ubatch, ∃ ii < tokensPerStream c ubatch,
      τ = ⟨groupStrm c ubatch g, g * tokensPerStream c ubatch + ii, (sinfo.idxs.getD g []).getD ii 0⟩ := by
  rw [h.targets_eq hu]
  simp only [mem_flatMap, List.mem_map, mem_range]
  constructor
  · rintro ⟨g, hg, ii, hii, rfl⟩
    exact ⟨g, hg, ii, hii, rfl⟩
  · rintro ⟨g, hg, ii, hii, rfl⟩
    exact ⟨g, hg, ii, hii, rfl⟩

theorem canUse_of_mem (hτ : τ ∈ sinfo.targets) :
    τ.idx < (kv.vCells τ.strm).size ∧ canUse c (kv.vCells τ.strm) τ.idx = true := by
  obtain ⟨g, hg, ii, hii, rfl⟩ := (h.mem_targets hu).mp hτ
  exact (h.offers g hg).usable _ (h.getD_mem hg hii)

theorem targetOk (hinv : kv.Inv c) (hτ : τ ∈ sinfo.targets) : TargetOk c ubatch τ := by
  have hlt := (h.canUse_of_mem hu hτ).1
  obtain ⟨g, hg, ii, hii, rfl⟩ := (h.mem_targets hu).mp hτ
  have hi := hu.index_lt hg hii
  exact ⟨hinv.size _ ▸ hlt, hu.pos_nonneg _ hi, hu.nodup _ hi, fun s hs => hu.owner hg hii hs⟩

/-- No two tokens share a cell. -/
theorem keys_nodup : (sinfo.targets.map Target.key).Nodup := by
  rw [h.targets_eq hu, map_flatMap, nodup_flatMap]
  constructor
  · intro g hg
    have hg := mem_range.mp hg
    have hnd := (h.offers g hg).nodup
    rw [← Loops.map_getD_range (sinfo.idxs.getD g []) 0, h.idxs_length hg] at hnd
    rw [List.map_map]
    refine (nodup_map_iff_inj_on nodup_range).mpr fun a ha b hb hab => ?_
    exact (nodup_map_iff_inj_on nodup_range).mp hnd a ha b hb
      (congrArg (Prod.snd : Nat × Nat → Nat) hab)
  · refine List.Pairwise.imp_of_mem ?_ nodup_range
    intro g g' hg hg' hne
    rw [Function.onFun, disjoint_left]
    intro k hk hk'
    obtain ⟨τ, hτ, rfl⟩ := List.mem_map.mp hk
    obtain ⟨τ', hτ', hkey⟩ := List.mem_map.mp hk'
    obtain ⟨ii, -, rfl⟩ := List.mem_map.mp hτ
    obtain ⟨ii', -, rfl⟩ := List.mem_map.mp hτ'
    exact hne (hu.groupStrm_injOn (mem_range.mp hg) (mem_range.mp hg')
      (congrArg (Prod.fst : Nat × Nat → Nat) hkey).symm)

theorem atMostOne (hτ : τ ∈ sinfo.targets) : (kv.cell τ.strm τ.idx).AtMostOne := by
  by_cases he : (kv.vCells τ.strm).isEmpty τ.idx = true
  · exact .inl (of_decide_eq_true he)
  · obtain ⟨s, hs, -⟩ := singleton_of_canUse (h.canUse_of_mem hu hτ).2 (Bool.eq_false_iff.mpr he)
    exact .inr ⟨s, hs⟩

theorem exists_target {i : Nat} (hi : i < ubatch.nTokens) : ∃ τ ∈ sinfo.targets, τ.i = i := by
  have hpos := hu.tokensPerStream_pos
  have hmul := hu.mul_tokensPerStream
  have hg : i / tokensPerStream c ubatch < nSeqs c ubatch := by
    rw [Nat.div_lt_iff_lt_mul hpos, hmul]
    exact hi
  exact ⟨_, (h.mem_targets hu).mpr ⟨_, hg, _, Nat.mod_lt i hpos, rfl⟩, Nat.div_add_mod' i _⟩

/-- What is overwritten is masked for the next token of its sequence, in the stream of
that sequence. -/
theorem overwrites_masked (hinv : kv.Inv c) {s : SeqId} {p : Int}
    (ho : Overwrites kv sinfo.targets s p) :
    (∃ τ ∈ sinfo.targets, τ.strm = c.seqToStream s ∧ (kv.cell τ.strm τ.idx).pos = p ∧
        (kv.cell τ.strm τ.idx).seq = {s}) ∧
      c.msaStrictSlots = false ∧ c.isMasked p (kv.seqPosMax c s + 1) = true := by
  obtain ⟨τ, hτ, hp, hne, hseq⟩ := ho
  have huse := h.canUse_of_mem hu hτ
  have he : (kv.vCells τ.strm).isEmpty τ.idx = false :=
    decide_eq_false fun h => hne (hp.symm.trans h)
  have hmem : s ∈ (kv.vCells τ.strm).seq τ.idx := by
    rw [← KvCells.cell_seq]
    exact hseq ▸ Finset.mem_singleton_self s
  have hstrm := hinv.owner τ.strm τ.idx (hinv.size τ.strm ▸ huse.1) s hmem
  refine ⟨⟨τ, hτ, hstrm.symm, hp, hseq⟩, ?_, ?_⟩
  · by_contra hmsa
    obtain ⟨g, hg, ii, hii, rfl⟩ := (h.mem_targets hu).mp hτ
    have := ((h.offers g hg).msa (by simpa using hmsa)).2 _ (h.getD_mem hg hii)
    rw [he] at this
    exact absurd this (by simp)
  · obtain ⟨s', hs', hmask⟩ := singleton_of_canUse huse.2 he
    obtain rfl : s' = s := Finset.singleton_injective (hs'.symm.trans hseq)
    rw [← hp]
    unfold KvCache.seqPosMax
    rw [hstrm]
    exact hmask

end Slot

/-! ## The whole placement -/

theorem advanceHeads_vCells (sinfo : SlotInfo) (kv : KvCache) : (advanceHeads sinfo kv).vCells = kv.vCells := by
  unfold advanceHeads
  induction sinfo.slots generalizing kv with
  | nil => rfl
  | cons slot slots ih => exact ih _

/-- A stream outside the slot keeps its head. -/
theorem advanceHeads_vHeads_of_notMem {sinfo : SlotInfo} {kv : KvCache} {t : Nat}
    (ht : t ∉ sinfo.strm) : (advanceHeads sinfo kv).vHeads t = kv.vHeads t := by
  have hslots : t ∉ sinfo.slots.map Prod.fst := by
    intro hmem
    obtain ⟨⟨u, idxs⟩, hzip, rfl⟩ := List.mem_map.mp hmem
    exact ht (of_mem_zip hzip).1
  unfold advanceHeads
  generalize sinfo.slots = slots at hslots
  induction slots generalizing kv with
  | nil => rfl
  | cons slot slots ih =>
    rw [map_cons, mem_cons, not_or] at hslots
    rw [foldl_cons, ih hslots.2, setHead_vHeads, Function.update_of_ne hslots.1]

theorem Inv.advanceHeads (h : kv.Inv c)
    (hslots : ∀ slot ∈ sinfo.slots, slot.2.getLastD 0 + 1 ≤ c.kvSize) :
    (advanceHeads sinfo kv).Inv c := by
  unfold KvCache.advanceHeads
  generalize sinfo.slots = slots at hslots
  induction slots generalizing kv with
  | nil => exact h
  | cons slot slots ih =>
    exact ih (h.setHead (hslots slot mem_cons_self)) fun slot' hslot' =>
      hslots slot' (mem_cons_of_mem _ hslot')

/-- What `apply_ubatch` leaves: every cell is purged up to the overwritten positions
`m`, the cells of the slot after they received their tokens. -/
structure Placed (c : KvConfig) (kv : KvCache) (ubatch : LlamaUbatch) (sinfo : SlotInfo)
    (m : SeqId → Int) (kv' : KvCache) : Prop where
  inv : kv'.Inv c
  maxRm : MaxRm kv sinfo.targets m
  target : ∀ τ ∈ sinfo.targets, kv'.cell τ.strm τ.idx =
    (placedCell c ubatch τ.i (kv.cell τ.strm τ.idx)).purge m
  other : ∀ t, ∀ i < c.kvSize, (t, i) ∉ sinfo.targets.map Target.key →
    kv'.cell t i = (kv.cell t i).purge m
  head : ∀ t ∉ sinfo.strm, kv'.vHeads t = kv.vHeads t

section Apply

variable (hinv : kv.Inv c) (hu : UbatchOk c ubatch) (hslot : Slot c kv ubatch sinfo)

include hinv hu hslot

/-- Only sequences of the slot's streams are purged, and none under MSA. -/
theorem purgeOk_of_maxRm {m : SeqId → Int} (hm : MaxRm kv sinfo.targets m) :
    PurgeOk c m ∧ ∀ s, m s ≠ -1 → c.seqToStream s ∈ sinfo.strm := by
  have hstrm : ∀ s, m s ≠ -1 → ∃ g < nSeqs c ubatch, c.seqToStream s = groupStrm c ubatch g := by
    intro s hs
    obtain ⟨⟨τ, hτ, ht, -⟩, -⟩ := hslot.overwrites_masked hu hinv (hm.attained s hs)
    obtain ⟨g, hg, ii, -, rfl⟩ := (hslot.mem_targets hu).mp hτ
    exact ⟨g, hg, ht.symm⟩
  constructor
  · intro s hs
    refine ⟨?_, (hslot.overwrites_masked hu hinv (hm.attained s hs)).2.1⟩
    obtain ⟨g, hg, hgs⟩ := hstrm s hs
    have hlt := hu.unq_stream g hg
    by_cases hn : 1 < c.nStream
    · simp only [groupStrm, KvConfig.seqToStream, if_pos hn] at hgs
      rw [hgs]
      exact hlt
    · simp [KvConfig.seqToStreamSize, hn]
  · intro s hs
    obtain ⟨g, hg, hgs⟩ := hstrm s hs
    rw [hslot.strm, hgs]
    exact List.mem_map_of_mem (mem_range.mpr hg)

omit hinv in
theorem msa_check {τ : Target} (hτ : τ ∈ sinfo.targets) (hmsa : c.msaStrictSlots = true) :
    (τ.idx : Int) = ubatch.pos τ.i := by
  obtain ⟨g, hg, ii, hii, rfl⟩ := (hslot.mem_targets hu).mp hτ
  have hmap := ((hslot.offers g hg).msa hmsa).1
  have hlen := hslot.idxs_length hg
  have hget := congrArg (fun l : List Int => l[ii]?) hmap
  simp only [groupPos, getElem?_map] at hget
  rw [getElem?_eq_getElem (by omega), getElem?_eq_getElem (by simpa using hii)] at hget
  rw [getD_eq_getElem _ _ (by omega)]
  simpa using hget

/-- A head behind the last cell of a group is not past the end. -/
theorem slot_head_le : ∀ slot ∈ sinfo.slots, slot.2.getLastD 0 + 1 ≤ c.kvSize := by
  intro slot hmem
  rw [hslot.slots_eq] at hmem
  obtain ⟨g, hg, rfl⟩ := List.mem_map.mp hmem
  have hg := mem_range.mp hg
  have hne : sinfo.idxs.getD g [] ≠ [] := by
    intro hnil
    have hlen := hslot.idxs_length hg
    rw [hnil, length_nil] at hlen
    have := hu.tokensPerStream_pos
    omega
  have hlast : (sinfo.idxs.getD g []).getLastD 0 ∈ sinfo.idxs.getD g [] := by
    rw [getLastD_eq_getLast?, getLast?_eq_some_getLast hne]
    exact getLast_mem hne
  have := ((hslot.offers g hg).usable _ hlast).1
  rw [hinv.size] at this
  exact this

/-- A placement in a slot returns, and does what `Placed` says. -/
theorem applyUbatch_spec (hsh : c.shared = false) :
    ∃ kv' m, kv.applyUbatch c sinfo ubatch = some kv' ∧ Placed c kv ubatch sinfo m kv' := by
  have hnd := hslot.keys_nodup hu
  generalize hσ : sinfo.targets.foldl (placeToken c ubatch) ⟨kv, fun _ => -1⟩ = σ
  have hmax : MaxRm kv sinfo.targets σ.maxRm :=
    hσ ▸ maxRm_placeTokens hnd fun τ hτ => hslot.atMostOne hu hτ
  have hinv₁ : σ.kv.Inv c := by
    rw [← hσ]
    exact Inv.placeTokens hinv fun τ hτ => hslot.targetOk hu hinv hτ
  obtain ⟨hpurge, hstrm⟩ := purgeOk_of_maxRm hinv hu hslot hmax
  obtain ⟨kv₂, hrun⟩ := purge_isSome hpurge (List.finRange llamaMaxSeq) σ.kv
  obtain ⟨hinv₂, hcell₂, hhead₂⟩ := purge_spec hmax.ge hsh hinv₁ hrun
  have hcell : ∀ t, ∀ i < c.kvSize, (advanceHeads sinfo kv₂).cell t i = (σ.kv.cell t i).purge σ.maxRm := by
    intro t i hi
    have h := hcell₂ t i hi
    rw [KvCell.foldl_purgeOne, KvCell.purgeIn_finRange] at h
    rw [← h, cell, advanceHeads_vCells]
    rfl
  refine ⟨advanceHeads sinfo kv₂, σ.maxRm, ?_, ?_⟩
  · unfold KvCache.applyUbatch
    rw [if_neg (by simp [hsh]), if_neg, hσ]
    · dsimp only
      rw [hrun]
      rfl
    · rintro ⟨hmsa, τ, hτ, hne⟩
      exact hne (msa_check hu hslot hτ hmsa)
  · refine ⟨hinv₂.advanceHeads (slot_head_le hinv hu hslot), hmax, fun τ hτ => ?_,
      fun t i hi hti => ?_, fun t ht => ?_⟩
    · rw [hcell _ _ (hslot.targetOk hu hinv hτ).idx_lt, ← hσ, placeTokens_cell_of_mem hnd hτ]
    · rw [hcell t i hi, ← hσ, placeTokens_cell_of_notMem hti]
    · rw [advanceHeads_vHeads_of_notMem ht, hhead₂ t fun s hs heq => ht (heq ▸ hstrm s hs), ← hσ, placeTokens_vHeads]

end Apply

end LlamaCpp.KvCache
