import LlamaCpp.Batch.SplitOrder

/-!
# The sequence sets of an accepted batch

`init` folds the intersection of the sets that a sequence occurs in and refuses the batch when one is empty.  It never
is: a set that the sequence occurs in has at least the sequence itself (`checkSets_ne_incompatibleSets`).  So a batch is
accepted when the other checks pass (`init_isOk_iff`), whether or not its sets are nested, and the sets of the source's
own example are accepted (`init_accepts_partial`).
-/

namespace LlamaCpp

open List

namespace FilledBatch

/-- Of two sets that have a sequence in common, one contains the other. -/
def Laminar (batch : FilledBatch) : Prop :=
  ∀ i j, i < j → j < batch.nTokens → batch.Shares i j → batch.seqSet i ⊆ batch.seqSet j ∨ batch.seqSet j ⊆ batch.seqSet i

/-- The positions of a sequence fall, or one is below the least that a check takes. -/
def PosFalls (batch : FilledBatch) : Prop :=
  ∃ i < batch.nTokens, ∃ s ∈ batch.seqIds i, batch.pos i < -1 ∨ ∃ j < i, s ∈ batch.seqIds j ∧ batch.pos i < batch.pos j

end FilledBatch

namespace LlamaBatchAllocr

/-! ## The last check -/

section Sets

variable {batch : FilledBatch} {pairs : List (Nat × SeqId)} {curSeqSet : SeqId → Finset SeqId} {curSeqPos : SeqId → Int}

/-- The sequence stays in the intersection of the sets it occurs in. -/
theorem mem_update_inter {i : Nat} {s : SeqId} (hi : s ∈ batch.seqSet i) (hcur : ∀ t, t ∈ curSeqSet t) (t : SeqId) :
    t ∈ Function.update curSeqSet s (curSeqSet s ∩ batch.seqSet i) t := by
  by_cases ht : t = s
  · subst ht
    rw [Function.update_self]
    exact Finset.mem_inter.mpr ⟨hcur t, hi⟩
  · rw [Function.update_of_ne ht]
    exact hcur t

/-- The check passes when the positions do not fall. -/
theorem checkSets_eq_none_of_pos (hmem : ∀ x ∈ pairs, x.2 ∈ batch.seqSet x.1) (hcur : ∀ t, t ∈ curSeqSet t)
    (hlow : ∀ x ∈ pairs, curSeqPos x.2 ≤ batch.pos x.1)
    (hpair : pairs.Pairwise fun x y => x.2 = y.2 → batch.pos x.1 ≤ batch.pos y.1) :
    batch.checkSets pairs curSeqSet curSeqPos = none := by
  induction pairs generalizing curSeqSet curSeqPos with
  | nil => rfl
  | cons x rest ih =>
    obtain ⟨i, t⟩ := x
    have hi := hmem _ mem_cons_self
    obtain ⟨hhead, hrest⟩ := pairwise_cons.mp hpair
    rw [FilledBatch.checkSets, if_neg (Finset.ne_empty_of_mem (Finset.mem_inter.mpr ⟨hcur t, hi⟩)),
      if_neg (not_lt.mpr (hlow _ mem_cons_self))]
    refine ih (fun x hx => hmem x (mem_cons_of_mem _ hx)) (mem_update_inter hi hcur) (fun y hy => ?_) hrest
    by_cases ht : y.2 = t
    · rw [ht, Function.update_self]
      exact hhead y hy ht.symm
    · rw [Function.update_of_ne ht]
      exact hlow y (mem_cons_of_mem _ hy)

theorem mem_tokenSeqs (batch : FilledBatch) (x : Nat × SeqId) :
    x ∈ batch.tokenSeqs ↔ x.1 < batch.nTokens ∧ x.2 ∈ batch.seqIds x.1 := by
  unfold FilledBatch.tokenSeqs
  rw [mem_flatMap]
  constructor
  · rintro ⟨i, hi, hx⟩
    obtain ⟨s, hs, rfl⟩ := List.mem_map.mp hx
    exact ⟨mem_range.mp hi, hs⟩
  · rintro ⟨hi, hs⟩
    exact ⟨x.1, mem_range.mpr hi, List.mem_map.mpr ⟨x.2, hs, rfl⟩⟩

/-- The last check is about the positions only. -/
theorem checkSets_eq_none_iff (batch : FilledBatch) :
    batch.checkSets batch.tokenSeqs (fun _ => Finset.univ) (fun _ => -1) = none ↔ ¬batch.PosFalls := by
  have hmem : ∀ x ∈ batch.tokenSeqs, x.2 ∈ batch.seqSet x.1 := fun x hx =>
    (batch.mem_seqSet x.1 x.2).mpr ((mem_tokenSeqs batch x).mp hx).2
  constructor
  · rintro hnone ⟨i, hi, s, hs, hfall⟩
    obtain ⟨hlow, hpair⟩ := checkSets_eq_none hnone
    rcases hfall with hneg | ⟨j, hj, hsj, hfall⟩
    · exact absurd (hlow (i, s) ((mem_tokenSeqs batch (i, s)).mpr ⟨hi, hs⟩)) (not_le.mpr hneg)
    · rw [FilledBatch.tokenSeqs, pairwise_flatMap, pairwise_iff_getElem] at hpair
      have hlen : (List.range batch.nTokens).length = batch.nTokens := length_range
      have hcross := hpair.2 j i (by omega) (by omega) hj (j, s) (by simpa using hsj) (i, s) (by simpa using hs)
      exact absurd (hcross rfl) (not_le.mpr hfall)
  · intro hrise
    refine checkSets_eq_none_of_pos hmem (fun t => Finset.mem_univ t) (fun x hx => ?_) ?_
    · obtain ⟨hi, hs⟩ := (mem_tokenSeqs batch x).mp hx
      by_contra hlow
      exact hrise ⟨x.1, hi, x.2, hs, .inl (not_le.mp hlow)⟩
    · rw [FilledBatch.tokenSeqs, pairwise_flatMap]
      refine ⟨fun i _ => ?_, pairwise_lt_range.imp_of_mem fun {j i} hj hi hji x hx y hy hxy => ?_⟩
      · rw [pairwise_map]
        exact pairwise_of_forall fun _ _ _ => le_rfl
      · obtain ⟨s, hs, rfl⟩ := List.mem_map.mp hx
        obtain ⟨t, ht, rfl⟩ := List.mem_map.mp hy
        obtain rfl : s = t := hxy
        by_contra hfall
        exact hrise ⟨i, mem_range.mp hi, s, ht, .inr ⟨j, hji, hs, not_le.mp hfall⟩⟩

end Sets

/-! ## What `init` accepts -/

section Accepted

variable (nPosPerEmbd : Nat) (inp : LlamaBatch) (nVocab : Nat) (memory : Option LlamaMemory) (nEmbd nSeqMax : Nat)
  (outputAll : Bool)

/-- A check other than the one on the sequence sets refuses the batch. -/
def Refused : Prop :=
  inp.nTokens = 0 ∨ llamaMaxSeq < nSeqMax ∨ inp.checkTokens nVocab ≠ none ∨ inp.checkSeqIds nSeqMax ≠ none ∨
    (inp.fill memory outputAll).checkPositions nPosPerEmbd memory nSeqMax ≠ none ∨
      (inp.fill memory outputAll).checkCoupled memory nSeqMax ≠ none ∨ (inp.fill memory outputAll).PosFalls

variable {nPosPerEmbd inp nVocab memory nEmbd nSeqMax outputAll}

theorem init_isOk_iff :
    (∃ a, init nPosPerEmbd inp nVocab memory nEmbd nSeqMax outputAll = .ok a) ↔
      ¬Refused nPosPerEmbd inp nVocab memory nSeqMax outputAll := by
  unfold Refused init
  constructor
  · rintro ⟨a, h⟩
    split at h
    · cases h
    next hn =>
      split at h
      · cases h
      next hmax =>
        split at h
        · cases h
        next hinp =>
          dsimp only at h
          split at h
          · cases h
          next hbatch =>
            simp only [checkBatch, Option.or_eq_none_iff] at hinp hbatch
            rintro (h | h | h | h | h | h | h)
            · exact hn h
            · exact hmax h
            · exact h hinp.1
            · exact h hinp.2
            · exact h hbatch.1
            · exact h hbatch.2.1
            · exact (checkSets_eq_none_iff _).mp hbatch.2.2 h
  · intro h
    simp only [not_or, not_not] at h
    obtain ⟨hn, hmax, htokens, hids, hpos, hcpl, hrise⟩ := h
    rw [if_neg hn, if_neg hmax, htokens, hids]
    dsimp only [Option.or]
    rw [checkBatch, hpos, hcpl, (checkSets_eq_none_iff _).mpr hrise]
    exact ⟨_, rfl⟩

theorem init_batch {a : LlamaBatchAllocr} (h : init nPosPerEmbd inp nVocab memory nEmbd nSeqMax outputAll = .ok a) :
    a.batch = inp.fill memory outputAll := by
  unfold init at h
  split at h
  · cases h
  split at h
  · cases h
  split at h
  · cases h
  dsimp only at h
  split at h
  · cases h
  · cases h
    rfl

/-- Acceptance means nested sequence sets exactly where another check refuses the batch, or its sets are nested. -/
theorem init_laminar_iff (nPosPerEmbd : Nat) (inp : LlamaBatch) (nVocab : Nat) (memory : Option LlamaMemory)
    (nEmbd nSeqMax : Nat) (outputAll : Bool) :
    (∀ a, init nPosPerEmbd inp nVocab memory nEmbd nSeqMax outputAll = .ok a → a.batch.Laminar) ↔
      Refused nPosPerEmbd inp nVocab memory nSeqMax outputAll ∨ (inp.fill memory outputAll).Laminar := by
  constructor
  · intro h
    by_contra hnot
    obtain ⟨hok, hsets⟩ := not_or.mp hnot
    obtain ⟨a, ha⟩ := init_isOk_iff.mpr hok
    exact hsets (init_batch ha ▸ h a ha)
  · rintro (href | hsets) a ha
    · exact absurd href (init_isOk_iff.mp ⟨a, ha⟩)
    · exact init_batch ha ▸ hsets

end Accepted

/-- The sets `{0, 1, 2}`, `{0, 1}` and `{1, 2}`. -/
def partialSets : LlamaBatch where
  nTokens := 3
  token := some fun _ => 0
  embd := none
  pos := some fun i => if i = 0 then 0 else 1
  nSeqId := some fun i => if i = 0 then 3 else 2
  seqId := some fun i s => if i = 2 then s + 1 else s
  logits := none

/-- The example of the source, which it says is not allowed. -/
theorem init_accepts_partial :
    ¬∀ (nPosPerEmbd : Nat) (inp : LlamaBatch) (nVocab : Nat) (memory : Option LlamaMemory) (nEmbd nSeqMax : Nat)
      (outputAll : Bool) (a : LlamaBatchAllocr),
      init nPosPerEmbd inp nVocab memory nEmbd nSeqMax outputAll = .ok a → a.batch.Laminar := by
  intro h
  have hinit : init 1 partialSets 1 none 1 3 false = .ok _ :=
    init_of_checks (by decide) (by decide) (by decide +kernel) (by decide +kernel)
  have hlam := h 1 partialSets 1 none 1 3 false _ hinit 1 2 (by decide) (by decide)
    (by simp only [FilledBatch.Shares]; decide +kernel)
  exact absurd hlam (by decide +kernel)

end LlamaBatchAllocr

end LlamaCpp
