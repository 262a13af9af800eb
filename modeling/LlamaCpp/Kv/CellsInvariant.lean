import Mathlib.Algebra.BigOperators.Group.Finset.Piecewise
import Mathlib.Algebra.Order.BigOperators.Group.Finset
import LlamaCpp.Kv.Cells

/-!
# The invariant of the cell table

`KvCells.Rep` says that the three hand-kept indexes agree with the cells: `used`
is the set of non-empty cells, an empty cell has no sequence and no pending shift,
and `seqPos s` counts for every position the cells of `s` at that position, with
no zero entry.

Every mutator rewrites one cell.  `Rep.rewrite` is the one argument behind all of
them: it asks what the step does to `used` and that the position index is moved by
the old and the new occurrence of the rewritten cell (`occ`).  The lemmas
`rep_rm`, `rep_seqRm`, ... instantiate it, one per mutator.

A table that satisfies `Rep` is determined by its cells (`Rep.used_eq`,
`Rep.seqPos_eq`), and its indexes answer like a full scan
(`Rep.seqPosMin_eq`, `Rep.usedMin_eq` and their duals).
-/

namespace LlamaCpp.KvCells

open List

/-! ## Counting cells -/

/-- The number of cells that hold sequence `s` at position `p`. -/
def cellCount (kv : KvCells) (s : SeqId) (p : Int) : Nat :=
  ((Finset.range kv.size).filter fun i => s ∈ kv.seq i ∧ kv.pos i = p).card

/-- What cell `i` adds to the count of `s` at `p`. -/
def occ (kv : KvCells) (i : Nat) (s : SeqId) (p : Int) : Nat :=
  if s ∈ kv.seq i ∧ kv.pos i = p then 1 else 0

theorem cellCount_eq_sum (kv : KvCells) (s : SeqId) (p : Int) :
    kv.cellCount s p = ∑ i ∈ Finset.range kv.size, kv.occ i s p := by
  simp only [cellCount, occ, Finset.card_filter]

variable {i : Nat} {s : SeqId} {f g : Int → Nat}

theorem occ_le_cellCount (kv : KvCells) (hi : i < kv.size) (s : SeqId) (p : Int) :
    kv.occ i s p ≤ kv.cellCount s p := by
  rw [cellCount_eq_sum]
  exact Finset.single_le_sum (f := fun i => kv.occ i s p) (fun _ _ => Nat.zero_le _)
    (Finset.mem_range.mpr hi)

theorem cellCount_ne_zero (kv : KvCells) (s : SeqId) (p : Int) :
    kv.cellCount s p ≠ 0 ↔ ∃ i < kv.size, s ∈ kv.seq i ∧ kv.pos i = p := by
  simp only [cellCount, Finset.card_ne_zero, Finset.Nonempty, Finset.mem_filter, Finset.mem_range]

/-- Rewriting cell `i` moves the counts by its old and its new occurrence. -/
theorem cellCount_rewrite {kv kv' : KvCells} (hsize : kv'.size = kv.size) (hi : i < kv.size)
    (hseq : ∀ j ≠ i, kv'.seq j = kv.seq j) (hpos : ∀ j ≠ i, kv'.pos j = kv.pos j) (s : SeqId) (p : Int) :
    kv'.cellCount s p + kv.occ i s p = kv.cellCount s p + kv'.occ i s p := by
  have hmem : i ∈ Finset.range kv.size := Finset.mem_range.mpr hi
  have hrest : ∑ j ∈ (Finset.range kv.size).erase i, kv'.occ j s p
      = ∑ j ∈ (Finset.range kv.size).erase i, kv.occ j s p := by
    refine Finset.sum_congr rfl fun j hj => ?_
    have hji := Finset.ne_of_mem_erase hj
    simp only [occ, hseq j hji, hpos j hji]
  have hkv := Finset.add_sum_erase _ (fun j => kv.occ j s p) hmem
  have hkv' := Finset.add_sum_erase _ (fun j => kv'.occ j s p) hmem
  rw [cellCount_eq_sum, cellCount_eq_sum, hsize]
  omega

/-! ## The invariant -/

/-- The indexes agree with the cells. -/
structure Rep (kv : KvCells) : Prop where
  /-- `used` is exactly the set of non-empty cells. -/
  used_iff : ∀ i, i ∈ kv.used ↔ i < kv.size ∧ kv.pos i ≠ -1
  /-- A position is `-1` or not negative. -/
  pos_ge : ∀ i < kv.size, -1 ≤ kv.pos i
  /-- An empty cell belongs to no sequence. -/
  seq_empty : ∀ i < kv.size, kv.pos i = -1 → kv.seq i = ∅
  /-- An empty cell has no pending shift. -/
  shift_zero : ∀ i < kv.size, kv.pos i = -1 → kv.shift i = 0
  /-- `seqPos s` counts the cells of `s` at each position, with no zero entry. -/
  seqPos : ∀ s, (kv.seqPos s).Represents (kv.cellCount s)

theorem cellCount_of_blank {kv : KvCells} (h : ∀ i < kv.size, kv.seq i = ∅) (s : SeqId) (p : Int) :
    kv.cellCount s p = 0 := by
  by_contra hne
  obtain ⟨i, hi, hs, -⟩ := (cellCount_ne_zero kv s p).mp hne
  rw [h i hi] at hs
  exact Finset.notMem_empty s hs

theorem rep_reset (kv : KvCells) : Rep kv.reset where
  used_iff := by simp
  pos_ge := by simp
  seq_empty := by simp
  shift_zero := by simp
  seqPos := fun s => CountMap.represents_empty.congr fun p =>
    (cellCount_of_blank (by simp) s p).symm

theorem rep_empty : Rep empty := rep_reset empty

theorem rep_resize (kv : KvCells) (n : Nat) : Rep (kv.resize n) := rep_reset _

/-- A nonempty sequence set makes a cell non-empty. -/
theorem Rep.pos_ne_of_mem {kv : KvCells} (h : Rep kv) (hi : i < kv.size) (hs : s ∈ kv.seq i) : kv.pos i ≠ -1 := by
  intro hp
  rw [h.seq_empty i hi hp] at hs
  exact Finset.notMem_empty s hs

theorem Rep.pos_nonneg {kv : KvCells} (h : Rep kv) (hi : i < kv.size) (hp : kv.pos i ≠ -1) : 0 ≤ kv.pos i := by
  have := h.pos_ge i hi
  omega

/-- A step that rewrites cell `i` keeps the invariant, when it keeps `used` in
line and moves the position index by the old and the new occurrence of the cell. -/
theorem Rep.rewrite {kv kv' : KvCells} (h : Rep kv) (hi : i < kv.size) (hsize : kv'.size = kv.size)
    (hseq : ∀ j ≠ i, kv'.seq j = kv.seq j) (hpos : ∀ j ≠ i, kv'.pos j = kv.pos j)
    (hshift : ∀ j ≠ i, kv'.shift j = kv.shift j)
    (hused : ∀ j, j ∈ kv'.used ↔ if j = i then kv'.pos i ≠ -1 else j ∈ kv.used) (hge : -1 ≤ kv'.pos i)
    (hempty : kv'.pos i = -1 → kv'.seq i = ∅ ∧ kv'.shift i = 0)
    (hidx : ∀ s (f g : Int → Nat), (kv.seqPos s).Represents f → (∀ p, kv.occ i s p ≤ f p) →
      (∀ p, g p + kv.occ i s p = f p + kv'.occ i s p) → (kv'.seqPos s).Represents g) : Rep kv' where
  used_iff := by
    intro j
    rw [hused j]
    by_cases hj : j = i
    · subst hj
      simp [hsize, hi]
    · simp only [hj, if_false, h.used_iff j, hsize, hpos j hj]
  pos_ge := by
    intro j hj
    by_cases hji : j = i
    · exact hji ▸ hge
    · rw [hpos j hji]
      exact h.pos_ge j (hsize ▸ hj)
  seq_empty := by
    intro j hj hp
    by_cases hji : j = i
    · subst hji
      exact (hempty hp).1
    · rw [hseq j hji]
      exact h.seq_empty j (hsize ▸ hj) (hpos j hji ▸ hp)
  shift_zero := by
    intro j hj hp
    by_cases hji : j = i
    · subst hji
      exact (hempty hp).2
    · rw [hshift j hji]
      exact h.shift_zero j (hsize ▸ hj) (hpos j hji ▸ hp)
  seqPos := fun s => hidx s _ _ (h.seqPos s) (fun p => occ_le_cellCount kv hi s p)
    fun p => cellCount_rewrite hsize hi hseq hpos s p

/-! ## The position index moves -/

/-- Taking cell `i` out subtracts its occurrence. -/
theorem seqPosRm_represents {kv : KvCells} (h : (kv.seqPos s).Represents f)
    (hg : ∀ p, g p + kv.occ i s p = f p) : ((kv.seqPosRm i).seqPos s).Represents g := by
  rw [seqPosRm_seqPos]
  by_cases hs : s ∈ kv.seq i
  · rw [if_pos hs]
    refine h.dec ?_ fun p hp => ?_
    · simpa [occ, hs] using (hg (kv.pos i)).symm
    · simpa [occ, Ne.symm hp] using hg p
  · rw [if_neg hs]
    exact h.congr fun p => by simpa [occ, hs] using (hg p).symm

theorem seqPosRm_represents_sub {kv : KvCells} (h : (kv.seqPos s).Represents f)
    (hle : ∀ p, kv.occ i s p ≤ f p) :
    ((kv.seqPosRm i).seqPos s).Represents (fun p => f p - kv.occ i s p) :=
  seqPosRm_represents h fun p => Nat.sub_add_cancel (hle p)

/-- Putting cell `i` in adds its occurrence. -/
theorem seqPosAdd_represents {kv : KvCells} (h : (kv.seqPos s).Represents f)
    (hg : ∀ p, g p = f p + kv.occ i s p) : ((kv.seqPosAdd i).seqPos s).Represents g := by
  rw [seqPosAdd_seqPos]
  by_cases hs : s ∈ kv.seq i
  · rw [if_pos hs]
    refine h.inc ?_ fun p hp => ?_
    · simpa [occ, hs] using hg (kv.pos i)
    · simpa [occ, Ne.symm hp] using hg p
  · rw [if_neg hs]
    exact h.congr fun p => by simpa [occ, hs] using (hg p).symm

theorem seqPosInc_represents {kv : KvCells} {t : SeqId} {q : Int} (h : (kv.seqPos s).Represents f)
    (hg : ∀ p, g p = f p + if s = t ∧ p = q then 1 else 0) :
    ((kv.seqPosInc t q).seqPos s).Represents g := by
  by_cases hs : s = t
  · subst hs
    rw [seqPosInc_seqPos, Function.update_self]
    exact h.inc (by simpa using hg q) fun p hp => by simpa [hp] using hg p
  · rw [seqPosInc_seqPos, Function.update_of_ne hs]
    exact h.congr fun p => by simpa [hs] using (hg p).symm

theorem seqPosDec_represents {kv : KvCells} {t : SeqId} {q : Int} (h : (kv.seqPos s).Represents f)
    (hg : ∀ p, g p + (if s = t ∧ p = q then 1 else 0) = f p) :
    ((kv.seqPosDec t q).seqPos s).Represents g := by
  by_cases hs : s = t
  · subst hs
    rw [seqPosDec_seqPos, Function.update_self]
    exact h.dec (by simpa using (hg q).symm) fun p hp => by simpa [hp] using hg p
  · rw [seqPosDec_seqPos, Function.update_of_ne hs]
    exact h.congr fun p => by simpa [hs] using (hg p).symm

/-! ## Cell effects of the mutators -/

@[simp] theorem rm_size (kv : KvCells) (i : Nat) : (kv.rm i).size = kv.size := rfl

theorem rm_seq (kv : KvCells) (i j : Nat) : (kv.rm i).seq j = if j = i then ∅ else kv.seq j := by
  simp [rm, Function.update_apply]

theorem rm_pos (kv : KvCells) (i j : Nat) : (kv.rm i).pos j = if j = i then -1 else kv.pos j := by
  simp [rm, Function.update_apply]

theorem rm_shift (kv : KvCells) (i j : Nat) : (kv.rm i).shift j = if j = i then 0 else kv.shift j := by
  simp [rm, Function.update_apply]

theorem rm_ext (kv : KvCells) (i j : Nat) : (kv.rm i).ext j = if j = i then {} else kv.ext j := by
  simp [rm, Function.update_apply]

@[simp] theorem seqRm_size (kv : KvCells) (i : Nat) (s : SeqId) : (kv.seqRm i s).1.size = kv.size := by
  unfold seqRm
  dsimp only
  split <;> rfl

theorem seqRm_seq (kv : KvCells) (i j : Nat) (s : SeqId) :
    (kv.seqRm i s).1.seq j = if j = i then (kv.seq i).erase s else kv.seq j := by
  unfold seqRm
  by_cases h : (kv.seq i).erase s = ∅ <;> by_cases hj : j = i <;> simp [h, hj]

theorem seqRm_pos (kv : KvCells) (i j : Nat) (s : SeqId) :
    (kv.seqRm i s).1.pos j = if j = i ∧ (kv.seq i).erase s = ∅ then -1 else kv.pos j := by
  unfold seqRm
  by_cases h : (kv.seq i).erase s = ∅ <;> by_cases hj : j = i <;> simp [h, hj]

theorem seqRm_shift (kv : KvCells) (i j : Nat) (s : SeqId) :
    (kv.seqRm i s).1.shift j = if j = i ∧ (kv.seq i).erase s = ∅ then 0 else kv.shift j := by
  unfold seqRm
  by_cases h : (kv.seq i).erase s = ∅ <;> by_cases hj : j = i <;> simp [h, hj]

theorem seqRm_ext (kv : KvCells) (i j : Nat) (s : SeqId) :
    (kv.seqRm i s).1.ext j = if j = i ∧ (kv.seq i).erase s = ∅ then {} else kv.ext j := by
  unfold seqRm
  by_cases h : (kv.seq i).erase s = ∅ <;> by_cases hj : j = i <;> simp [h, hj]

theorem seqRm_used (kv : KvCells) (i : Nat) (s : SeqId) :
    (kv.seqRm i s).1.used = if (kv.seq i).erase s = ∅ then kv.used.erase i else kv.used := by
  unfold seqRm
  by_cases h : (kv.seq i).erase s = ∅ <;> simp [h]

theorem seqRm_seqPos (kv : KvCells) (i : Nat) (s : SeqId) :
    (kv.seqRm i s).1.seqPos = (kv.seqPosDec s (kv.pos i)).seqPos := by
  unfold seqRm
  dsimp only
  split <;> rfl

@[simp] theorem seqKeep_size (kv : KvCells) (i : Nat) (s : SeqId) : (kv.seqKeep i s).1.size = kv.size := by
  unfold seqKeep
  split_ifs <;> rfl

theorem seqKeep_seq (kv : KvCells) (i j : Nat) (s : SeqId) :
    (kv.seqKeep i s).1.seq j = if j = i then kv.seq i ∩ {s} else kv.seq j := by
  unfold seqKeep
  by_cases hs : s ∈ kv.seq i
  · by_cases hj : j = i <;> simp [hs, hj]
  · by_cases he : kv.seq i = ∅ <;> by_cases hj : j = i <;> simp [hs, he, hj]

theorem seqKeep_pos (kv : KvCells) (i j : Nat) (s : SeqId) :
    (kv.seqKeep i s).1.pos j = if j = i ∧ s ∉ kv.seq i ∧ kv.seq i ≠ ∅ then -1 else kv.pos j := by
  unfold seqKeep
  by_cases hs : s ∈ kv.seq i
  · simp [hs]
  · by_cases he : kv.seq i = ∅ <;> by_cases hj : j = i <;> simp [hs, he, hj]

theorem seqKeep_shift (kv : KvCells) (i j : Nat) (s : SeqId) :
    (kv.seqKeep i s).1.shift j = if j = i ∧ s ∉ kv.seq i ∧ kv.seq i ≠ ∅ then 0 else kv.shift j := by
  unfold seqKeep
  by_cases hs : s ∈ kv.seq i
  · simp [hs]
  · by_cases he : kv.seq i = ∅ <;> by_cases hj : j = i <;> simp [hs, he, hj]

theorem seqKeep_used (kv : KvCells) (i : Nat) (s : SeqId) :
    (kv.seqKeep i s).1.used = if s ∉ kv.seq i ∧ kv.seq i ≠ ∅ then kv.used.erase i else kv.used := by
  unfold seqKeep
  by_cases hs : s ∈ kv.seq i
  · simp [hs]
  · by_cases he : kv.seq i = ∅ <;> simp [hs, he]

@[simp] theorem seqAdd_size (kv : KvCells) (i : Nat) (s : SeqId) : (kv.seqAdd i s).size = kv.size := rfl

theorem seqAdd_seq (kv : KvCells) (i j : Nat) (s : SeqId) :
    (kv.seqAdd i s).seq j = if j = i then insert s (kv.seq i) else kv.seq j := by
  by_cases hj : j = i <;> simp [seqAdd, hj]

@[simp] theorem seqAdd_pos (kv : KvCells) (i : Nat) (s : SeqId) : (kv.seqAdd i s).pos = kv.pos := rfl

@[simp] theorem seqAdd_shift (kv : KvCells) (i : Nat) (s : SeqId) : (kv.seqAdd i s).shift = kv.shift := rfl

@[simp] theorem seqAdd_ext (kv : KvCells) (i : Nat) (s : SeqId) : (kv.seqAdd i s).ext = kv.ext := rfl

@[simp] theorem seqAdd_used (kv : KvCells) (i : Nat) (s : SeqId) : (kv.seqAdd i s).used = kv.used := rfl

@[simp] theorem posAdd_size (kv : KvCells) (i : Nat) (d : Int) : (kv.posAdd i d).1.size = kv.size := by
  unfold posAdd
  dsimp only
  split <;> rfl

theorem posAdd_pos (kv : KvCells) (i j : Nat) (d : Int) :
    (kv.posAdd i d).1.pos j = if j = i then (if kv.pos i + d < 0 then -1 else kv.pos i + d) else kv.pos j := by
  unfold posAdd
  by_cases hd : kv.pos i + d < 0 <;> by_cases hj : j = i <;> simp [hd, hj]

theorem posAdd_shift (kv : KvCells) (i j : Nat) (d : Int) :
    (kv.posAdd i d).1.shift j = if j = i then (if kv.pos i + d < 0 then 0 else kv.shift i + d) else kv.shift j := by
  unfold posAdd
  by_cases hd : kv.pos i + d < 0 <;> by_cases hj : j = i <;> simp [hd, hj]

theorem posAdd_seq (kv : KvCells) (i j : Nat) (d : Int) :
    (kv.posAdd i d).1.seq j = if j = i ∧ kv.pos i + d < 0 then ∅ else kv.seq j := by
  unfold posAdd
  by_cases hd : kv.pos i + d < 0 <;> by_cases hj : j = i <;> simp [hd, hj]

theorem posAdd_used (kv : KvCells) (i : Nat) (d : Int) :
    (kv.posAdd i d).1.used = if kv.pos i + d < 0 then kv.used.erase i else kv.used := by
  unfold posAdd
  by_cases hd : kv.pos i + d < 0 <;> simp [hd]

@[simp] theorem posDiv_size (kv : KvCells) (i : Nat) (d : Int) : (kv.posDiv i d).size = kv.size := rfl

theorem posDiv_pos (kv : KvCells) (i j : Nat) (d : Int) :
    (kv.posDiv i d).pos j = if j = i then (kv.pos i).tdiv d else kv.pos j := by
  by_cases hj : j = i <;> simp [posDiv, hj]

theorem posDiv_shift (kv : KvCells) (i j : Nat) (d : Int) :
    (kv.posDiv i d).shift j = if j = i then kv.shift i + (kv.pos i - (kv.pos i).tdiv d) else kv.shift j := by
  by_cases hj : j = i <;> simp [posDiv, hj]

@[simp] theorem posDiv_seq (kv : KvCells) (i : Nat) (d : Int) : (kv.posDiv i d).seq = kv.seq := rfl

@[simp] theorem posDiv_used (kv : KvCells) (i : Nat) (d : Int) : (kv.posDiv i d).used = kv.used := rfl

/-! ## The mutators keep the invariant -/

theorem rep_resetShift {kv : KvCells} (h : Rep kv) : Rep kv.resetShift :=
  { h with
    shift_zero := fun _ _ _ => rfl }

theorem rep_extSet {kv : KvCells} (h : Rep kv) (i : Nat) (e : KvCellExt) : Rep (kv.extSet i e) :=
  { h with }

theorem rep_rm {kv : KvCells} (h : Rep kv) (hi : i < kv.size) : Rep (kv.rm i) := by
  refine h.rewrite hi rfl (fun j hj => by simp [rm_seq, hj]) (fun j hj => by simp [rm_pos, hj])
    (fun j hj => by simp [rm_shift, hj]) (fun j => ?_) (by simp [rm_pos])
    (fun _ => by simp [rm_seq, rm_shift]) fun s f g hf _ hg => ?_
  · by_cases hj : j = i <;> simp [rm, hj]
  · exact seqPosRm_represents hf fun p => by simpa [occ, rm_seq] using hg p

theorem rep_posSet {kv : KvCells} {p : Int} (h : Rep kv) (hi : i < kv.size) (he : kv.pos i = -1)
    (hp : 0 ≤ p) : Rep (kv.posSet i p) := by
  have hseq := h.seq_empty i hi he
  refine h.rewrite hi rfl (fun j _ => rfl) (fun j hj => by simp [hj]) (fun j _ => rfl)
    (fun j => ?_) (by simp; omega) (fun hneg => ?_) fun s f g hf _ hg => ?_
  · by_cases hj : j = i
    · simp [hj]
      omega
    · simp [hj]
  · simp at hneg
    omega
  · exact hf.congr fun q => by simpa [occ, hseq] using (hg q).symm

theorem rep_seqAdd {kv : KvCells} (h : Rep kv) (hi : i < kv.size) (hp : kv.pos i ≠ -1)
    (hs : s ∉ kv.seq i) : Rep (kv.seqAdd i s) := by
  refine h.rewrite hi rfl (fun j hj => by simp [seqAdd_seq, hj]) (fun j _ => rfl) (fun j _ => rfl)
    (fun j => ?_) (h.pos_ge i hi) (fun he => absurd he hp) fun t f g hf _ hg => ?_
  · by_cases hj : j = i
    · subst hj
      simp [h.used_iff, hi, hp]
    · simp [hj]
  · refine seqPosInc_represents hf fun q => ?_
    have hq := hg q
    by_cases ht : t = s
    · subst ht
      simp only [occ, hs, seqAdd_seq, seqAdd_pos] at hq
      by_cases hqp : q = kv.pos i <;> simp_all [eq_comm]
    · simpa [occ, seqAdd_seq, ht] using hq

theorem rep_seqRm {kv : KvCells} (h : Rep kv) (hi : i < kv.size) (hs : s ∈ kv.seq i) : Rep (kv.seqRm i s).1 := by
  have hp := h.pos_ne_of_mem hi hs
  refine h.rewrite hi (seqRm_size ..) (fun j hj => by simp [seqRm_seq, hj])
    (fun j hj => by simp [seqRm_pos, hj]) (fun j hj => by simp [seqRm_shift, hj])
    (fun j => ?_) ?_ (fun hneg => ?_) fun t f g hf _ hg => ?_
  · rw [seqRm_used]
    by_cases he : (kv.seq i).erase s = ∅ <;> by_cases hj : j = i
    · simp [he, hj, seqRm_pos]
    · simp [he, hj]
    · simp [he, hj, seqRm_pos, h.used_iff, hi]
    · simp [he, hj]
  · rw [seqRm_pos]
    have := h.pos_ge i hi
    split <;> omega
  · rw [seqRm_pos] at hneg
    by_cases he : (kv.seq i).erase s = ∅
    · simp [seqRm_seq, seqRm_shift, he]
    · simp [he, hp] at hneg
  · -- Cell `i` is empty afterwards only if it holds no sequence, so its new
    -- occurrence is that of the remaining set at the old position.
    have hnew : ∀ q, (kv.seqRm i s).1.occ i t q + (if t = s ∧ q = kv.pos i then 1 else 0)
        = kv.occ i t q := by
      intro q
      simp only [occ, seqRm_seq, seqRm_pos, true_and, if_true]
      by_cases ht : t = s
      · subst ht
        by_cases hq : q = kv.pos i <;> simp [hs, hq, Ne.symm, eq_comm]
      · by_cases he : (kv.seq i).erase s = ∅
        · have : t ∉ kv.seq i := by
            intro hmem
            have := Finset.mem_erase.mpr ⟨ht, hmem⟩
            rw [he] at this
            exact Finset.notMem_empty t this
          simp [ht, this]
        · simp [ht, he]
    rw [seqRm_seqPos]
    refine seqPosDec_represents hf fun q => ?_
    have := hg q
    have := hnew q
    omega

theorem rep_seqKeep {kv : KvCells} (h : Rep kv) (hi : i < kv.size) : Rep (kv.seqKeep i s).1 := by
  by_cases hs : s ∈ kv.seq i
  · have hp := h.pos_ne_of_mem hi hs
    have hsz : (kv.seqKeep i s).1.size = kv.size := seqKeep_size ..
    refine h.rewrite hi hsz (fun j hj => by simp [seqKeep_seq, hj])
      (fun j hj => by simp [seqKeep_pos, hj]) (fun j hj => by simp [seqKeep_shift, hj])
      (fun j => ?_) ?_ (fun hneg => ?_) fun t f g hf hle hg => ?_
    · rw [seqKeep_used]
      by_cases hj : j = i <;> simp [hs, hj, seqKeep_pos, h.used_iff, hi]
    · simpa [seqKeep_pos, hs] using h.pos_ge i hi
    · simp [seqKeep_pos, hs, hp] at hneg
    · -- the old occurrence goes out first, then the one of `s` comes back
      have hrm := seqPosRm_represents_sub (i := i) hf hle
      have hkeep : (kv.seqKeep i s).1.seqPos t = ((kv.seqPosRm i).seqPosInc s (kv.pos i)).seqPos t := by
        simp [seqKeep, hs]
      rw [hkeep]
      refine seqPosInc_represents hrm fun q => ?_
      have hq := hg q
      have hle := hle q
      have hnew : (kv.seqKeep i s).1.occ i t q = if t = s ∧ q = kv.pos i then 1 else 0 := by
        simp only [occ, seqKeep_seq, seqKeep_pos, hs]
        by_cases ht : t = s <;> by_cases hqp : q = kv.pos i <;> simp [ht, hs, hqp, eq_comm]
      omega
  · by_cases he : kv.seq i = ∅
    · have : (kv.seqKeep i s).1 = kv := by simp [seqKeep, he]
      rw [this]
      exact h
    · have : (kv.seqKeep i s).1 = kv.rm i := by simp [seqKeep, hs, he, rm]
      rw [this]
      exact rep_rm h hi

theorem rep_posAdd {kv : KvCells} {d : Int} (h : Rep kv) (hi : i < kv.size) (hp : kv.pos i ≠ -1) :
    Rep (kv.posAdd i d).1 := by
  refine h.rewrite hi (posAdd_size ..) (fun j hj => by simp [posAdd_seq, hj])
    (fun j hj => by simp [posAdd_pos, hj]) (fun j hj => by simp [posAdd_shift, hj])
    (fun j => ?_) ?_ (fun hneg => ?_) fun t f g hf hle hg => ?_
  · rw [posAdd_used]
    by_cases hd : kv.pos i + d < 0 <;> by_cases hj : j = i
    · simp [hd, hj, posAdd_pos]
    · simp [hd, hj]
    · simp [hd, hj, posAdd_pos, h.used_iff, hi, hp]
      omega
    · simp [hd, hj]
  · rw [posAdd_pos, if_pos rfl]
    split <;> omega
  · rw [posAdd_pos, if_pos rfl] at hneg
    have hd : kv.pos i + d < 0 := by
      by_contra hd
      rw [if_neg hd] at hneg
      omega
    simp [posAdd_seq, posAdd_shift, hd]
  · have hrm := seqPosRm_represents_sub (i := i) hf hle
    by_cases hd : kv.pos i + d < 0
    · have hidx : (kv.posAdd i d).1.seqPos t = (kv.seqPosRm i).seqPos t := by
        simp [posAdd, hd]
      rw [hidx]
      refine hrm.congr fun q => ?_
      have := hg q
      simp only [occ, posAdd_seq, hd] at this ⊢
      simp at this
      omega
    · -- adding cell `i` back reads only its new position and its set
      have hadd : (kv.posAdd i d).1.seqPos t =
          (({ kv.seqPosRm i with pos := (kv.posAdd i d).1.pos } : KvCells).seqPosAdd i).seqPos t := by
        simp [posAdd, hd]
      rw [hadd]
      refine seqPosAdd_represents hrm fun q => ?_
      have hq := hg q
      have hle := hle q
      simp only [occ, posAdd_seq, posAdd_pos, hd] at hq hle ⊢
      simp at hq ⊢
      omega

theorem rep_posDiv {kv : KvCells} {d : Int} (h : Rep kv) (hi : i < kv.size) (hp : kv.pos i ≠ -1)
    (hd : 1 ≤ d) : Rep (kv.posDiv i d) := by
  have hnn := h.pos_nonneg hi hp
  have hq : 0 ≤ (kv.pos i).tdiv d := Int.tdiv_nonneg hnn (by omega)
  refine h.rewrite hi rfl (fun j _ => rfl) (fun j hj => by simp [posDiv_pos, hj])
    (fun j hj => by simp [posDiv_shift, hj]) (fun j => ?_) ?_ (fun hneg => ?_)
    fun t f g hf hle hg => ?_
  · by_cases hj : j = i
    · simp [hj, posDiv_pos, h.used_iff, hi, hp]
      omega
    · simp [hj]
  · rw [posDiv_pos, if_pos rfl]
    omega
  · rw [posDiv_pos, if_pos rfl] at hneg
    omega
  · have hrm := seqPosRm_represents_sub (i := i) hf hle
    have hadd : (kv.posDiv i d).seqPos t =
        (({ kv.seqPosRm i with pos := (kv.posDiv i d).pos } : KvCells).seqPosAdd i).seqPos t := by
      simp [posDiv]
    rw [hadd]
    refine seqPosAdd_represents hrm fun q => ?_
    have hq := hg q
    have hle := hle q
    simp only [occ, posDiv_seq, posDiv_pos] at hq hle ⊢
    simp at hq ⊢
    omega

/-! ## Saved cells -/

/-- The cells of a copy taken with `cp`: positions and sets fit together, the
indexes say nothing. -/
def Snapshot (other : KvCells) : Prop :=
  ∀ j < other.size, -1 ≤ other.pos j ∧ (other.pos j = -1 → other.seq j = ∅)

@[simp] theorem cpBy_size (kv : KvCells) (n : Nat) (f : Nat → Nat) : (kv.cpBy n f).size = n := rfl

theorem cpBy_pos (kv : KvCells) {n j : Nat} (f : Nat → Nat) (hj : j < n) : (kv.cpBy n f).pos j = kv.pos (f j) := by
  simp [cpBy, hj]

theorem cpBy_ext (kv : KvCells) {n j : Nat} (f : Nat → Nat) (hj : j < n) : (kv.cpBy n f).ext j = kv.ext (f j) := by
  simp [cpBy, hj]

theorem cpBy_seq (kv : KvCells) {n j : Nat} (f : Nat → Nat) (hj : j < n) : (kv.cpBy n f).seq j = kv.seq (f j) := by
  simp [cpBy, hj]

theorem Rep.snapshot {kv : KvCells} (h : Rep kv) {n : Nat} {f : Nat → Nat}
    (hf : ∀ j < n, f j < kv.size) : Snapshot (kv.cpBy n f) := by
  intro j hj
  rw [cpBy_size] at hj
  rw [cpBy_pos kv f hj, cpBy_seq kv f hj]
  exact ⟨h.pos_ge _ (hf j hj), h.seq_empty _ (hf j hj)⟩

@[simp] theorem setCell_size (kv : KvCells) (i : Nat) (other : KvCells) (j : Nat) :
    (kv.setCell i other j).size = kv.size := by
  unfold setCell
  dsimp only
  split_ifs <;> rfl

theorem setCell_pos (kv : KvCells) (i : Nat) (other : KvCells) (j k : Nat) :
    (kv.setCell i other j).pos k = if k = i then other.pos j else kv.pos k := by
  unfold setCell
  dsimp only
  split_ifs <;> simp_all

theorem setCell_seq (kv : KvCells) (i : Nat) (other : KvCells) (j k : Nat) :
    (kv.setCell i other j).seq k = if k = i then other.seq j else kv.seq k := by
  unfold setCell
  dsimp only
  split_ifs <;> simp_all

theorem setCell_ext (kv : KvCells) (i : Nat) (other : KvCells) (j k : Nat) :
    (kv.setCell i other j).ext k = if k = i then other.ext j else kv.ext k := by
  unfold setCell
  dsimp only
  split_ifs <;> simp_all

@[simp] theorem setCell_shift (kv : KvCells) (i : Nat) (other : KvCells) (j : Nat) :
    (kv.setCell i other j).shift = kv.shift := by
  unfold setCell
  dsimp only
  split_ifs <;> rfl

theorem setCell_used (kv : KvCells) (i : Nat) (other : KvCells) (j : Nat) :
    (kv.setCell i other j).used =
      if kv.pos i = -1 ∧ other.pos j ≠ -1 then insert i kv.used
      else if kv.pos i ≠ -1 ∧ other.pos j = -1 then kv.used.erase i else kv.used := by
  unfold setCell
  dsimp only
  split_ifs <;> simp_all

theorem rep_setCell {kv other : KvCells} {j : Nat} (h : Rep kv) (hi : i < kv.size)
    (hsh : other.pos j = -1 → kv.shift i = 0) (hge : -1 ≤ other.pos j)
    (he : other.pos j = -1 → other.seq j = ∅) : Rep (kv.setCell i other j) := by
  refine h.rewrite hi (setCell_size ..) (fun k hk => by simp [setCell_seq, hk])
    (fun k hk => by simp [setCell_pos, hk]) (fun k _ => by simp) (fun k => ?_)
    (by simpa [setCell_pos] using hge)
    (fun hneg => by
      rw [setCell_pos, if_pos rfl] at hneg
      simpa [setCell_seq, hsh hneg] using he hneg)
    fun s f g hf hle hg => ?_
  · rw [setCell_used, setCell_pos, if_pos rfl]
    have hu := h.used_iff k
    by_cases hk : k = i
    · subst hk
      by_cases hp : kv.pos k = -1 <;> by_cases ho : other.pos j = -1 <;> simp_all
    · by_cases hp : kv.pos i = -1 <;> by_cases ho : other.pos j = -1 <;> simp [hk, hp, ho]
  · -- what is in the index after cell `i` went out
    have hout : ∀ p, kv.occ i s p = 0 ∨ kv.pos i ≠ -1 := by
      intro p
      by_cases hp : kv.pos i = -1
      · left
        simp [occ, h.seq_empty i hi hp]
      · exact Or.inr hp
    have hrm : ((if kv.pos i ≠ -1 then kv.seqPosRm i else kv).seqPos s).Represents
        (fun p => f p - kv.occ i s p) := by
      by_cases hp : kv.pos i = -1
      · rw [if_neg (by simpa using hp)]
        refine hf.congr fun p => ?_
        have := (hout p).resolve_right (by simpa using hp)
        omega
      · rw [if_pos hp]
        exact seqPosRm_represents_sub hf hle
    have hcell : ∀ q, (kv.setCell i other j).occ i s q = if s ∈ other.seq j ∧ other.pos j = q then 1 else 0 := by
      intro q
      simp [occ, setCell_seq, setCell_pos]
    by_cases ho : other.pos j = -1
    · have hidx : (kv.setCell i other j).seqPos s = (if kv.pos i ≠ -1 then kv.seqPosRm i else kv).seqPos s := by
        by_cases hp : kv.pos i = -1 <;> simp [setCell, hp, ho]
      rw [hidx]
      refine hrm.congr fun q => ?_
      have hg := hg q
      rw [hcell q, he ho] at hg
      simp at hg
      omega
    · have hidx : (kv.setCell i other j).seqPos s =
          (({ (if kv.pos i ≠ -1 then kv.seqPosRm i else kv) with
              pos := (kv.setCell i other j).pos, seq := (kv.setCell i other j).seq } :
                KvCells).seqPosAdd i).seqPos s := by
        by_cases hp : kv.pos i = -1 <;> simp [setCell, hp, ho]
      rw [hidx]
      refine seqPosAdd_represents hrm fun q => ?_
      have hg := hg q
      have hle := hle q
      have hcell := hcell q
      simp only [occ] at hcell hg hle ⊢
      omega

theorem setBy_size (kv : KvCells) (f : Nat → Nat) (other : KvCells) : (kv.setBy f other).size = kv.size := by
  unfold setBy
  induction List.range other.size generalizing kv with
  | nil => rfl
  | cons j l ih => rw [foldl_cons, ih, setCell_size]

/-- The loop of `set` keeps the invariant when every target cell is in range, and has
no pending shift if it is to be empty. -/
theorem rep_setBy {kv other : KvCells} {f : Nat → Nat} (h : Rep kv) (ho : Snapshot other)
    (hf : ∀ j < other.size, f j < kv.size)
    (hsh : ∀ j < other.size, other.pos j = -1 → kv.shift (f j) = 0) : Rep (kv.setBy f other) := by
  unfold setBy
  suffices hgen : ∀ (l : List Nat) (kv : KvCells), Rep kv →
      (∀ j ∈ l, j < other.size ∧ f j < kv.size ∧ (other.pos j = -1 → kv.shift (f j) = 0)) →
      Rep (l.foldl (fun kv j => kv.setCell (f j) other j) kv) from
    hgen _ kv h fun j hj =>
      have hj := mem_range.mp hj
      ⟨hj, hf j hj, hsh j hj⟩
  intro l
  induction l with
  | nil => exact fun kv h _ => h
  | cons j l ih =>
    intro kv h hl
    obtain ⟨hj, hfj, hsj⟩ := hl j mem_cons_self
    refine ih _ (rep_setCell h hfj hsj (ho j hj).1 (ho j hj).2) fun k hk => ?_
    simpa using hl k (mem_cons_of_mem _ hk)

/-! ## The indexes are determined by the cells -/

section Determined

variable {kv kv' : KvCells} (h : Rep kv) (h' : Rep kv') (hsize : kv'.size = kv.size)
  (hpos : ∀ i < kv.size, kv'.pos i = kv.pos i)

include h h' hsize hpos

theorem Rep.used_eq : kv'.used = kv.used := by
  ext i
  rw [h.used_iff, h'.used_iff, hsize]
  constructor
  · rintro ⟨hi, hp⟩
    exact ⟨hi, hpos i hi ▸ hp⟩
  · rintro ⟨hi, hp⟩
    exact ⟨hi, (hpos i hi).symm ▸ hp⟩

theorem Rep.seqPos_eq (hseq : ∀ i < kv.size, kv'.seq i = kv.seq i) : kv'.seqPos = kv.seqPos := by
  funext s
  refine (h'.seqPos s).ext ((h.seqPos s).congr fun p => ?_)
  rw [cellCount_eq_sum, cellCount_eq_sum, hsize]
  refine Finset.sum_congr rfl fun i hi => ?_
  have hi := Finset.mem_range.mp hi
  simp only [occ, hpos i hi, hseq i hi]

end Determined

/-! ## Agreement with a full scan -/

/-- The positions of `s`, read off the cells in index order. -/
def scanPositions (kv : KvCells) (s : SeqId) : List Int :=
  ((List.range kv.size).filter fun i => decide (kv.pos i ≠ -1 ∧ s ∈ kv.seq i)).map kv.pos

/-- The non-empty cells, in index order. -/
def scanUsed (kv : KvCells) : List Nat :=
  (List.range kv.size).filter fun i => decide (kv.pos i ≠ -1)

theorem mem_scanUsed (kv : KvCells) (i : Nat) : i ∈ kv.scanUsed ↔ i < kv.size ∧ kv.pos i ≠ -1 := by
  simp [scanUsed]

theorem Rep.mem_scanPositions {kv : KvCells} (h : Rep kv) (s : SeqId) (p : Int) :
    p ∈ kv.scanPositions s ↔ kv.cellCount s p ≠ 0 := by
  rw [cellCount_ne_zero]
  simp only [scanPositions, List.mem_map, mem_filter, mem_range, decide_eq_true_eq]
  constructor
  · rintro ⟨i, ⟨hi, -, hs⟩, hp⟩
    exact ⟨i, hi, hs, hp⟩
  · rintro ⟨i, hi, hs, hp⟩
    exact ⟨i, ⟨hi, h.pos_ne_of_mem hi hs, hs⟩, hp⟩

theorem Rep.seqPosMin_eq {kv : KvCells} (h : Rep kv) (s : SeqId) :
    kv.seqPosMin s = (kv.scanPositions s).min?.getD (-1) := by
  unfold seqPosMin
  congr 1
  cases hm : (kv.scanPositions s).min? with
  | none =>
    rw [(h.seqPos s).minKey?_eq_none]
    intro p
    by_contra hp
    have := (h.mem_scanPositions s p).mpr hp
    rw [min?_eq_none_iff.mp hm] at this
    exact not_mem_nil this
  | some p =>
    obtain ⟨hp, hmin⟩ := min?_eq_some_iff.mp hm
    rw [(h.seqPos s).minKey?_eq_some]
    exact ⟨(h.mem_scanPositions s p).mp hp, fun q hq => hmin q ((h.mem_scanPositions s q).mpr hq)⟩

theorem Rep.seqPosMax_eq {kv : KvCells} (h : Rep kv) (s : SeqId) :
    kv.seqPosMax s = (kv.scanPositions s).max?.getD (-1) := by
  unfold seqPosMax
  congr 1
  cases hm : (kv.scanPositions s).max? with
  | none =>
    rw [(h.seqPos s).maxKey?_eq_none]
    intro p
    by_contra hp
    have := (h.mem_scanPositions s p).mpr hp
    rw [max?_eq_none_iff.mp hm] at this
    exact not_mem_nil this
  | some p =>
    obtain ⟨hp, hmax⟩ := max?_eq_some_iff.mp hm
    rw [(h.seqPos s).maxKey?_eq_some]
    exact ⟨(h.mem_scanPositions s p).mp hp, fun q hq => hmax q ((h.mem_scanPositions s q).mpr hq)⟩

/-- Every cell of `s` is between the extreme positions. -/
theorem Rep.pos_mem_Icc {kv : KvCells} (h : Rep kv) (hi : i < kv.size) (hs : s ∈ kv.seq i) :
    kv.seqPosMin s ≤ kv.pos i ∧ kv.pos i ≤ kv.seqPosMax s := by
  have hmem : kv.pos i ∈ kv.scanPositions s :=
    (h.mem_scanPositions s _).mpr ((cellCount_ne_zero kv s _).mpr ⟨i, hi, hs, rfl⟩)
  rw [h.seqPosMin_eq, h.seqPosMax_eq]
  constructor
  · cases hm : (kv.scanPositions s).min? with
    | none => exact absurd (min?_eq_none_iff.mp hm ▸ hmem) not_mem_nil
    | some p => exact (min?_eq_some_iff.mp hm).2 _ hmem
  · cases hm : (kv.scanPositions s).max? with
    | none => exact absurd (max?_eq_none_iff.mp hm ▸ hmem) not_mem_nil
    | some p => exact (max?_eq_some_iff.mp hm).2 _ hmem

/-- The greatest position of `s` is the position of a cell of `s`, unless there is none. -/
theorem Rep.seqPosMax_attained {kv : KvCells} (h : Rep kv) (hne : kv.seqPosMax s ≠ -1) :
    ∃ i < kv.size, s ∈ kv.seq i ∧ kv.pos i = kv.seqPosMax s := by
  rw [h.seqPosMax_eq] at hne ⊢
  cases hm : (kv.scanPositions s).max? with
  | none => simp [hm] at hne
  | some p =>
    rw [Option.getD_some]
    exact (cellCount_ne_zero kv s p).mp
      ((h.mem_scanPositions s p).mp (max?_eq_some_iff.mp hm).1)

theorem Rep.usedMin_eq {kv : KvCells} (h : Rep kv) : kv.usedMin = kv.scanUsed.min?.getD 0 := by
  have hmem : ∀ i, i ∈ kv.used ↔ i ∈ kv.scanUsed := fun i => by
    rw [h.used_iff, mem_scanUsed]
  unfold usedMin
  cases hm : kv.scanUsed.min? with
  | none =>
    have : kv.used = ∅ := by
      ext i
      simp [hmem, min?_eq_none_iff.mp hm]
    simp [this]
  | some i =>
    obtain ⟨hi, hmin⟩ := min?_eq_some_iff.mp hm
    obtain ⟨a, ha⟩ := Finset.min_of_mem ((hmem i).mpr hi)
    have hai : a ≤ i := Finset.min_le_of_eq ((hmem i).mpr hi) ha
    have hia : i ≤ a := hmin a ((hmem a).mp (Finset.mem_of_min ha))
    rw [ha, WithTop.untopD_coe, le_antisymm hai hia]
    rfl

theorem Rep.usedMaxP1_eq {kv : KvCells} (h : Rep kv) : kv.usedMaxP1 = (kv.scanUsed.max?.map (· + 1)).getD 0 := by
  have hmem : ∀ i, i ∈ kv.used ↔ i ∈ kv.scanUsed := fun i => by
    rw [h.used_iff, mem_scanUsed]
  unfold usedMaxP1
  cases hm : kv.scanUsed.max? with
  | none =>
    have : kv.used = ∅ := by
      ext i
      simp [hmem, max?_eq_none_iff.mp hm]
    simp [this]
  | some i =>
    obtain ⟨hi, hmax⟩ := max?_eq_some_iff.mp hm
    obtain ⟨a, ha⟩ := Finset.max_of_mem ((hmem i).mpr hi)
    have hia : i ≤ a := Finset.le_max_of_eq ((hmem i).mpr hi) ha
    have hai : a ≤ i := hmax a ((hmem a).mp (Finset.mem_of_max ha))
    rw [ha, WithBot.map_coe, WithBot.unbotD_coe, le_antisymm hai hia]
    rfl

end LlamaCpp.KvCells
