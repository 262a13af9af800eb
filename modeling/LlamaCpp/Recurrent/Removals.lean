import LlamaCpp.Recurrent.Agreement

/-!
# What a removal leaves of a sequence

The position of a sequence is stored in its cell, and its rollback index beside the cells.
A rollback writes both: it moves the cell back and counts the index from the position that
the cell had.

Two things follow.  A second rollback counts from the position of the first, so the index of
the first is lost (`rollbacks_compose_iff`).  And a rollback of a cell with two sequences
moves both but writes one index (`seqRm_isolates_iff`).
-/

namespace LlamaCpp.RecurrentMemory

open List Option

variable {c : RecurrentConfig} {m m' : RecurrentMemory} {s t i : Nat} {P p q lo hi : Int}
  {ids : Finset Nat} {cell : RecurrentCell}

def tailPos (m : RecurrentMemory) (s : Nat) : Option Int :=
  (m.cells s).tail.map fun t => (m.cells t).pos

/-! ## A removal up to the end -/

theorem tailPos_eq_some : m.tailPos s = some P ↔ ∃ t, (m.cells s).tail = some t ∧ (m.cells t).pos = P := by
  simp [tailPos]

theorem setRsIdx_same (hs : s < c.nSeqMax) {idx : Nat} (hidx : idx ≤ c.nRsSeq) :
    (m.setRsIdx c s idx).rsIdx s = idx := by
  have hrange : ¬((s : Int) < 0 ∨ (c.nSeqMax : Int) ≤ s) := by omega
  rw [setRsIdx, if_neg hrange, if_neg (Nat.not_lt.mpr hidx)]
  simp

theorem setRsIdx_ne {idx u : Nat} (hne : u ≠ s) : (m.setRsIdx c s idx).rsIdx u = m.rsIdx u := by
  unfold setRsIdx
  split
  · rfl
  · simp [hne]

/-- A cell outside the range is not touched by the loop. -/
theorem seqRmCells_outside {seqId : Int} (h : ¬(lo ≤ (m.cells i).pos ∧ (m.cells i).pos < hi)) :
    (m.seqRmCells c seqId lo hi).cells i = m.cells i := by
  have hkeeps : ¬(m.cells i).Loses seqId lo hi := fun hloses => h ⟨hloses.1, hloses.2.1⟩
  rw [seqRmCells_cells, RecurrentCell.remove, if_neg hkeeps, ite_self]

/-- What a removal from `p` on does to the sequence, when it is not refused. -/
inductive Removed (c : RecurrentConfig) (m : RecurrentMemory) (s : Nat) (P p : Int)
    (m' : RecurrentMemory) : Prop
  | rolledBack (hlo : p ≤ P) (hhi : P < llamaPosMax) (hpos : m'.tailPos s = some (p - 1))
      (hidx : (m'.rsIdx s : Int) = P - (p - 1)) (hle : m'.rsIdx s ≤ c.nRsSeq)
  | kept (hout : P < p ∨ llamaPosMax ≤ P) (hpos : m'.tailPos s = some P)
      (hidx : m'.rsIdx s = m.rsIdx s)

theorem seqRm_removed (hs : s < c.nSeqMax) (hpos : m.tailPos s = some P) (hp : 0 < p)
    (hok : (m.seqRm c s p (-1)).1 = true) : Removed c m s P p (m.seqRm c s p (-1)).2 := by
  obtain ⟨t, htail, rfl⟩ := tailPos_eq_some.mp hpos
  have hcase := @seqRm_removal c m s p (-1)
  have hlo : rangeLo p = p := if_neg (by omega)
  have hhi : rangeHi (-1) = llamaPosMax := rfl
  rw [hlo, hhi] at hcase
  have htail' : (m.cells (s : Int).toNat).tail = some t := htail
  have hwhole : resetWhole c m s p llamaPosMax = m := if_neg (by omega)
  generalize m.seqRm c s p (-1) = result at hcase hok
  cases hcase with
  | refused => cases hok
  | sweep hlt hone hall =>
    have hout := hone (Int.natCast_nonneg s) t htail'
    rw [hwhole]
    refine .kept (by omega) (tailPos_eq_some.mpr ⟨t, ?_, ?_⟩) ?_
    · rw [seqRmCells_tail, htail]
    · rw [seqRmCells_outside hout]
    · rw [seqRmCells_rsIdx]
  | rollback t' hs' hlt ht hpart hin hup hn =>
    obtain rfl : t = t' := some.inj (htail'.symm.trans ht)
    have hback : ((m.cells t).pos - (p - 1)).toNat ≤ c.nRsSeq := by omega
    have hidx := setRsIdx_same (m := m) hs hback
    refine .rolledBack hin hup (tailPos_eq_some.mpr ⟨t, ?_, ?_⟩) ?_ ?_
    · by_cases hst : s = t
      · subst hst
        simpa using htail
      · simpa [hst] using htail
    · simp
    · rw [modify_rsIdx, hidx]
      omega
    · rw [modify_rsIdx, hidx]
      exact hback
  | drop t' hs' hlt ht hfrom => exact absurd hp hfrom

/-! ## Two rollbacks -/

/-- A removal from `p` on and then one from `q` on leave of the sequence, whose last position
is `P`, what the second one alone leaves: the position, and the index of the state after
`q - 1`, which is one of the states that are kept. -/
structure RollbacksCompose (c : RecurrentConfig) (m : RecurrentMemory) (s : Nat) (P p q : Int) :
    Prop where
  tailPos : ((m.seqRm c s p (-1)).2.seqRm c s q (-1)).2.tailPos s = (m.seqRm c s q (-1)).2.tailPos s
  rsIdx : ((m.seqRm c s p (-1)).2.seqRm c s q (-1)).2.rsIdx s = (m.seqRm c s q (-1)).2.rsIdx s
  snapshot : q ≤ P → P < llamaPosMax →
    (((m.seqRm c s p (-1)).2.seqRm c s q (-1)).2.rsIdx s : Int) = P - (q - 1) ∧
      ((m.seqRm c s p (-1)).2.seqRm c s q (-1)).2.rsIdx s ≤ c.nRsSeq

/-- A removal from `p` on is refused when the state is not kept any more. -/
theorem seqRm_accepts_iff (hs : s < c.nSeqMax) (hpos : m.tailPos s = some P) (hp : 0 < p) :
    (m.seqRm c s p (-1)).1 = true ↔ (p ≤ P → P < llamaPosMax → P - (p - 1) ≤ c.nRsSeq) := by
  obtain ⟨t, htail, rfl⟩ := tailPos_eq_some.mp hpos
  have hlo : rangeLo p = p := if_neg (by omega)
  have hhi : rangeHi (-1) = llamaPosMax := rfl
  have hsize := c.nSeqMax_le
  have hpart : p ≠ 0 := by omega
  have hin : ¬(c.size : Int) ≤ s := by omega
  have hid : (0 : Int) ≤ s := Int.natCast_nonneg s
  have htail' : (m.cells (s : Int).toNat).tail = some t := htail
  unfold RecurrentMemory.seqRm
  simp only [hlo, hhi, hpart, false_and, if_false, if_neg hin, if_pos hid, htail']
  by_cases hrange : 0 < p ∧ p ≤ (m.cells t).pos ∧ (m.cells t).pos < llamaPosMax
  · rw [if_pos hrange]
    by_cases hback : 1 ≤ (m.cells t).pos - (p - 1) ∧ (m.cells t).pos - (p - 1) ≤ c.nRsSeq
    · simp [hback]
    · rw [if_neg hback]
      simp only [Bool.false_eq_true, false_iff]
      omega
  · rw [if_neg hrange]
    have hgo : ¬(p ≤ (m.cells t).pos ∧ (m.cells t).pos < llamaPosMax) := by omega
    rw [if_neg hgo]
    simp only [true_iff]
    omega

/-- **Two rollbacks.**  Where both calls succeed they leave what the second one alone leaves
exactly when the first one finds nothing to remove. -/
theorem rollbacks_compose_iff (hs : s < c.nSeqMax) (hpos : m.tailPos s = some P) (hq : 0 < q)
    (hqp : q < p) (hfirst : (m.seqRm c s p (-1)).1 = true)
    (hsecond : ((m.seqRm c s p (-1)).2.seqRm c s q (-1)).1 = true) :
    RollbacksCompose c m s P p q ↔ P < p ∨ llamaPosMax ≤ P := by
  cases seqRm_removed hs hpos (by omega) hfirst with
  | rolledBack hlo hhi hpos₁ hidx₁ hle₁ =>
    -- the second call counts from `p - 1`
    refine ⟨fun h => ?_, fun h => by omega⟩
    cases seqRm_removed hs hpos₁ hq hsecond with
    | rolledBack hlo₂ hhi₂ hpos₂ hidx₂ hle₂ =>
      have hsnap := (h.snapshot (by omega) hhi).1
      omega
    | kept hout => omega
  | kept hout hpos₁ hidx₁ =>
    refine ⟨fun _ => hout, fun _ => ?_⟩
    have honce : (m.seqRm c s q (-1)).1 = true :=
      (seqRm_accepts_iff hs hpos hq).mpr ((seqRm_accepts_iff hs hpos₁ hq).mp hsecond)
    cases seqRm_removed hs hpos₁ hq hsecond with
    | rolledBack hlo₂ hhi₂ hpos₂ hidx₂ hle₂ =>
      cases seqRm_removed hs hpos hq honce with
      | rolledBack hlo₃ hhi₃ hpos₃ hidx₃ hle₃ =>
        exact ⟨hpos₂.trans hpos₃.symm, Int.ofNat.inj (hidx₂.trans hidx₃.symm),
          fun _ _ => ⟨hidx₂, hle₂⟩⟩
      | kept hout₃ => omega
    | kept hout₂ hpos₂ hidx₂ =>
      cases seqRm_removed hs hpos hq honce with
      | rolledBack hlo₃ hhi₃ => omega
      | kept hout₃ hpos₃ hidx₃ =>
        exact ⟨hpos₂.trans hpos₃.symm, hidx₂.trans (hidx₁.trans hidx₃.symm),
          fun hlo hhi => by omega⟩

/-! ## What another sequence is read from -/

/-- Where the next decode reads the state of a sequence: the row of its cell, with the index
of the sequence where the batch names it, and with that of the first sequence of the cell
where the graph only copies the cell. -/
structure ReadFrom where
  row : Option Nat
  own : Nat
  carried : Nat

def readFrom (m : RecurrentMemory) (t : Nat) : Option ReadFrom :=
  match (m.cells t).tail with
  | none => none
  | some i =>
    if t ∈ (m.cells i).seqId then some ⟨(m.cells i).src, m.rsIdx t, m.cellIdx i⟩ else none

/-- `m'` has sequence `t` where `m` has it. -/
structure Isolates (c : RecurrentConfig) (m m' : RecurrentMemory) (t : Nat) : Prop where
  posMax : m'.seqPosMax c t = m.seqPosMax c t
  readFrom : m'.readFrom t = m.readFrom t

/-- The call is a rollback of cell `i`. -/
def RollsBack (m : RecurrentMemory) (s : Nat) (lo hi : Int) (i : Nat) : Prop :=
  (m.cells s).tail = some i ∧ 0 < lo ∧ lo ≤ (m.cells i).pos ∧ (m.cells i).pos < hi

/-- The index that a rollback stores. -/
def rollbackIdx (m : RecurrentMemory) (s : Nat) (lo hi : Int) : Option Nat :=
  match (m.cells s).tail with
  | none => none
  | some i =>
    if 0 < lo ∧ lo ≤ (m.cells i).pos ∧ (m.cells i).pos < hi then
      some ((m.cells i).pos - (lo - 1)).toNat
    else none

/-- The index of the first sequence of cell `j` after the call, where `s` was the first. -/
def nextIdx (c : RecurrentConfig) (m : RecurrentMemory) (s : Nat) (lo hi : Int) (j : Nat) : Nat :=
  match m.rollbackIdx s lo hi with
  | some n => n
  | none =>
    if j < c.size ∧ lo ≤ (m.cells j).pos ∧ (m.cells j).pos < hi then
      match firstId ((m.cells j).seqId.erase s) with
      | some u => m.rsIdx u
      | none => 0
    else if lo = 0 ∧ hi = llamaPosMax then 0
    else m.rsIdx s

/-- The call keeps to the cells of `s`. -/
structure KeepsApart (c : RecurrentConfig) (m : RecurrentMemory) (s t : Nat) (lo hi : Int) : Prop where
  /-- A rollback is not of a cell of `t`, unless `t` is also in another cell as far on. -/
  pos : ∀ i < c.size, m.RollsBack s lo hi i → t ∈ (m.cells i).seqId →
    ∃ j < c.size, j ≠ i ∧ t ∈ (m.cells j).seqId ∧ (m.cells i).pos ≤ (m.cells j).pos
  /-- A cell of `t` that is read with the index of `s` is read with the same index. -/
  idx : ∀ j, (m.cells t).tail = some j → t ∈ (m.cells j).seqId →
    firstId (m.cells j).seqId = some s → nextIdx c m s lo hi j = m.rsIdx s

/-! ### The first sequence of a cell -/

theorem firstId_le {u v : Nat} (h : firstId ids = some u) (hv : v ∈ ids) : u ≤ v := by
  have hsorted : List.Pairwise (· ≤ ·) (ids.sort (· ≤ ·)) := Finset.pairwise_sort ids (· ≤ ·)
  have hmem : v ∈ ids.sort (· ≤ ·) := (Finset.mem_sort (· ≤ ·)).mpr hv
  unfold firstId at h
  cases hlist : ids.sort (· ≤ ·) with
  | nil =>
    rw [hlist] at h
    cases h
  | cons a as =>
    rw [hlist] at h hsorted hmem
    obtain rfl := some.inj h
    rcases mem_cons.mp hmem with rfl | hmem
    · exact Nat.le_refl v
    · exact (pairwise_cons.mp hsorted).1 v hmem

theorem exists_firstId {v : Nat} (hv : v ∈ ids) : ∃ u, firstId ids = some u := by
  cases h : firstId ids with
  | none =>
    rw [firstId_eq_none.mp h] at hv
    exact absurd hv (Finset.notMem_empty v)
  | some u => exact ⟨u, rfl⟩

/-- The first sequence stays the first when another one leaves. -/
theorem firstId_erase {u : Nat} (h : firstId ids = some u) (hne : u ≠ s) : firstId (ids.erase s) = some u := by
  have hu : u ∈ ids.erase s := Finset.mem_erase.mpr ⟨hne, firstId_mem h⟩
  obtain ⟨v, hv⟩ := exists_firstId hu
  have hvu := firstId_le hv hu
  have huv := firstId_le h (Finset.mem_of_mem_erase (firstId_mem hv))
  rw [hv, Nat.le_antisymm hvu huv]

/-! ### The largest position of a sequence -/

theorem foldl_max_le {f : Nat → Bool} {g : Nat → Int} (is : List Nat) (start v : Int) :
    is.foldl (fun r i => if f i then max r (g i) else r) start ≤ v ↔ start ≤ v ∧ ∀ i ∈ is, f i = true → g i ≤ v := by
  induction is generalizing start with
  | nil => simp
  | cons i is ih =>
    rw [foldl_cons, ih]
    cases hf : f i with
    | false => simp [hf]
    | true => simp [hf, and_assoc]

theorem hasSeqId_natCast : cell.hasSeqId (t : Int) = true ↔ t ∈ cell.seqId := by
  simp [hasSeqId_iff]

theorem seqPosMax_le {v : Int} : m.seqPosMax c t ≤ v ↔
    -1 ≤ v ∧ ∀ i < c.size, t ∈ (m.cells i).seqId → (m.cells i).pos ≤ v := by
  unfold seqPosMax
  rw [foldl_max_le]
  simp only [mem_range, hasSeqId_natCast]

/-- The largest position only depends on the cells of the sequence. -/
theorem seqPosMax_congr (hseq : ∀ i, t ∈ (m'.cells i).seqId ↔ t ∈ (m.cells i).seqId)
    (hpos : ∀ i < c.size, t ∈ (m.cells i).seqId → (m'.cells i).pos = (m.cells i).pos) :
    m'.seqPosMax c t = m.seqPosMax c t := by
  refine eq_of_forall_ge_iff fun v => ?_
  rw [seqPosMax_le, seqPosMax_le]
  refine and_congr_right fun _ => forall₂_congr fun i hi => ?_
  rw [hseq]
  refine forall_congr' fun hmem => ?_
  rw [hpos i hi hmem]

/-- The cell of the largest position is moved back: the sequence only stays where it is when
it has another cell as far on. -/
theorem seqPosMax_modify (hi : i < c.size) (ht : t ∈ (m.cells i).seqId) (hlo : 0 < lo)
    (hpos : lo ≤ (m.cells i).pos) :
    (m.modify i fun cell => { cell with pos := lo - 1 }).seqPosMax c t = m.seqPosMax c t ↔
      ∃ j < c.size, j ≠ i ∧ t ∈ (m.cells j).seqId ∧ (m.cells i).pos ≤ (m.cells j).pos := by
  have hseq : ∀ j, ((m.modify i fun cell => { cell with pos := lo - 1 }).cells j).seqId = (m.cells j).seqId := by
    intro j
    by_cases hj : j = i
    · subst hj
      simp
    · simp [hj]
  have hnew : ∀ v, (m.modify i fun cell => { cell with pos := lo - 1 }).seqPosMax c t ≤ v ↔
      -1 ≤ v ∧ lo - 1 ≤ v ∧ ∀ j < c.size, j ≠ i → t ∈ (m.cells j).seqId → (m.cells j).pos ≤ v := by
    intro v
    rw [seqPosMax_le]
    refine and_congr_right fun _ => ⟨fun h => ⟨?_, fun j hj hne hmem => ?_⟩, fun h j hj hmem => ?_⟩
    · simpa using h i hi (by rw [hseq]; exact ht)
    · simpa [hne] using h j hj (by rw [hseq]; exact hmem)
    · rw [hseq] at hmem
      by_cases hne : j = i
      · subst hne
        simpa using h.1
      · simpa [hne] using h.2 j hj hne hmem
  constructor
  · intro heq
    by_contra hno
    push Not at hno
    have hbefore : (m.cells i).pos ≤ m.seqPosMax c t := (seqPosMax_le.mp (Int.le_refl _)).2 i hi ht
    have hafter : (m.modify i fun cell => { cell with pos := lo - 1 }).seqPosMax c t ≤ (m.cells i).pos - 1 :=
      (hnew _).mpr ⟨by omega, by omega, fun j hj hne hmem => by
        have := hno j hj hne hmem
        omega⟩
    omega
  · rintro ⟨j, hj, hne, hmem, hfar⟩
    refine eq_of_forall_ge_iff fun v => ?_
    rw [hnew, seqPosMax_le]
    refine and_congr_right fun _ => ⟨fun h k hk hin => ?_, fun h => ⟨?_, fun k hk _ => h k hk⟩⟩
    · by_cases hki : k = i
      · subst hki
        exact hfar.trans (h.2 j hj hne hmem)
      · exact h.2 k hk hki hin
    · have := h i hi ht
      omega

/-! ### A call that moves no cell -/

/-- A cell with another sequence loses at most `s`. -/
theorem remove_of_mem (hne : s ≠ t) (ht : t ∈ cell.seqId) : cell.remove s lo hi =
      { cell with seqId := if lo ≤ cell.pos ∧ cell.pos < hi then cell.seqId.erase s else cell.seqId } := by
  have hid : ¬(s : Int) < 0 := by omega
  have hleft : cell.left s = cell.seqId.erase s := if_neg hid
  have hkept : cell.seqId.erase s ≠ ∅ :=
    Finset.ne_empty_of_mem (Finset.mem_erase.mpr ⟨hne.symm, ht⟩)
  unfold RecurrentCell.remove RecurrentCell.Loses
  simp only [hasSeqId_natCast, hid, false_or, hleft, if_neg hkept]
  by_cases hs : s ∈ cell.seqId
  · simp only [hs, and_true]
    split <;> rfl
  · simp [hs]

theorem mem_remove (hne : s ≠ t) : t ∈ (cell.remove s lo hi).seqId ↔ t ∈ cell.seqId := by
  by_cases ht : t ∈ cell.seqId
  · rw [remove_of_mem hne ht]
    split
    · simp [ht, hne.symm]
    · rfl
  · have hid : ¬(s : Int) < 0 := by omega
    refine iff_of_false ?_ ht
    unfold RecurrentCell.remove RecurrentCell.left
    simp only [if_neg hid]
    split
    · split
      · exact Finset.notMem_empty t
      · exact fun h => ht (Finset.mem_of_mem_erase h)
    · exact ht

theorem resetWhole_rsIdx (hs : s < c.nSeqMax) (u : Nat) : (resetWhole c m s lo hi).rsIdx u =
    if u = s ∧ lo = 0 ∧ hi = llamaPosMax then 0 else m.rsIdx u := by
  have hid : (0 : Int) ≤ s := Int.natCast_nonneg s
  unfold resetWhole
  by_cases hall : lo = 0 ∧ hi = llamaPosMax
  · rw [if_pos hall, if_pos hid]
    by_cases hu : u = s
    · subst hu
      rw [setRsIdx_same hs (Nat.zero_le _), if_pos ⟨rfl, hall⟩]
    · rw [setRsIdx_ne hu, if_neg fun h => hu h.1]
  · rw [if_neg hall, if_neg fun h => hall h.2]

/-- The loop over the cells leaves `t` alone, but for the first sequence of its cell. -/
theorem swept_isolates_iff {m₀ : RecurrentMemory} (hs : s < c.nSeqMax) (hne : s ≠ t)
    (hno : m.rollbackIdx s lo hi = none)
    (hseq : ∀ j, (m₀.cells j).seqId = (m.cells j).seqId)
    (hpos : ∀ j, (m₀.cells j).pos = (m.cells j).pos)
    (hsrc : ∀ j, (m₀.cells j).src = (m.cells j).src)
    (htail : (m₀.cells t).tail = (m.cells t).tail)
    (hidx : m₀.rsIdx = (resetWhole c m s lo hi).rsIdx) :
    Isolates c m (m₀.seqRmCells c s lo hi) t ↔
      ∀ j, (m.cells t).tail = some j → t ∈ (m.cells j).seqId → firstId (m.cells j).seqId = some s →
        nextIdx c m s lo hi j = m.rsIdx s := by
  have hmem : ∀ j, t ∈ ((m₀.seqRmCells c s lo hi).cells j).seqId ↔ t ∈ (m.cells j).seqId := by
    intro j
    rw [seqRmCells_cells]
    split
    · rw [mem_remove hne, hseq]
    · rw [hseq]
  have hcell : ∀ j, t ∈ (m.cells j).seqId → (m₀.seqRmCells c s lo hi).cells j =
      { m₀.cells j with seqId :=
        if j < c.size ∧ lo ≤ (m.cells j).pos ∧ (m.cells j).pos < hi then (m.cells j).seqId.erase s
        else (m.cells j).seqId } := by
    intro j hj
    rw [seqRmCells_cells]
    by_cases hlt : j < c.size
    · rw [if_pos hlt, remove_of_mem hne (by rw [hseq]; exact hj)]
      simp only [hlt, true_and, hpos, hseq]
    · simp only [hlt, if_false, false_and, ← hseq]
  have hrs : ∀ u, (m₀.seqRmCells c s lo hi).rsIdx u = if u = s ∧ lo = 0 ∧ hi = llamaPosMax then 0 else m.rsIdx u := by
    intro u
    rw [seqRmCells_rsIdx, hidx, resetWhole_rsIdx hs]
  have hown : (m₀.seqRmCells c s lo hi).rsIdx t = m.rsIdx t := by
    rw [hrs, if_neg fun h => hne h.1.symm]
  have hmax : (m₀.seqRmCells c s lo hi).seqPosMax c t = m.seqPosMax c t :=
    seqPosMax_congr hmem fun j _ hj => by rw [hcell j hj, hpos]
  -- the index that the cell of `t` is read with
  have hcarried : ∀ j, t ∈ (m.cells j).seqId →
      ((m₀.seqRmCells c s lo hi).cellIdx j = m.cellIdx j ↔
        (firstId (m.cells j).seqId = some s → nextIdx c m s lo hi j = m.rsIdx s)) := by
    intro j hj
    obtain ⟨u, hu⟩ := exists_firstId hj
    have hafter : (m₀.seqRmCells c s lo hi).cellIdx j = if u = s then nextIdx c m s lo hi j else m.rsIdx u := by
      unfold cellIdx nextIdx
      rw [hcell j hj, hno]
      by_cases hlost : j < c.size ∧ lo ≤ (m.cells j).pos ∧ (m.cells j).pos < hi
      · rw [if_pos hlost, if_pos hlost]
        by_cases hus : u = s
        · obtain ⟨v, hv⟩ := exists_firstId (Finset.mem_erase.mpr ⟨hne.symm, hj⟩)
          have hvs : v ≠ s := Finset.ne_of_mem_erase (firstId_mem hv)
          rw [if_pos hus, hv]
          dsimp only
          rw [hrs, if_neg fun h => hvs h.1]
        · rw [if_neg hus, firstId_erase hu hus]
          dsimp only
          rw [hrs, if_neg fun h => hus h.1]
      · rw [if_neg hlost, if_neg hlost, hu]
        dsimp only
        rw [hrs]
        by_cases hus : u = s
        · simp only [hus, true_and, if_true]
        · rw [if_neg hus, if_neg fun h => hus h.1]
    have hbefore : m.cellIdx j = m.rsIdx u := by
      unfold cellIdx
      rw [hu]
    rw [hafter, hbefore, hu, some.injEq]
    by_cases hus : u = s
    · subst hus
      simp
    · simp [hus]
  have htail' : ((m₀.seqRmCells c s lo hi).cells t).tail = (m.cells t).tail := by
    rw [seqRmCells_tail, htail]
  constructor
  · rintro ⟨-, hread⟩ j hj hin
    refine (hcarried j hin).mp ?_
    unfold readFrom at hread
    simp only [htail', hj, hmem, hin, if_true, some.injEq, ReadFrom.mk.injEq] at hread
    exact hread.2.2
  · intro h
    refine ⟨hmax, ?_⟩
    unfold readFrom
    simp only [htail', hmem]
    cases hj : (m.cells t).tail with
    | none => rfl
    | some j =>
      by_cases hin : t ∈ (m.cells j).seqId
      · have hrow : ((m₀.seqRmCells c s lo hi).cells j).src = (m.cells j).src := by
          rw [hcell j hin, hsrc]
        simp only [hin, if_true, hrow, hown, (hcarried j hin).mpr (h j hj hin)]
      · simp only [hin, if_false]

/-! ### A rollback -/

theorem modifyPos_fields (i j : Nat) (pos : Int) :
    ((m.modify i fun cell => { cell with pos := pos }).cells j).seqId = (m.cells j).seqId ∧
      ((m.modify i fun cell => { cell with pos := pos }).cells j).tail = (m.cells j).tail ∧
      ((m.modify i fun cell => { cell with pos := pos }).cells j).src = (m.cells j).src ∧
      (j ≠ i → ((m.modify i fun cell => { cell with pos := pos }).cells j).pos = (m.cells j).pos) := by
  by_cases hj : j = i
  · subst hj
    simp
  · simp [hj]

theorem rolledBack_isolates_iff {n : Nat} (hs : s < c.nSeqMax) (hne : s ≠ t)
    (hrun : m.RollsBack s lo hi i) (hn : m.rollbackIdx s lo hi = some n) (hle : n ≤ c.nRsSeq) :
    Isolates c m ((m.setRsIdx c s n).modify i fun cell => { cell with pos := lo - 1 }) t ↔
      KeepsApart c m s t lo hi := by
  have hcells : (m.setRsIdx c s n).cells = m.cells := setRsIdx_cells ..
  have hfields := fun j => modifyPos_fields (m := m.setRsIdx c s n) i j (lo - 1)
  rw [hcells] at hfields
  have hrs : ∀ u, ((m.setRsIdx c s n).modify i fun cell => { cell with pos := lo - 1 }).rsIdx u =
      if u = s then n else m.rsIdx u := by
    intro u
    rw [modify_rsIdx]
    by_cases hu : u = s
    · rw [if_pos hu, hu, setRsIdx_same hs hle]
    · rw [if_neg hu, setRsIdx_ne hu]
  have hmax : ((m.setRsIdx c s n).modify i fun cell => { cell with pos := lo - 1 }).seqPosMax c t =
      m.seqPosMax c t ↔ (i < c.size → t ∈ (m.cells i).seqId →
        ∃ j < c.size, j ≠ i ∧ t ∈ (m.cells j).seqId ∧ (m.cells i).pos ≤ (m.cells j).pos) := by
    have hsame : ((m.setRsIdx c s n).modify i fun cell => { cell with pos := lo - 1 }).seqPosMax c t =
        (m.modify i fun cell => { cell with pos := lo - 1 }).seqPosMax c t := by
      refine seqPosMax_congr (fun j => ?_) fun j _ _ => ?_
      · rw [(hfields j).1, (modifyPos_fields i j (lo - 1)).1]
      · by_cases hj : j = i
        · subst hj
          simp
        · rw [(hfields j).2.2.2 hj, (modifyPos_fields i j (lo - 1)).2.2.2 hj]
    rw [hsame]
    by_cases hin : i < c.size ∧ t ∈ (m.cells i).seqId
    · rw [seqPosMax_modify hin.1 hin.2 hrun.2.1 hrun.2.2.1]
      exact ⟨fun h _ _ => h, fun h => h hin.1 hin.2⟩
    · refine iff_of_true (seqPosMax_congr (fun j => by rw [(modifyPos_fields i j _).1])
        fun j hj hmem => (modifyPos_fields i j _).2.2.2 ?_) fun h1 h2 => absurd ⟨h1, h2⟩ hin
      rintro rfl
      exact hin ⟨hj, hmem⟩
  have hcarried : ∀ j, t ∈ (m.cells j).seqId →
      (((m.setRsIdx c s n).modify i fun cell => { cell with pos := lo - 1 }).cellIdx j = m.cellIdx j ↔
        (firstId (m.cells j).seqId = some s → nextIdx c m s lo hi j = m.rsIdx s)) := by
    intro j hj
    obtain ⟨u, hu⟩ := exists_firstId hj
    unfold cellIdx nextIdx
    rw [(hfields j).1, hu, hn, some.injEq]
    dsimp only
    rw [hrs]
    by_cases hus : u = s
    · subst hus
      simp
    · simp [hus]
  have hread : ((m.setRsIdx c s n).modify i fun cell => { cell with pos := lo - 1 }).readFrom t =
      m.readFrom t ↔ ∀ j, (m.cells t).tail = some j → t ∈ (m.cells j).seqId →
        firstId (m.cells j).seqId = some s → nextIdx c m s lo hi j = m.rsIdx s := by
    unfold readFrom
    rw [(hfields t).2.1]
    cases hj : (m.cells t).tail with
    | none => simp
    | some j =>
      simp only [(hfields j).1, (hfields j).2.2.1, hrs, if_neg hne.symm]
      by_cases hin : t ∈ (m.cells j).seqId
      · simp only [hin, if_true, some.injEq, ReadFrom.mk.injEq, true_and, hcarried j hin]
        exact ⟨fun h k hk _ => hk ▸ h, fun h => h j rfl hin⟩
      · simp only [hin, if_false, true_iff]
        intro k hk hmem
        obtain rfl := some.inj hk
        exact absurd hmem hin
  constructor
  · rintro ⟨h1, h2⟩
    refine ⟨fun k hk hback hmem => ?_, hread.mp h2⟩
    obtain rfl : i = k := some.inj (hrun.1.symm.trans hback.1)
    exact hmax.mp h1 hk hmem
  · rintro ⟨h1, h2⟩
    exact ⟨hmax.mpr fun hk hmem => h1 i hk hrun hmem, hread.mpr h2⟩

theorem rollbackIdx_eq_some {n : Nat} : m.rollbackIdx s lo hi = some n ↔
    ∃ i, m.RollsBack s lo hi i ∧ ((m.cells i).pos - (lo - 1)).toNat = n := by
  unfold rollbackIdx RollsBack
  cases (m.cells s).tail with
  | none => simp
  | some i => simp

theorem rollbackIdx_eq_none (h : ∀ i, ¬m.RollsBack s lo hi i) : m.rollbackIdx s lo hi = none := by
  cases hidx : m.rollbackIdx s lo hi with
  | none => rfl
  | some n =>
    obtain ⟨i, hi, -⟩ := rollbackIdx_eq_some.mp hidx
    exact absurd hi (h i)

/-- **Isolation.**  A removal of `s` that succeeds leaves another sequence where it is exactly
when it keeps to the cells of `s`. -/
theorem seqRm_isolates_iff {p0 p1 : Int} (hs : s < c.nSeqMax) (hne : s ≠ t)
    (hok : (m.seqRm c s p0 p1).1 = true) :
    Isolates c m (m.seqRm c s p0 p1).2 t ↔ KeepsApart c m s t (rangeLo p0) (rangeHi p1) := by
  have hcase := @seqRm_removal c m s p0 p1
  generalize rangeLo p0 = lo at hcase ⊢
  generalize rangeHi p1 = hi at hcase ⊢
  generalize m.seqRm c s p0 p1 = result at hcase hok ⊢
  have hid : (0 : Int) ≤ s := Int.natCast_nonneg s
  have hapart : (∀ i, ¬m.RollsBack s lo hi i) → (KeepsApart c m s t lo hi ↔
      ∀ j, (m.cells t).tail = some j → t ∈ (m.cells j).seqId → firstId (m.cells j).seqId = some s →
        nextIdx c m s lo hi j = m.rsIdx s) :=
    fun hno => ⟨fun h => h.idx, fun h => ⟨fun i _ hback => absurd hback (hno i), h⟩⟩
  cases hcase with
  | refused => cases hok
  | sweep hlt hone hall =>
    have hno : ∀ i, ¬m.RollsBack s lo hi i := fun i h => hone hid i h.1 h.2.2
    rw [hapart hno]
    refine swept_isolates_iff hs hne (rollbackIdx_eq_none hno) (fun j => ?_) (fun j => ?_)
      (fun j => ?_) ?_ rfl
    all_goals rw [resetWhole_cells]
  | rollback i hs' hlt htail hpart hlo hhi hn =>
    have hrun : m.RollsBack s lo hi i := ⟨htail, hpart, hlo, hhi⟩
    exact rolledBack_isolates_iff hs hne hrun (rollbackIdx_eq_some.mpr ⟨i, hrun, rfl⟩) (by omega)
  | drop i hs' hlt htail hfrom hlo hhi =>
    have hno : ∀ i, ¬m.RollsBack s lo hi i := fun i h => hfrom h.2.1
    rw [hapart hno]
    refine swept_isolates_iff hs hne (rollbackIdx_eq_none hno) (fun j => ?_) (fun j => ?_)
      (fun j => ?_) ?_ rfl
    · rw [setTail_seqId, resetWhole_cells]
    · rw [setTail_pos, resetWhole_cells]
    · rw [setTail_src, resetWhole_cells]
    · have hts : t ≠ (s : Int).toNat := by omega
      rw [setTail_tail_ne hts, resetWhole_cells]

/-! ### What the next decode reads -/

section Decode

variable {ubatch : RecurrentUbatch}

end Decode

/-! ## Three tokens -/

/-- Two cells with two older states. -/
def threeStates : RecurrentConfig := ⟨2, 2, 2, Nat.two_pos, twoCells.nSeqMax_le, by decide⟩

/-- Three tokens of sequence 0. -/
def threeTokens : RecurrentUbatch where
  bEqualSeqs := true
  nSeqTokens := 3
  nSeqs := 1
  pos := fun i => i
  seqId := fun _ => [0]

theorem threeTokens_wellFormed : threeTokens.WellFormed := by
  refine ⟨rfl, by decide, by decide, fun s _ => by simp [RecurrentUbatch.seqSet, threeTokens],
    fun s _ => by simp [RecurrentUbatch.seqSet, threeTokens], fun s hs t ht hne => ?_⟩
  change s < 1 at hs
  change t < 1 at ht
  omega

def countThree : SessionOp Nat := .decode threeTokens (fun _ j a => a + j) fun _ => 0

theorem countThree_ok : countThree.Ok := ⟨threeTokens_wellFormed, fun _ _ => Int.natCast_nonneg _⟩

theorem rollbacks_compose_iff_after :
    ∃ m, m.tailPos 0 = some 2 ∧
      (RollbacksCompose threeStates m 0 2 3 1 ↔ (2 : Int) < 3 ∨ llamaPosMax ≤ 2) := by
  have hrun : ((Session.init fun _ => 0).step threeStates 0 countThree).map (fun σ =>
      decide (σ.mem.tailPos 0 = some 2) && (σ.mem.seqRm threeStates 0 3 (-1)).1 &&
        ((σ.mem.seqRm threeStates 0 3 (-1)).2.seqRm threeStates 0 1 (-1)).1) = some true := by
    decide +kernel
  obtain ⟨σ, -, hval⟩ := map_eq_some_iff.mp hrun
  simp only [Bool.and_eq_true, decide_eq_true_eq] at hval
  obtain ⟨⟨hpos, hfirst⟩, hsecond⟩ := hval
  exact ⟨σ.mem, hpos, rollbacks_compose_iff (by decide) hpos (by decide) (by decide) hfirst hsecond⟩

/-- After a rollback by one token a second one by one token reads the state of the first. -/
theorem rollbacks_lose_index : ∃ σ : Session Nat,
    Runs.Reaches (Session.step threeStates 0) (fun _ op => op.Ok) (Session.init fun _ => 0) σ ∧
      σ.mem.tailPos 0 = some 2 ∧ (σ.mem.seqRm threeStates 0 2 (-1)).1 = true ∧
      ((σ.mem.seqRm threeStates 0 2 (-1)).2.seqRm threeStates 0 1 (-1)).1 = true ∧
      ¬RollbacksCompose threeStates σ.mem 0 2 2 1 := by
  have hrun : ((Session.init fun _ => 0).step threeStates 0 countThree).map (fun σ =>
      decide (σ.mem.tailPos 0 = some 2) && (σ.mem.seqRm threeStates 0 2 (-1)).1 &&
        ((σ.mem.seqRm threeStates 0 2 (-1)).2.seqRm threeStates 0 1 (-1)).1 &&
        decide (((σ.mem.seqRm threeStates 0 2 (-1)).2.seqRm threeStates 0 1 (-1)).2.rsIdx 0 = 1 ∧
          (σ.mem.seqRm threeStates 0 1 (-1)).2.rsIdx 0 = 2)) = some true := by
    decide +kernel
  obtain ⟨σ, hσ, hval⟩ := map_eq_some_iff.mp hrun
  simp only [Bool.and_eq_true, decide_eq_true_eq] at hval
  obtain ⟨⟨⟨hpos, hfirst⟩, hsecond⟩, htwice, honce⟩ := hval
  refine ⟨σ, .step .refl countThree_ok hσ, hpos, hfirst, hsecond, fun h => ?_⟩
  have heq := h.rsIdx
  change _ = (σ.mem.seqRm threeStates 0 1 (-1)).2.rsIdx 0 at heq
  rw [honce] at heq
  exact absurd (htwice.symm.trans heq) (by decide)

def copiedThree : List (SessionOp Nat) := [countThree, .seqCp 0 1]

theorem seqRm_isolates_iff_copied :
    ∃ m, m.tailPos 1 = some 2 ∧ (Isolates threeStates m (m.seqRm threeStates 0 (-1) (-1)).2 1 ↔
      KeepsApart threeStates m 0 1 (rangeLo (-1)) (rangeHi (-1))) := by
  have hrun : (copiedThree.foldlM (Session.step threeStates 0) (Session.init fun _ => 0)).map (fun σ =>
      decide (σ.mem.tailPos 1 = some 2) && (σ.mem.seqRm threeStates 0 (-1) (-1)).1) = some true := by
    decide +kernel
  obtain ⟨σ, -, hval⟩ := map_eq_some_iff.mp hrun
  simp only [Bool.and_eq_true, decide_eq_true_eq] at hval
  exact ⟨σ.mem, hval.1, seqRm_isolates_iff (by decide) (by decide) hval.2⟩

/-- A rollback of the sequence moves the copy. -/
theorem rollback_moves_copy : ∃ σ : Session Nat,
    Runs.Reaches (Session.step threeStates 0) (fun _ op => op.Ok) (Session.init fun _ => 0) σ ∧
      (σ.mem.seqRm threeStates 0 2 (-1)).1 = true ∧ σ.mem.seqPosMax threeStates 1 = 2 ∧
      (σ.mem.seqRm threeStates 0 2 (-1)).2.seqPosMax threeStates 1 = 1 ∧
      ¬Isolates threeStates σ.mem (σ.mem.seqRm threeStates 0 2 (-1)).2 1 := by
  have hrun : (copiedThree.foldlM (Session.step threeStates 0) (Session.init fun _ => 0)).map (fun σ =>
      (σ.mem.seqRm threeStates 0 2 (-1)).1 && decide (σ.mem.seqPosMax threeStates 1 = 2 ∧
        (σ.mem.seqRm threeStates 0 2 (-1)).2.seqPosMax threeStates 1 = 1)) = some true := by
    decide +kernel
  obtain ⟨σ, hσ, hval⟩ := map_eq_some_iff.mp hrun
  simp only [Bool.and_eq_true, decide_eq_true_eq] at hval
  obtain ⟨hok, hbefore, hafter⟩ := hval
  refine ⟨σ, Runs.Reaches.refl.ofList (fun op hop _ => ?_) hσ, hok, hbefore, hafter, fun h => ?_⟩
  · simp only [copiedThree, mem_cons, not_mem_nil, or_false] at hop
    rcases hop with rfl | rfl
    · exact countThree_ok
    · trivial
  · have hmax := h.posMax
    change _ = σ.mem.seqPosMax threeStates 1 at hmax
    rw [hbefore] at hmax
    exact absurd (hafter.symm.trans hmax) (by decide)

end LlamaCpp.RecurrentMemory
