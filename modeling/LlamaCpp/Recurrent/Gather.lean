import LlamaCpp.Recurrent.Claim

/-!
# Moving the cells of a ubatch

The second half of `find_slot`.  Gathering the claimed cells permutes the contents of the
cells and the tails with them (`Moved`), and entering the sets rewrites the gathered cells
(`enterSets_spec`).  Staging the source rows only needs a row for a cell without a source
(`stageCells_eq`).
-/

namespace LlamaCpp.RecurrentMemory

open List Option

variable {c : RecurrentConfig} {m m' : RecurrentMemory}

/-! ## Gathering -/

/-- The contents of the cells from `lo` to `hi` are permuted, and the tails with them. -/
structure Moved (lo hi : Nat) (m m' : RecurrentMemory) (π : Equiv.Perm Nat) : Prop where
  fixes : ∀ i, i < lo ∨ hi < i → π i = i
  pos : ∀ i, (m'.cells (π i)).pos = (m.cells i).pos
  src : ∀ i, (m'.cells (π i)).src = (m.cells i).src
  seqId : ∀ i, (m'.cells (π i)).seqId = (m.cells i).seqId
  tail : ∀ t, (m'.cells t).tail = (m.cells t).tail.map π
  head : m'.head = m.head
  rsIdx : m'.rsIdx = m.rsIdx

variable {lo hi : Nat} {π : Equiv.Perm Nat} {ubatch : RecurrentUbatch}

theorem Moved.refl (lo hi : Nat) (m : RecurrentMemory) : Moved lo hi m m (Equiv.refl Nat) where
  fixes _ _ := rfl
  pos _ := rfl
  src _ := rfl
  seqId _ := rfl
  tail t := by simp
  head := rfl
  rsIdx := rfl

theorem Moved.trans {m'' : RecurrentMemory} {ρ : Equiv.Perm Nat} (h : Moved lo hi m m' π)
    (h' : Moved lo hi m' m'' ρ) : Moved lo hi m m'' (π.trans ρ) where
  fixes i hi := by rw [Equiv.trans_apply, h.fixes i hi, h'.fixes i hi]
  pos i := by rw [Equiv.trans_apply, h'.pos, h.pos]
  src i := by rw [Equiv.trans_apply, h'.src, h.src]
  seqId i := by rw [Equiv.trans_apply, h'.seqId, h.seqId]
  tail t := by
    rw [h'.tail, h.tail, Option.map_map]
    rfl
  head := h'.head.trans h.head
  rsIdx := h'.rsIdx.trans h.rsIdx

/-- A cell of the range stays in it. -/
theorem Moved.within (h : Moved lo hi m m' π) {i : Nat} (hlo : lo ≤ i) (hhi : i ≤ hi) : lo ≤ π i ∧ π i ≤ hi := by
  by_contra hout
  have hfix := h.fixes (π i) (by omega)
  have heq : π i = i := π.injective hfix
  omega

/-- Swapping two cells of the range. -/
theorem swapCells_moved (hlt : TailsLt c m) {d s : Nat} (hne : d ≠ s) (hd : lo ≤ d ∧ d ≤ hi)
    (hs : lo ≤ s ∧ s ≤ hi) : Moved lo hi m (m.swapCells c d s) (Equiv.swap d s) := by
  have hcells : ∀ i, ((m.swapCells c d s).cells i).pos = (m.cells (Equiv.swap d s i)).pos ∧
      ((m.swapCells c d s).cells i).src = (m.cells (Equiv.swap d s i)).src ∧
      ((m.swapCells c d s).cells i).seqId = (m.cells (Equiv.swap d s i)).seqId := by
    intro i
    unfold swapCells
    dsimp only
    by_cases hid : i = d
    · subst hid
      rw [Equiv.swap_apply_left]
      split <;> simp [hne]
    · by_cases his : i = s
      · subst his
        rw [Equiv.swap_apply_right]
        split <;> simp
      · rw [Equiv.swap_apply_of_ne_of_ne hid his]
        split <;> simp [hid, his]
  refine ⟨fun i hi => ?_, fun i => ?_, fun i => ?_, fun i => ?_, fun t => ?_, rfl, rfl⟩
  · exact Equiv.swap_apply_of_ne_of_ne (by omega) (by omega)
  · rw [(hcells _).1, Equiv.swap_apply_self]
  · rw [(hcells _).2.1, Equiv.swap_apply_self]
  · rw [(hcells _).2.2, Equiv.swap_apply_self]
  · have htail : ∀ (f g : RecurrentCell → RecurrentCell) (j : Nat),
        (∀ cell, (f cell).tail = cell.tail) → (∀ cell, (g cell).tail = cell.tail) →
        (((m.modify d f).modify s g).cells j).tail = (m.cells j).tail := by
      intro f g j hf hg
      by_cases hjs : j = s
      · subst hjs
        simp [Ne.symm hne, hg]
      · by_cases hjd : j = d
        · subst hjd
          simp [hne, hf]
        · simp [hjs, hjd]
    have hswap : ((m.swapCells c d s).cells t).tail = if t < c.size then
        (if (m.cells t).tail = some s then some d
        else if (m.cells t).tail = some d then some s else (m.cells t).tail)
        else (m.cells t).tail := by
      unfold swapCells
      dsimp only
      split
      · dsimp only
        rw [htail]
        · exact fun _ => rfl
        · exact fun _ => rfl
      · rw [htail]
        · exact fun _ => rfl
        · exact fun _ => rfl
    rw [hswap]
    cases hcell : (m.cells t).tail with
    | none => simp
    | some i =>
      rw [if_pos (hlt t i hcell).1, map_some]
      by_cases his : i = s
      · subst his
        rw [if_pos rfl, Equiv.swap_apply_right]
      · by_cases hid : i = d
        · subst hid
          rw [if_neg (by simpa using his), if_pos rfl, Equiv.swap_apply_left]
        · rw [if_neg (by simpa using his), if_neg (by simpa using hid), Equiv.swap_apply_of_ne_of_ne hid his]

theorem Moved.tailsLt (h : Moved lo hi m m' π) (hlt : TailsLt c m) (hhi : hi < c.size) : TailsLt c m' := by
  intro s i hs
  rw [h.tail] at hs
  obtain ⟨j, hj, rfl⟩ := map_eq_some_iff.mp hs
  refine ⟨(hlt s j hj).1, ?_⟩
  by_cases hin : lo ≤ j ∧ j ≤ hi
  · have := h.within hin.1 hin.2
    omega
  · rw [h.fixes j (by omega)]
    exact (hlt s j hj).2

/-- The cells of the sets are moved to `lo`, `lo + 1`, and so on. -/
theorem gatherCells_ok (hlt : TailsLt c m) (hhi : hi < c.size) (hroom : lo + ubatch.nSeqs ≤ hi + 1)
    (hown : ∀ s < ubatch.nSeqs, ∃ i, (m.cells (ubatch.first s)).tail = some i ∧
      (∀ t, (m.cells t).tail = some i → t = ubatch.first s) ∧ lo ≤ i ∧ i ≤ hi)
    (hinj : ∀ s < ubatch.nSeqs, ∀ t < ubatch.nSeqs, ubatch.first s = ubatch.first t → s = t) :
    ∃ m' π, (List.range ubatch.nSeqs).foldlM (gatherCell c ubatch lo) m = some m' ∧
      Moved lo hi m m' π ∧
      ∀ s < ubatch.nSeqs, (m'.cells (ubatch.first s)).tail = some (s + lo) := by
  obtain ⟨m', hrun, π, hmoved, hplaced⟩ := @Loops.foldlM_range_ok RecurrentMemory
    (gatherCell c ubatch lo)
    (fun k m' => ∃ π, Moved lo hi m m' π ∧ ∀ s < k, (m'.cells (ubatch.first s)).tail = some (s + lo)) ubatch.nSeqs m
    ⟨Equiv.refl Nat, .refl lo hi m, fun s hs => absurd hs (Nat.not_lt_zero s)⟩ (by
      rintro k hk m' ⟨π, hmoved, hplaced⟩
      obtain ⟨i, hi, honly, hilo, hihi⟩ := hown k hk
      have htail : (m'.cells (ubatch.first k)).tail = some (π i) := by
        rw [hmoved.tail, hi, map_some]
      have hin := hmoved.within hilo hihi
      rw [gatherCell, htail]
      dsimp only
      by_cases heq : k + lo = π i
      · rw [if_neg (not_not.mpr heq)]
        refine ⟨m', rfl, π, hmoved, fun s hs => ?_⟩
        rcases Nat.lt_succ_iff_lt_or_eq.mp hs with hs | rfl
        · exact hplaced s hs
        · rw [htail, heq]
      · rw [if_pos heq]
        have hswap := swapCells_moved (hmoved.tailsLt hlt hhi) heq (by omega) hin
        refine ⟨_, rfl, _, hmoved.trans hswap, fun s hs => ?_⟩
        rw [hswap.tail]
        rcases Nat.lt_succ_iff_lt_or_eq.mp hs with hs | rfl
        · rw [hplaced s hs, map_some, Equiv.swap_apply_of_ne_of_ne (by omega)]
          -- the cells of two sets differ
          intro hsi
          obtain ⟨j, hj, -⟩ := hown s (by omega)
          have hs' := hplaced s hs
          rw [hmoved.tail, hj, map_some, hsi] at hs'
          obtain rfl := π.injective (some.inj hs')
          have := hinj s (by omega) k hk (honly _ hj)
          omega
        · rw [htail, map_some, Equiv.swap_apply_right])
  exact ⟨m', π, hrun, hmoved, hplaced⟩

/-! ## Entering the sets -/

/-- The sequences of set `s`. -/
def setIds (ubatch : RecurrentUbatch) (s : Nat) : Finset Nat :=
  ((ubatch.seqSet s).map Int.toNat).toFinset

/-- A cell gets a position and sequences, and these sequences get the cell. -/
structure Entered (m : RecurrentMemory) (cellId : Nat) (pos : Int) (ids : Finset Nat)
    (m' : RecurrentMemory) : Prop where
  pos : ∀ i, (m'.cells i).pos = if i = cellId then pos else (m.cells i).pos
  src : ∀ i, (m'.cells i).src = (m.cells i).src
  seqId : ∀ i, (m'.cells i).seqId = if i = cellId then ids else (m.cells i).seqId
  tail : ∀ t, (m'.cells t).tail = if t ∈ ids then some cellId else (m.cells t).tail
  head : m'.head = m.head
  rsIdx : m'.rsIdx = m.rsIdx

theorem Entered.seq {cellId : Nat} {pos : Int} {ids : Finset Nat}
    (h : Entered m cellId pos ids m') (seqId : Int) :
    Entered m cellId pos (insert seqId.toNat ids) (enterSeq cellId m' seqId) := by
  unfold enterSeq
  refine ⟨fun i => ?_, fun i => ?_, fun i => ?_, fun t => ?_, h.head, h.rsIdx⟩
  · rw [setTail_pos, ← h.pos]
    by_cases hi : i = cellId
    · subst hi
      simp
    · simp [hi]
  · rw [setTail_src, ← h.src]
    by_cases hi : i = cellId
    · subst hi
      simp
    · simp [hi]
  · rw [setTail_seqId]
    by_cases hi : i = cellId
    · subst hi
      simp [h.seqId]
    · simp [hi, h.seqId]
  · have htail : ((m'.modify cellId fun cell =>
        { cell with seqId := insert seqId.toNat cell.seqId }).cells t).tail = (m'.cells t).tail := by
      by_cases ht : t = cellId
      · subst ht
        simp
      · simp [ht]
    by_cases ht : t = seqId.toNat
    · simp [ht]
    · rw [setTail_tail_ne ht, htail, h.tail]
      simp [ht]

theorem enterSet_entered (lo s : Nat) :
    Entered m (s + lo) (ubatch.lastPos s) (setIds ubatch s) (enterSet ubatch lo m s) := by
  have hloop : ∀ (ids : List Int) (done : Finset Nat) (m' : RecurrentMemory),
      Entered m (s + lo) (ubatch.lastPos s) done m' →
      Entered m (s + lo) (ubatch.lastPos s) (done ∪ (ids.map Int.toNat).toFinset)
        (ids.foldl (enterSeq (s + lo)) m') := by
    intro ids
    induction ids with
    | nil => exact fun done m' h => by simpa using h
    | cons id ids ih =>
      intro done m' h
      have hids : done ∪ ((id :: ids).map Int.toNat).toFinset =
          insert id.toNat done ∪ (ids.map Int.toNat).toFinset := by
        rw [map_cons, toFinset_cons, Finset.union_insert, Finset.insert_union]
      rw [hids, foldl_cons]
      exact ih _ _ (h.seq id)
  have hstart : Entered m (s + lo) (ubatch.lastPos s) ∅ (m.modify (s + lo) fun cell =>
      { cell with pos := ubatch.lastPos s, seqId := ∅ }) := by
    refine ⟨fun i => ?_, fun i => ?_, fun i => ?_, fun t => ?_, rfl, rfl⟩
    · by_cases hi : i = s + lo
      · subst hi
        simp
      · simp [hi]
    · by_cases hi : i = s + lo
      · subst hi
        simp
      · simp [hi]
    · by_cases hi : i = s + lo
      · subst hi
        simp
      · simp [hi]
    · by_cases ht : t = s + lo
      · subst ht
        simp
      · simp [ht]
  have hall := hloop (ubatch.seqSet s) ∅ _ hstart
  rwa [Finset.empty_union] at hall

structure EnteredAll (ubatch : RecurrentUbatch) (lo k : Nat) (m m' : RecurrentMemory) : Prop where
  src : ∀ i, (m'.cells i).src = (m.cells i).src
  /-- The cells of the sets. -/
  setPos : ∀ s < k, (m'.cells (s + lo)).pos = ubatch.lastPos s
  setSeqId : ∀ s < k, (m'.cells (s + lo)).seqId = setIds ubatch s
  setTail : ∀ s < k, ∀ t ∈ setIds ubatch s, (m'.cells t).tail = some (s + lo)
  /-- The other cells and sequences. -/
  pos : ∀ i, i < lo ∨ lo + k ≤ i → (m'.cells i).pos = (m.cells i).pos
  seqId : ∀ i, i < lo ∨ lo + k ≤ i → (m'.cells i).seqId = (m.cells i).seqId
  tail : ∀ t, (∀ s < k, t ∉ setIds ubatch s) → (m'.cells t).tail = (m.cells t).tail
  head : m'.head = m.head
  rsIdx : m'.rsIdx = m.rsIdx

theorem enterSets_spec (lo : Nat) (hdisj : ∀ s < ubatch.nSeqs, ∀ t < ubatch.nSeqs, s ≠ t →
      Disjoint (setIds ubatch s) (setIds ubatch t)) : EnteredAll ubatch lo ubatch.nSeqs m
      ((List.range ubatch.nSeqs).foldl (enterSet ubatch lo) m) := by
  refine @Loops.foldl_range_inv RecurrentMemory (enterSet ubatch lo)
    (fun k m' => EnteredAll ubatch lo k m m') ubatch.nSeqs m ?_ ?_
  · refine ⟨fun _ => rfl, ?_, ?_, ?_, fun _ _ => rfl, fun _ _ => rfl, fun _ _ => rfl, rfl, rfl⟩ <;>
      exact fun s hs => absurd hs (Nat.not_lt_zero s)
  · intro k hk m' h
    have hone := @enterSet_entered m' ubatch lo k
    refine ⟨fun i => (hone.src i).trans (h.src i), fun s hs => ?_, fun s hs => ?_, fun s hs t ht => ?_,
      fun i hi => ?_, fun i hi => ?_, fun t ht => ?_, hone.head.trans h.head,
      hone.rsIdx.trans h.rsIdx⟩
    · rw [hone.pos]
      rcases Nat.lt_succ_iff_lt_or_eq.mp hs with hs | rfl
      · rw [if_neg (by omega), h.setPos s hs]
      · rw [if_pos rfl]
    · rw [hone.seqId]
      rcases Nat.lt_succ_iff_lt_or_eq.mp hs with hs | rfl
      · rw [if_neg (by omega), h.setSeqId s hs]
      · rw [if_pos rfl]
    · rw [hone.tail]
      rcases Nat.lt_succ_iff_lt_or_eq.mp hs with hs | rfl
      · have hno : t ∉ setIds ubatch k :=
          Finset.disjoint_left.mp (hdisj s (by omega) k hk (by omega)) ht
        rw [if_neg hno, h.setTail s hs t ht]
      · rw [if_pos ht]
    · rw [hone.pos, if_neg (by omega)]
      exact h.pos i (by omega)
    · rw [hone.seqId, if_neg (by omega)]
      exact h.seqId i (by omega)
    · rw [hone.tail, if_neg (ht k (Nat.lt_succ_self k))]
      exact h.tail t fun s hs => ht s (Nat.lt_succ_of_lt hs)

/-! ## Staging -/

def stagedCell (z : Option Nat) (i : Nat) (cell : RecurrentCell) : RecurrentCell :=
  { cell with src0 := if cell.src = none then z else cell.src, src := some i }

/-- The memory with the cells from `a` on staged. -/
def staged (m : RecurrentMemory) (a k : Nat) : RecurrentMemory :=
  { m with cells := fun i =>
    if a ≤ i ∧ i < a + k then stagedCell m.rsZ i (m.cells i) else m.cells i }

theorem stageCell_eq (i : Nat) : stageCell m i =
    if (m.cells i).src = none ∧ m.rsZ = none then none
    else some (m.modify i (stagedCell m.rsZ i)) := by
  unfold stageCell
  cases hsrc : (m.cells i).src with
  | none =>
    cases hz : m.rsZ with
    | none => simp
    | some z =>
      rw [if_neg (by simp)]
      simp only [modify, stagedCell, hsrc, if_true]
  | some r =>
    rw [if_neg (by simp)]
    simp only [modify, stagedCell, hsrc]
    simp

theorem staged_zero (a : Nat) : m.staged a 0 = m := by
  have hno : ∀ i, ¬(a ≤ i ∧ i < a + 0) := fun i => by omega
  unfold staged
  simp only [hno, if_false]

theorem staged_succ (a k : Nat) : (m.staged a k).modify (a + k) (stagedCell m.rsZ (a + k)) = m.staged a (k + 1) := by
  have hlast : (m.staged a k).cells (a + k) = m.cells (a + k) := by simp [staged]
  unfold modify
  rw [hlast]
  unfold staged
  congr 1
  funext i
  by_cases hi : i = a + k
  · subst hi
    simp
  · rw [Function.update_of_ne hi]
    have hiff : (a ≤ i ∧ i < a + k) ↔ (a ≤ i ∧ i < a + (k + 1)) := by omega
    simp only [hiff]

theorem stageCells_succ (a k : Nat) (h : (List.range' a k).foldlM stageCell m = some (m.staged a k)) :
    (List.range' a (k + 1)).foldlM stageCell m =
      if (m.cells (a + k)).src = none ∧ m.rsZ = none then none else some (m.staged a (k + 1)) := by
  have hlast : (m.staged a k).cells (a + k) = m.cells (a + k) := by simp [staged]
  have hz : (m.staged a k).rsZ = m.rsZ := rfl
  rw [range'_1_concat, foldlM_append, h]
  simp only [bind_eq_bind, bind_some, foldlM_cons, foldlM_nil, Option.pure_def, stageCell_eq, hlast, hz, staged_succ]
  split <;> rfl

/-- Staging needs a row for the cells without a source. -/
theorem stageCells_ok (a k : Nat)
    (h : ∀ i, a ≤ i → i < a + k → (m.cells i).src = none → m.rsZ ≠ none) :
    (List.range' a k).foldlM stageCell m = some (m.staged a k) := by
  induction k with
  | zero => rw [staged_zero, range'_zero, foldlM_nil, Option.pure_def]
  | succ k ih =>
    rw [stageCells_succ a k (ih fun i h1 h2 => h i h1 (by omega)), if_neg]
    exact fun hbad => h (a + k) (by omega) (by omega) hbad.1 hbad.2

theorem stageCells_result (a k : Nat) : (List.range' a k).foldlM stageCell m = none ∨
    (List.range' a k).foldlM stageCell m = some (m.staged a k) := by
  induction k with
  | zero => exact .inr (by rw [staged_zero, range'_zero, foldlM_nil, Option.pure_def])
  | succ k ih =>
    rcases ih with hnone | hsome
    · left
      rw [range'_1_concat, foldlM_append, hnone]
      rfl
    · rw [stageCells_succ a k hsome]
      split
      · exact .inl rfl
      · exact .inr rfl

end LlamaCpp.RecurrentMemory
