import LlamaCpp.Recurrent.Runs

/-!
# Placing a ubatch conserves the states

`find_slot` moves states only by naming rows: `src0` of cell `i` is the row that the graph
copies to row `i`.  `Conserved` says what the placement keeps.  Every sequence is fed from
the row that held its state (`stateRow`), and a sequence without a state from the row that
the graph clears, or from a row that an empty cell was already fed with (`Blank`).

The search succeeds in every state with the tails in order, so no assertion fails
(`findSlot_conserves`).
-/

namespace LlamaCpp.RecurrentMemory

open List Option

variable {c : RecurrentConfig} {m m' : RecurrentMemory} {ubatch : RecurrentUbatch} {pos : Int}
  {sets : List (List Int)}

/-- The row that holds the state of sequence `t`. -/
def stateRow (m : RecurrentMemory) (t : Nat) : Option Nat := (m.cells t).tail.bind fun i => (m.cells i).src

/-- A row for a cell without a state: the one that is cleared, or one that an empty cell
names. -/
def Blank (m m' : RecurrentMemory) (src0 : Option Nat) : Prop :=
  src0 ≠ none ∧ (src0 = m'.rsZ ∨ ∃ e, (m.cells e).seqId = ∅ ∧ src0 = (m.cells e).src)

/-- What is true when the sets of a ubatch have got their cells. -/
structure Conserved (c : RecurrentConfig) (ubatch : RecurrentUbatch) (m m' : RecurrentMemory) :
    Prop where
  room : ubatch.nSeqs ≤ m'.n
  inside : m'.head + m'.n ≤ c.size
  /-- The sets. -/
  setPos : ∀ s < ubatch.nSeqs, (m'.cells (s + m'.head)).pos = ubatch.lastPos s
  setSeqId : ∀ s < ubatch.nSeqs, (m'.cells (s + m'.head)).seqId = setIds ubatch s
  setTail : ∀ s < ubatch.nSeqs, ∀ t ∈ setIds ubatch s, (m'.cells t).tail = some (s + m'.head)
  /-- The other sequences keep their position, and who they share a cell with. -/
  other : ∀ t i₀, ¬Mentions ubatch t → (m.cells t).tail = some i₀ → ∃ i,
    (m'.cells t).tail = some i ∧ (i < m'.head ∨ m'.head + ubatch.nSeqs ≤ i) ∧
    (m'.cells i).pos = (m.cells i₀).pos ∧ (i < m'.head ∨ m'.head + m'.n ≤ i → i = i₀)
  otherNone : ∀ t, ¬Mentions ubatch t → (m.cells t).tail = none → (m'.cells t).tail = none
  share : ∀ t u, ¬Mentions ubatch t → ¬Mentions ubatch u →
    ((m'.cells t).tail = (m'.cells u).tail ↔ (m.cells t).tail = (m.cells u).tail)
  mem : ∀ t i, (m'.cells t).tail = some i ↔ t ∈ (m'.cells i).seqId
  /-- The rows that the cells of the range are fed from. -/
  setRow : ∀ s < ubatch.nSeqs, ∀ r, m.stateRow (ubatch.first s) = some r →
    (m'.cells (s + m'.head)).src0 = some r
  setBlank : ∀ s < ubatch.nSeqs, m.stateRow (ubatch.first s) = none →
    Blank m m' (m'.cells (s + m'.head)).src0
  otherRow : ∀ t i r, ¬Mentions ubatch t → (m'.cells t).tail = some i → m'.head ≤ i →
    i < m'.head + m'.n → m.stateRow t = some r → (m'.cells i).src0 = some r
  otherBlank : ∀ t i, ¬Mentions ubatch t → (m'.cells t).tail = some i → m'.head ≤ i →
    i < m'.head + m'.n → m.stateRow t = none → Blank m m' (m'.cells i).src0
  emptyBlank : ∀ i, (m'.cells i).seqId = ∅ → m'.head ≤ i → i < m'.head + m'.n →
    Blank m m' (m'.cells i).src0
  /-- Nothing else is fed from the row that is cleared. -/
  zeroRange : ∀ z, m'.rsZ = some z → m'.head ≤ z ∧ z < m'.head + m'.n
  zeroSet : ∀ z, m'.rsZ = some z → ∀ s < ubatch.nSeqs, m.stateRow (ubatch.first s) ≠ some z
  zeroOutside : ∀ z, m'.rsZ = some z → ∀ i < c.size, i < m'.head ∨ m'.head + m'.n ≤ i →
    (m'.cells i).src ≠ some z
  zeroOther : ∀ z, m'.rsZ = some z → ∀ t, ¬Mentions ubatch t → m.stateRow t ≠ some z
  /-- The cells of the range name their own row from now on, and outside nothing is new. -/
  srcInside : ∀ i, m'.head ≤ i → i < m'.head + m'.n → (m'.cells i).src = some i
  srcOutside : ∀ i, i < m'.head ∨ m'.head + m'.n ≤ i →
    (m'.cells i).src = (m.cells i).src ∨ (m'.cells i).src = none
  emptyOutside : ∀ i r, (m'.cells i).seqId = ∅ → i < m'.head ∨ m'.head + m'.n ≤ i →
    (m'.cells i).src = some r → ∃ e, (m.cells e).seqId = ∅ ∧ (m.cells e).src = some r
  rsIdx : m'.rsIdx = m.rsIdx

section Stage

variable {lo hi : Nat} {m₃ : RecurrentMemory}

theorem refcount_eq_zero {z : Nat} : m.refcount c z = 0 ↔ ∀ j < c.size, (m.cells j).src ≠ some z := by
  simp [refcount, countP_eq_zero]

theorem mem_rangeIncl {i : Nat} : i ∈ rangeIncl lo hi ↔ lo ≤ i ∧ i < lo + (hi + 1 - lo) :=
  mem_range'_1

/-- The row that is cleared lies in the range, and no cell names it. -/
theorem zeroRow_eq_some {z : Nat} (h : m.zeroRow c lo hi = some z) :
    (lo ≤ z ∧ z < lo + (hi + 1 - lo)) ∧ ∀ j < c.size, (m.cells j).src ≠ some z :=
  ⟨mem_rangeIncl.mp (mem_of_find?_eq_some h),
    refcount_eq_zero.mp (of_decide_eq_true
      (find?_some (p := fun i => decide (m.refcount c i = 0)) h))⟩

/-- With sources in order the rows can be staged. -/
theorem Placed.finish (h : Placed c ubatch lo hi m m₃) (hsrc : SrcOwn m) : ∃ m', finish c lo hi m₃ = some m' := by
  have hz : ∀ i, lo ≤ i → i < lo + (hi + 1 - lo) → (m₃.cells i).src = none → m₃.zeroRow c lo hi ≠ none := by
    intro i hlo hhi hnone hzero
    obtain ⟨z, hzlo, hzhi, hfree⟩ := h.zero hsrc i hlo (by omega) hnone
    have hmem : z ∈ rangeIncl lo hi := mem_rangeIncl.mpr ⟨hzlo, by omega⟩
    have hcount := find?_eq_none.mp hzero z hmem
    exact hcount (decide_eq_true (refcount_eq_zero.mpr fun j _ => hfree j))
  unfold RecurrentMemory.finish
  have hstage := stageCells_ok (m := { m₃ with rsZ := m₃.zeroRow c lo hi }) lo (hi + 1 - lo) hz
  rw [rangeIncl, hstage]
  exact ⟨_, rfl⟩

/-- Where a cell of the range is fed from. -/
theorem finish_src0 (hfin : RecurrentMemory.finish c lo hi m₃ = some m') {i : Nat} (hlo : lo ≤ i)
    (hhi : i < lo + (hi + 1 - lo)) : (m'.cells i).src0 =
      if (m₃.cells i).src = none then m'.rsZ else (m₃.cells i).src := by
  obtain ⟨-, -, -, -, hz, hcells⟩ := finish_eq_some hfin
  rw [hcells, hz]
  dsimp only
  rw [if_pos ⟨hlo, hhi⟩]
  rfl

end Stage

/-- `find_slot` succeeds, and conserves the states. -/
theorem TailInv.conserved (hinv : TailInv c m) (hhead : m.head < c.size) (hsrc : SrcOwn m)
    (hu : ubatch.WellFormed) (hr : AllInRange c ubatch) :
    ∃ m', m.findSlot c ubatch = some (true, m') ∧ Conserved c ubatch m m' := by
  obtain ⟨lo, hi, m₃, hplaced, hrun⟩ := findSlot_placed hu hr hinv hhead
  obtain ⟨m', hfin⟩ := hplaced.finish hsrc
  refine ⟨m', by rw [hrun, hfin]; rfl, ?_⟩
  have hcells := finish_cells hfin
  obtain ⟨rfl, hn, -, hidx, hz, hall⟩ := finish_eq_some hfin
  have hroom := hplaced.room
  have hhi := hplaced.hi_lt
  have hsets := hu.sets_pos
  have hfed := fun i => finish_src0 (i := i) hfin
  rw [hn.symm] at hfed
  -- a cell without a source is fed from the row that is cleared
  have hblank : ∀ i, m'.head ≤ i → i < m'.head + m'.n → (m₃.cells i).src = none → Blank m m' (m'.cells i).src0 := by
    intro i hlo hup hnone
    rw [hfed i hlo hup, if_pos hnone]
    refine ⟨?_, .inl rfl⟩
    rw [hz]
    intro hzero
    obtain ⟨z, hzlo, hzhi, hfree⟩ := hplaced.zero hsrc i hlo (by omega) hnone
    exact find?_eq_none.mp hzero z (mem_rangeIncl.mpr ⟨hzlo, by omega⟩)
      (decide_eq_true (refcount_eq_zero.mpr fun j _ => hfree j))
  -- and an empty one may also be fed from a row that it names
  have hempty : ∀ i, m'.head ≤ i → i < m'.head + m'.n →
      EmptySource m (sharedIds ubatch (List.range ubatch.nSeqs)) (m₃.cells i).src →
      Blank m m' (m'.cells i).src0 := by
    rintro i hlo hup ⟨e, -, he⟩
    cases hs : (m₃.cells i).src with
    | none => exact hblank i hlo hup hs
    | some r =>
      rw [hfed i hlo hup, hs, if_neg (by simp)]
      rw [hs] at he
      split at he
      · next h0 => exact ⟨by simp, .inr ⟨e, h0, he⟩⟩
      · exact absurd he (by simp)
  have hnamed : ∀ i r, m'.head ≤ i → i < m'.head + m'.n → (m₃.cells i).src = some r → (m'.cells i).src0 = some r := by
    intro i r hlo hup hs
    rw [hfed i hlo hup, hs, if_neg (by simp)]
  have hrow : ∀ {t r}, m.stateRow t = some r → ∃ i₀, (m.cells t).tail = some i₀ ∧
      (m.cells i₀).src = some r := fun h => bind_eq_some_iff.mp h
  have hnorow : ∀ {t i₀}, m.stateRow t = none → (m.cells t).tail = some i₀ →
      (m.cells i₀).src = none := fun h ht => by simpa [stateRow, ht] using h
  have hzero : ∀ z, m'.rsZ = some z → ∀ j < c.size, (m₃.cells j).src ≠ some z := fun z h =>
    (zeroRow_eq_some (hz.symm.trans h)).2
  have hkeep : ∀ i, i < m'.head ∨ m'.head + m'.n ≤ i → m'.cells i = m₃.cells i := by
    intro i hout
    rw [hall]
    exact if_neg (by omega)
  exact
    { room := by omega
      inside := by omega
      setPos := fun s hs => (hcells _).1.trans (hplaced.setPos s hs)
      setSeqId := fun s hs => (hcells _).2.1.trans (hplaced.setSeqId s hs)
      setTail := fun s hs t ht => (hcells t).2.2.trans (hplaced.setTail s hs t ht)
      other := by
        intro t i₀ hment htail
        obtain ⟨i, hi, hout, hpos, -, hstay⟩ := hplaced.other t i₀ hment htail
        exact ⟨i, (hcells t).2.2.trans hi, hout, (hcells i).1.trans hpos, fun h => hstay (by omega)⟩
      otherNone := fun t hment htail => (hcells t).2.2.trans (hplaced.otherNone t hment htail)
      share := by
        intro t u ht hu
        rw [(hcells t).2.2, (hcells u).2.2]
        exact hplaced.share t u ht hu
      mem := by
        intro t i
        rw [(hcells t).2.2, (hcells i).2.1]
        exact hplaced.tail_iff t i
      setRow := by
        intro s hs r h
        obtain ⟨i₀, htail, hsrc⟩ := hrow h
        exact hnamed _ r (by omega) (by omega) ((hplaced.setSrc s hs i₀ htail).trans hsrc)
      setBlank := by
        intro s hs h
        cases htail : (m.cells (ubatch.first s)).tail with
        | none => exact hempty _ (by omega) (by omega) (hplaced.setFresh s hs htail)
        | some i₀ =>
          exact hblank _ (by omega) (by omega) ((hplaced.setSrc s hs i₀ htail).trans (hnorow h htail))
      otherRow := by
        intro t i r hment htail hlo hup h
        obtain ⟨i₀, hwas, hsrc⟩ := hrow h
        obtain ⟨j, hj, -, -, hsrcj, -⟩ := hplaced.other t i₀ hment hwas
        obtain rfl := some.inj (hj.symm.trans ((hcells t).2.2.symm.trans htail))
        exact hnamed _ r hlo hup (hsrcj.trans hsrc)
      otherBlank := by
        intro t i hment htail hlo hup h
        rw [(hcells t).2.2] at htail
        cases hwas : (m.cells t).tail with
        | none => exact absurd ((hplaced.otherNone t hment hwas).symm.trans htail) (by simp)
        | some i₀ =>
          obtain ⟨j, hj, -, -, hsrcj, -⟩ := hplaced.other t i₀ hment hwas
          obtain rfl := some.inj (hj.symm.trans htail)
          exact hblank _ hlo hup (hsrcj.trans (hnorow h hwas))
      emptyBlank := by
        intro i h0 hlo hup
        rw [(hcells i).2.1] at h0
        have hout : i < m'.head ∨ m'.head + ubatch.nSeqs ≤ i := by
          by_contra hin
          obtain ⟨s, hs, rfl⟩ : ∃ s < ubatch.nSeqs, i = s + m'.head :=
            ⟨i - m'.head, by omega, by omega⟩
          rw [hplaced.setSeqId s hs] at h0
          exact Finset.notMem_empty _ (h0 ▸ first_mem hu hs)
        exact hempty i hlo hup (hplaced.srcEmpty i hout h0)
      zeroRange := by
        intro z h
        obtain ⟨⟨hlo, hup⟩, -⟩ := zeroRow_eq_some (hz.symm.trans h)
        exact ⟨hlo, by omega⟩
      zeroSet := by
        intro z h s hs heq
        obtain ⟨i₀, htail, hsrc⟩ := hrow heq
        exact hzero z h (s + m'.head) (by omega) ((hplaced.setSrc s hs i₀ htail).trans hsrc)
      zeroOutside := by
        intro z h i hi hout heq
        rw [hkeep i hout] at heq
        exact hzero z h i hi heq
      zeroOther := by
        intro z h t hment heq
        obtain ⟨i₀, htail, hsrc⟩ := hrow heq
        obtain ⟨j, hj, -, -, hsrcj, -⟩ := hplaced.other t i₀ hment htail
        exact hzero z h j (hplaced.tailsLt t j hj).2 (hsrcj.trans hsrc)
      srcInside := by
        intro i hlo hup
        rw [hall]
        dsimp only
        rw [if_pos (by omega)]
        rfl
      srcOutside := by
        intro i hout
        rw [hkeep i hout]
        exact hplaced.srcOutside i (by omega)
      emptyOutside := by
        intro i r h0 hout hs
        rw [hkeep i hout] at hs
        rw [(hcells i).2.1] at h0
        obtain ⟨e, -, he⟩ := hplaced.srcEmpty i (by omega) h0
        rw [hs] at he
        split at he
        · next h => exact ⟨e, h, he.symm⟩
        · exact absurd he (by simp)
      rsIdx := hidx.trans hplaced.rsIdx }

/-! ## Where the search starts -/

theorem claimCell_min_le {s : Nat} {last : Bool} {σ σ' : SlotSearch}
    (h : claimCell c s last σ = some σ') : σ'.min ≤ σ.min := by
  have hcover : ∀ (τ : SlotSearch) tail, (τ.cover tail).min ≤ τ.min := by
    intro τ tail
    unfold SlotSearch.cover
    dsimp only
    split <;> omega
  unfold claimCell at h
  extract_lets m takeEmpty at h
  have htake : ∀ σ'', takeEmpty = some σ'' → σ''.min ≤ σ.min := by
    intro σ'' h
    obtain ⟨r, -, hr⟩ := bind_eq_some_iff.mp h
    obtain rfl := some.inj hr
    exact hcover _ _
  split at h
  · exact htake σ' h
  · split at h
    · exact absurd h (by simp)
    · split at h
      · obtain rfl := some.inj h
        exact hcover σ _
      · exact htake σ' h

theorem claimCells_min_le {sets : List Nat} {σ σ' : SlotSearch}
    (h : sets.foldlM (fun σ s => claimCell c (ubatch.first s) (s + 1 = ubatch.nSeqs) σ) σ = some σ') :
    σ'.min ≤ σ.min := by
  induction sets generalizing σ with
  | nil =>
    obtain rfl := some.inj h
    exact Nat.le_refl _
  | cons s sets ih =>
    obtain ⟨r, hr, hrest⟩ := bind_eq_some_iff.mp h
    exact (ih hrest).trans (claimCell_min_le hr)

theorem checkSet_head (ids : List Int) (j : Nat) (m : RecurrentMemory) : (checkSet c ids j m).2.head = m.head := by
  induction ids generalizing j m with
  | nil => rfl
  | cons id ids ih =>
    unfold checkSet
    split
    · rfl
    · rw [ih]
      split
      · exact releaseTail_head _
      · rfl

theorem checkSets_head (ubatch : RecurrentUbatch) (sets : List Nat) (m : RecurrentMemory) :
    (checkSets c ubatch sets m).2.head = m.head := by
  induction sets generalizing m with
  | nil => rfl
  | cons s sets ih =>
    have hset := checkSet_head (c := c) (ubatch.seqSet s) 0 m
    unfold checkSets
    rcases hcheck : checkSet c (ubatch.seqSet s) 0 m with ⟨ok, r⟩
    rw [hcheck] at hset
    cases ok with
    | false => exact hset
    | true => exact (ih r).trans hset

/-- The range starts at a cell, whatever the memory looks like. -/
theorem findSlot_head_lt {found : Bool} (hhead : m.head < c.size)
    (h : m.findSlot c ubatch = some (found, m')) : m'.head < c.size := by
  unfold findSlot at h
  extract_lets r at h
  have hr : r.head < c.size := by
    simp only [r]
    split
    · exact c.size_pos
    · exact hhead
  have hcheck := checkSets_head (c := c) ubatch (List.range ubatch.nSeqs) r
  split at h
  · exact absurd h (by simp)
  · split at h
    · next m₀ hsets =>
      rw [hsets] at hcheck
      obtain rfl := (Prod.mk.inj (some.inj h)).2
      exact hcheck ▸ hr
    · extract_lets search at h
      obtain ⟨σ, hclaim, h⟩ := bind_eq_some_iff.mp h
      obtain ⟨m₂, -, h⟩ := bind_eq_some_iff.mp h
      obtain ⟨m₄, -, h⟩ := bind_eq_some_iff.mp h
      obtain rfl := (Prod.mk.inj (some.inj h)).2
      have hmin := claimCells_min_le hclaim
      have hsize := c.size_pos
      change σ.min < c.size
      change σ.min ≤ c.size - 1 at hmin
      omega

section Restore

open Readers (Keeps Ends)

/-- The search starts at a cell. -/
def HeadOk (c : RecurrentConfig) (m : RecurrentMemory) : Prop := m.head < c.size

theorem HeadOk.seqRm (h : HeadOk c m) (seqId p0 p1 : Int) :
    HeadOk c (m.seqRm c seqId p0 p1).2 := Nat.lt_of_le_of_lt seqRm_head_le h

theorem HeadOk.ownRows (h : HeadOk c m) (n : Nat) : HeadOk c (m.ownRows n) := by
  rw [ownRows_eq]
  exact h

theorem HeadOk.modify (h : HeadOk c m) (i : Nat) (f : RecurrentCell → RecurrentCell) : HeadOk c (m.modify i f) := h

theorem HeadOk.setTail (h : HeadOk c m) (s : Nat) (t : Option Nat) : HeadOk c (m.setTail s t) := h

theorem headOk_zero (h : m.head = 0) : HeadOk c m := Nat.lt_of_le_of_lt (Nat.le_of_eq h) c.size_pos

theorem keeps_readMetaSeq (n : Nat) (dest : Int) : Keeps (HeadOk c) (readMetaSeq c n dest) := by
  unfold readMetaSeq
  refine Keeps.seq (Readers.keeps_modifySt fun m h => h.seqRm dest (-1) (-1)) fun _ => ?_
  refine (Readers.keeps_pure true).ite ((Readers.keeps_aside _).seq fun pos => ?_)
  cases pos with
  | none => exact Readers.keeps_pure false
  | some pos =>
    refine Keeps.bind (fun _ h => h) fun s m s' h hget _ => ?_
    obtain ⟨rfl, rfl⟩ : s.st = m ∧ s = s' := by simpa using hget
    cases hfind : s.st.findSlot c (restoreUbatch dest pos) with
    | none => exact h
    | some found =>
      obtain ⟨found, r⟩ := found
      have hr : HeadOk c r := findSlot_head_lt h hfind
      change Ends (HeadOk c) ((Readers.setSt r >>= _) s)
      rw [Readers.bind_ok (Readers.setSt_run _ _)]
      cases found with
      | false => exact hr
      | true =>
        simp only [Bool.not_true, Bool.false_eq_true, if_false]
        split
        · exact hr.ownRows n
        · exact hr

theorem keeps_readIds (i n : Nat) : Keeps (HeadOk c) (readIds c i n) := by
  induction n with
  | zero => exact Readers.keeps_pure true
  | succ n ih =>
    unfold readIds
    refine Keeps.seq (Keeps.seq (Readers.keeps_takeLE 4) fun _ => Readers.keeps_pure _) fun id => ?_
    refine (Readers.keeps_pure false).ite ?_
    refine Keeps.seq (Readers.keeps_modifySt fun _ h => h.modify i _) fun _ => ?_
    refine Keeps.seq (fun _ h => h) fun m => (Readers.keeps_pure false).ite ?_
    exact Keeps.seq (Readers.keeps_modifySt fun _ h => h.setTail _ _) fun _ => ih

theorem keeps_readCell (i : Nat) : Keeps (HeadOk c) (readCell c i) := by
  unfold readCell
  refine Keeps.seq (Keeps.seq (Readers.keeps_takeLE 4) fun _ => Readers.keeps_pure _) fun pos => ?_
  refine (Readers.keeps_takeLE 4).seq fun n => ?_
  exact Keeps.seq (Readers.keeps_modifySt fun _ h => h.modify i _) fun _ => keeps_readIds i n

theorem keeps_readMetaAll (n : Nat) : Keeps (HeadOk c) (readMetaAll c n) := by
  unfold readMetaAll
  refine (Readers.keeps_pure false).ite ?_
  refine Keeps.seq (Readers.keeps_modifySt fun _ _ => headOk_zero rfl) fun _ => ?_
  refine (Keeps.allM _ fun i _ => keeps_readCell i).seq fun ok => ?_
  refine Keeps.ite ?_ (Readers.keeps_pure false)
  refine Keeps.seq (Readers.keeps_modifySt fun m _ => ?_) fun _ => Readers.keeps_pure true
  exact (headOk_zero rfl).ownRows n

theorem keeps_stateRead (L : RecurrentLayout) (seqId : Int) : Keeps (HeadOk c) (stateRead c L seqId) := by
  unfold stateRead
  refine (Readers.keeps_takeLE 4).seq fun n => ?_
  refine Keeps.seq ?_ fun ok => ?_
  · refine Keeps.both ?_ (Readers.keeps_aside _).orFalse
    exact (keeps_readMetaSeq n seqId).ite (keeps_readMetaAll n)
  · refine Keeps.ite (Readers.keeps_modifySt fun m h => ?_)
      (Keeps.seq (Readers.keeps_modifySt fun m h => ?_) fun _ => Readers.keeps_throwing)
    · unfold resetRsIdx
      split
      · exact h
      · split
        · exact h
        · unfold HeadOk
          rw [setRsIdx_head]
          exact h
    · unfold cleanup
      split
      · exact c.size_pos
      · exact h.seqRm seqId (-1) (-1)

end Restore

/-- Every operation leaves the head at a cell. -/
theorem HeadOk.step (h : HeadOk c m) {op : RecurrentOp} (hstep : step c m op = some m') : HeadOk c m' := by
  unfold HeadOk at h ⊢
  cases op with
  | clear =>
    obtain rfl := some.inj hstep
    exact c.size_pos
  | seqRm seqId p0 p1 =>
    obtain rfl := some.inj hstep
    exact Nat.lt_of_le_of_lt seqRm_head_le h
  | seqCp seqIdSrc seqIdDst =>
    obtain rfl := some.inj hstep
    rw [seqCp_head]
    exact h
  | seqKeep seqId =>
    obtain rfl := some.inj hstep
    exact Nat.lt_of_le_of_lt seqKeep_head_le h
  | seqAdd seqId p0 p1 shift =>
    obtain rfl := some.inj hstep
    unfold seqAdd
    split
    · exact h
    · rw [mapPos_head]
      exact h
  | seqDiv seqId p0 p1 d =>
    obtain rfl := some.inj hstep
    unfold seqDiv
    split
    · exact h
    · rw [mapPos_head]
      exact h
  | findSlot ubatch =>
    obtain ⟨⟨found, r⟩, hfind, hr⟩ := bind_eq_some_iff.mp hstep
    cases found with
    | false => cases hr
    | true =>
      obtain rfl := some.inj hr
      exact findSlot_head_lt h hfind
  | stateRead L seqId bytes => exact (keeps_stateRead L seqId ⟨bytes, m⟩ h).state? hstep

/-- **Placing a ubatch.**  In a state that is reached, with the tails in order and sources
that are own rows, `find_slot` succeeds for disjoint sets of ids in range, and conserves the
states. -/
theorem findSlot_conserves
    (h : Runs.Reaches (step c) (fun _ op => op.Ok) {} m) (hinv : TailInv c m) (hsrc : SrcOwn m)
    (hu : ubatch.WellFormed) (hr : AllInRange c ubatch) :
    ∃ m', m.findSlot c ubatch = some (true, m') ∧ Conserved c ubatch m m' := by
  have hhead : HeadOk c m := h.inv (fun _ _ _ hs _ ha => hs.step ha) (headOk_zero rfl)
  exact hinv.conserved hhead hsrc hu hr

/-! ## Sources stay own rows -/

/-- A source that is dropped is no harm. -/
theorem SrcOwn.of_dropped (h : SrcOwn m)
    (hsub : ∀ i, (m'.cells i).src = (m.cells i).src ∨ (m'.cells i).src = none) : SrcOwn m' := by
  intro i
  rcases hsub i with heq | hnone
  · rw [heq]
    exact h i
  · exact .inl hnone

theorem seqRmCells_src (seqId p0 p1 : Int) (i : Nat) :
    ((m.seqRmCells c seqId p0 p1).cells i).src = (m.cells i).src ∨
      ((m.seqRmCells c seqId p0 p1).cells i).src = none := by
  rw [seqRmCells_cells]
  split
  · unfold RecurrentCell.remove
    split
    · split
      · exact .inr rfl
      · exact .inl rfl
    · exact .inl rfl
  · exact .inl rfl

theorem SrcOwn.seqRm (h : SrcOwn m) (seqId p0 p1 : Int) : SrcOwn (m.seqRm c seqId p0 p1).2 := by
  have hcase := @seqRm_removal c m seqId p0 p1
  generalize m.seqRm c seqId p0 p1 = result at hcase
  generalize rangeLo p0 = lo at hcase
  generalize rangeHi p1 = hi at hcase
  refine h.of_dropped fun i => ?_
  cases hcase with
  | refused => exact .inl (by rw [resetWhole_cells])
  | sweep =>
    have hsrc := seqRmCells_src (c := c) (m := resetWhole c m seqId lo hi) seqId lo hi i
    rwa [resetWhole_cells] at hsrc
  | rollback t =>
    left
    rcases eq_or_ne i t with rfl | hne
    · simp
    · simp [hne]
  | drop t =>
    have hsrc := seqRmCells_src (c := c)
      (m := (resetWhole c m seqId lo hi).setTail seqId.toNat none) seqId lo hi i
    rwa [setTail_src, resetWhole_cells] at hsrc

theorem SrcOwn.findSlot (hsrc : SrcOwn m) (hinv : TailInv c m) (hhead : m.head < c.size)
    (hu : ubatch.WellFormed) (h : m.findSlot c ubatch = some (true, m')) : SrcOwn m' := by
  obtain ⟨lo, hi, m₃, hplaced, hrun⟩ := findSlot_placed hu (findSlot_range hinv h) hinv hhead
  rw [hrun, map_eq_some_iff] at h
  obtain ⟨m'', hfin, heq⟩ := h
  obtain rfl : m'' = m' := (Prod.mk.inj heq).2
  intro i
  rw [(finish_eq_some hfin).2.2.2.2.2]
  dsimp only
  split
  · exact .inr rfl
  · next hout =>
    rcases hplaced.srcOutside i (by omega) with heq | hnone
    · rw [heq]
      exact hsrc i
    · exact .inl hnone

theorem SrcOwn.step_findSlot (hsrc : SrcOwn m) (hinv : SlotInv c m) (hu : ubatch.WellFormed)
    (h : step c m (.findSlot ubatch) = some m') : SrcOwn m' := by
  obtain ⟨⟨found, r⟩, hfind, hr⟩ := bind_eq_some_iff.mp h
  cases found with
  | false => cases hr
  | true =>
    obtain rfl := some.inj hr
    exact hsrc.findSlot hinv.toTailInv hinv.head_lt hu hfind

/-! ## A sequence that is not fed from the cleared row -/

/-- A ubatch with one token for each set. -/
def oneToken (sets : List (List Int)) (pos : Int) : RecurrentUbatch where
  bEqualSeqs := true
  nSeqTokens := 1
  nSeqs := sets.length
  pos := fun _ => pos
  seqId := fun i => sets.getD i []

theorem oneToken_seqSet {s : Nat} (hs : s < sets.length) : (oneToken sets pos).seqSet s = sets[s] := by
  simp [RecurrentUbatch.seqSet, oneToken, hs]

theorem oneToken_wellFormed (hne : sets ≠ []) (hsets : ∀ ids ∈ sets, ids ≠ [] ∧ ids.Nodup)
    (hdisj : sets.Pairwise List.Disjoint) : (oneToken sets pos).WellFormed := by
  refine ⟨rfl, length_pos_iff.mpr hne, Nat.one_pos, fun s hs => ?_, fun s hs => ?_, fun s hs t ht hst id h1 h2 => ?_⟩
  · rw [oneToken_seqSet hs]
    exact (hsets _ (getElem_mem hs)).1
  · rw [oneToken_seqSet hs]
    exact (hsets _ (getElem_mem hs)).2
  · rw [oneToken_seqSet hs] at h1
    rw [oneToken_seqSet ht] at h2
    rcases Nat.lt_or_gt_of_ne hst with hlt | hgt
    · exact pairwise_iff_getElem.mp hdisj s t hs ht hlt h1 h2
    · exact pairwise_iff_getElem.mp hdisj t s ht hs hgt h2 h1

theorem oneToken_inRange (h : ∀ ids ∈ sets, InRange c ids) : AllInRange c (oneToken sets pos) := by
  intro s hs
  have hs : s < sets.length := mem_range.mp hs
  rw [oneToken_seqSet hs]
  exact h _ (getElem_mem hs)

/-- A memory of four cells. -/
def fourCells : RecurrentConfig := ⟨4, 4, 0, by decide, by decide, by decide⟩

/-- Three sequences, of which the second leaves, and the cells of the others are moved
together: the cell between them is empty but names its row. -/
def gatheredOps : List RecurrentOp :=
  [.findSlot (oneToken [[0], [1], [2]] 0), .seqRm 1 (-1) (-1), .findSlot (oneToken [[0], [2]] 1)]

theorem gatheredOps_ok : ∀ op ∈ gatheredOps, op.Ok := by
  intro op hop
  simp only [gatheredOps, mem_cons, not_mem_nil, or_false] at hop
  rcases hop with rfl | rfl | rfl
  · exact oneToken_wellFormed (by simp) (by simp) (by simp)
  · trivial
  · exact oneToken_wellFormed (by simp) (by simp) (by simp)

theorem gatheredOps_inv (h : gatheredOps.foldlM (step fourCells) {} = some m) : SlotInv fourCells m ∧ SrcOwn m := by
  have hok := gatheredOps_ok
  unfold gatheredOps at h hok
  simp only [foldlM_cons, foldlM_nil] at h
  obtain ⟨m₁, h₁, h⟩ := bind_eq_some_iff.mp h
  obtain ⟨m₂, h₂, h⟩ := bind_eq_some_iff.mp h
  obtain ⟨m₃, h₃, h⟩ := bind_eq_some_iff.mp h
  obtain rfl := some.inj h
  have hone := hok _ (mem_cons_self)
  have htwo := hok _ (mem_cons_of_mem _ (mem_cons_of_mem _ mem_cons_self))
  have hinv₁ := init_slotInv.step hone (fun _ _ => Int.le_refl 0) h₁
  have hsrc₁ := SrcOwn.step_findSlot (fun _ => .inl rfl) init_slotInv hone h₁
  have hinv₂ := @SlotInv.step _ _ _ hinv₁ (.seqRm 1 (-1) (-1)) trivial
    (fun hneg => absurd hneg (by decide)) h₂
  have hsrc₂ : SrcOwn m₂ := some.inj h₂ ▸ hsrc₁.seqRm 1 (-1) (-1)
  have hinv₃ := hinv₂.step htwo (fun _ _ => Int.zero_le_ofNat 1) h₃
  exact ⟨hinv₃, hsrc₂.step_findSlot hinv₂ htwo h₃⟩

theorem findSlot_conserves_gathered :
    ∃ m m', m.findSlot fourCells (oneToken [[2, 3], [1]] 2) = some (true, m') ∧
      Conserved fourCells (oneToken [[2, 3], [1]] 2) m m' := by
  have hrun : (gatheredOps.foldlM (step fourCells) {}).isSome := by decide +kernel
  obtain ⟨m, hm⟩ := isSome_iff_exists.mp hrun
  obtain ⟨hinv, hsrc⟩ := gatheredOps_inv hm
  exact ⟨m, findSlot_conserves (Runs.Reaches.refl.ofList (fun op hop _ => gatheredOps_ok op hop) hm)
    hinv.toTailInv hsrc (oneToken_wellFormed (by simp) (by simp) (by simp))
    (oneToken_inRange (by simp [InRange, fourCells]))⟩

/-- A sequence without a state that is not fed from the cleared row. -/
theorem fresh_not_from_zeroRow :
    ∃ m m', Runs.Reaches (step fourCells) (fun _ op => op.Ok) {} m ∧ TailInv fourCells m ∧
      SrcOwn m ∧ (oneToken [[3]] 0).WellFormed ∧ AllInRange fourCells (oneToken [[3]] 0) ∧
      m.stateRow 3 = none ∧ m.findSlot fourCells (oneToken [[3]] 0) = some (true, m') ∧
      3 ∈ (m'.cells m'.head).seqId ∧ (m'.cells m'.head).src0 ≠ m'.rsZ := by
  have hrun : (gatheredOps.foldlM (step fourCells) {}).map (fun m => decide (m.stateRow 3 = none) &&
      (m.findSlot fourCells (oneToken [[3]] 0)).any fun r =>
        r.1 && decide (3 ∈ (r.2.cells r.2.head).seqId ∧ (r.2.cells r.2.head).src0 ≠ r.2.rsZ)) =
      some true := by decide +kernel
  obtain ⟨m, hm, hval⟩ := map_eq_some_iff.mp hrun
  rw [Bool.and_eq_true, decide_eq_true_eq] at hval
  obtain ⟨hrow, hfind⟩ := hval
  cases hslot : m.findSlot fourCells (oneToken [[3]] 0) with
  | none =>
    rw [hslot] at hfind
    cases hfind
  | some r =>
    obtain ⟨found, m'⟩ := r
    rw [hslot, any_some, Bool.and_eq_true, decide_eq_true_eq] at hfind
    obtain ⟨rfl, hmem, hsrc0⟩ := hfind
    obtain ⟨hinv, hsrc⟩ := gatheredOps_inv hm
    exact ⟨m, m', Runs.Reaches.refl.ofList (fun op hop _ => gatheredOps_ok op hop) hm,
      hinv.toTailInv, hsrc, oneToken_wellFormed (by simp) (by simp) (by simp),
      oneToken_inRange (by simp [InRange, fourCells]), hrow,
      hslot, hmem, hsrc0⟩

end LlamaCpp.RecurrentMemory
