import LlamaCpp.Lib.Loops
import LlamaCpp.Recurrent.FindSlot

/-!
# The tail invariant

`TailInv` says that the tails and the sequence sets of the cells agree, that exactly the
cells with a sequence have a position, and that `used` counts them.  The operations on
single sequences keep it.  Removing every sequence at once does not: it leaves the tails as
they are (`seqRm_tailInv` asks for an empty memory there).
-/

namespace LlamaCpp

open Finset

open Loops (RewritesAt)

namespace RecurrentCell

variable (seqId p0 p1 : Int) (cell : RecurrentCell)

/-- The cell loses sequences in `seq_rm`. -/
def Loses : Prop := p0 ≤ cell.pos ∧ cell.pos < p1 ∧ (seqId < 0 ∨ cell.hasSeqId seqId)

instance : Decidable (cell.Loses seqId p0 p1) := by unfold Loses; infer_instance

/-- The sequences that `seq_rm` leaves in such a cell. -/
def left : Finset Nat := if seqId < 0 then ∅ else cell.seqId.erase seqId.toNat

/-- What the loop of `seq_rm` makes of a cell. -/
def remove : RecurrentCell :=
  if cell.Loses seqId p0 p1 then
    if cell.left seqId = ∅ then { cell with seqId := ∅, pos := -1, src := none }
    else { cell with seqId := cell.left seqId }
  else cell

/-- What the loop of `seq_keep` makes of cell `i`. -/
def keep (i : Nat) : RecurrentCell :=
  let tail := if (i : Int) ≠ seqId then none else cell.tail
  if cell.hasSeqId seqId then { cell with tail := tail, seqId := {seqId.toNat} }
  else { cell with tail := tail, pos := -1, src := none, seqId := ∅ }

end RecurrentCell

namespace RecurrentMemory

/-- Exactly the cells with a sequence have a position, and `used` counts them. -/
structure Counted (c : RecurrentConfig) (m : RecurrentMemory) : Prop where
  pos_iff : ∀ i, 0 ≤ (m.cells i).pos ↔ (m.cells i).seqId ≠ ∅
  used_eq : m.used = (m.nonEmpty c).card

/-- The tails and the sequence sets of the cells agree. -/
structure TailInv (c : RecurrentConfig) (m : RecurrentMemory) : Prop extends Counted c m where
  tail_iff : ∀ s i, (m.cells s).tail = some i ↔ s ∈ (m.cells i).seqId
  /-- The cells that the source does not have. -/
  outside : ∀ i, c.size ≤ i → (m.cells i).seqId = ∅ ∧ (m.cells i).tail = none

variable {c : RecurrentConfig} {m m' : RecurrentMemory} {i : Nat}

/-! ## Counting the cells -/

theorem mem_nonEmpty : i ∈ m.nonEmpty c ↔ i < c.size ∧ (m.cells i).seqId ≠ ∅ := by
  simp [nonEmpty, RecurrentCell.isEmpty]

theorem nonEmpty_congr (h : ∀ i < c.size, (m'.cells i).seqId = ∅ ↔ (m.cells i).seqId = ∅) :
    m'.nonEmpty c = m.nonEmpty c := by
  ext i
  rw [mem_nonEmpty, mem_nonEmpty]
  constructor
  · rintro ⟨hi, hne⟩
    exact ⟨hi, fun h0 => hne ((h i hi).mpr h0)⟩
  · rintro ⟨hi, hne⟩
    exact ⟨hi, fun h0 => hne ((h i hi).mp h0)⟩

theorem nonEmpty_erase (hi : (m'.cells i).seqId = ∅)
    (h : ∀ j ≠ i, (m'.cells j).seqId = ∅ ↔ (m.cells j).seqId = ∅) :
    m'.nonEmpty c = (m.nonEmpty c).erase i := by
  ext j
  rw [mem_erase, mem_nonEmpty, mem_nonEmpty]
  by_cases hj : j = i
  · subst hj
    simp [hi]
  · simp [hj, h j hj]

/-! ## The building blocks -/

@[simp] theorem modify_cells_same (i : Nat) (f : RecurrentCell → RecurrentCell) :
    (m.modify i f).cells i = f (m.cells i) := Function.update_self ..

@[simp] theorem modify_cells_ne {j : Nat} (h : j ≠ i) (f : RecurrentCell → RecurrentCell) :
    (m.modify i f).cells j = m.cells j := Function.update_of_ne h ..

@[simp] theorem modify_used (i : Nat) (f : RecurrentCell → RecurrentCell) : (m.modify i f).used = m.used := rfl

@[simp] theorem modify_rsIdx (i : Nat) (f : RecurrentCell → RecurrentCell) : (m.modify i f).rsIdx = m.rsIdx := rfl

@[simp] theorem decrUsed_cells : m.decrUsed.cells = m.cells := rfl

theorem setTail_cells (s : Nat) (t : Option Nat) (j : Nat) :
    (m.setTail s t).cells j = if j = s then { m.cells j with tail := t } else m.cells j := by
  unfold setTail
  by_cases h : j = s
  · subst h
    simp
  · simp [h]

@[simp] theorem setTail_seqId (s : Nat) (t : Option Nat) (j : Nat) :
    ((m.setTail s t).cells j).seqId = (m.cells j).seqId := by
  rw [setTail_cells]
  split <;> rfl

@[simp] theorem setTail_pos (s : Nat) (t : Option Nat) (j : Nat) :
    ((m.setTail s t).cells j).pos = (m.cells j).pos := by
  rw [setTail_cells]
  split <;> rfl

@[simp] theorem setTail_src (s : Nat) (t : Option Nat) (j : Nat) :
    ((m.setTail s t).cells j).src = (m.cells j).src := by
  rw [setTail_cells]
  split <;> rfl

@[simp] theorem setTail_tail_same (s : Nat) (t : Option Nat) : ((m.setTail s t).cells s).tail = t := by
  rw [setTail_cells, if_pos rfl]

@[simp] theorem setTail_tail_ne {s j : Nat} (h : j ≠ s) (t : Option Nat) :
    ((m.setTail s t).cells j).tail = (m.cells j).tail := by
  rw [setTail_cells, if_neg h]

@[simp] theorem setTail_used (s : Nat) (t : Option Nat) : (m.setTail s t).used = m.used := rfl

@[simp] theorem moveHead_cells (newHead : Nat) : (m.moveHead c newHead).cells = m.cells := by
  unfold moveHead
  split <;> rfl

@[simp] theorem moveHead_used (newHead : Nat) : (m.moveHead c newHead).used = m.used := by
  unfold moveHead
  split <;> rfl

@[simp] theorem moveHead_rsIdx (newHead : Nat) : (m.moveHead c newHead).rsIdx = m.rsIdx := by
  unfold moveHead
  split <;> rfl

@[simp] theorem setRsIdx_cells (s : Int) (idx : Nat) : (m.setRsIdx c s idx).cells = m.cells := by
  unfold setRsIdx
  split <;> rfl

@[simp] theorem setRsIdx_used (s : Int) (idx : Nat) : (m.setRsIdx c s idx).used = m.used := by
  unfold setRsIdx
  split <;> rfl

theorem isEmpty_iff {cell : RecurrentCell} : cell.isEmpty = true ↔ cell.seqId = ∅ := by
  simp [RecurrentCell.isEmpty]

theorem hasSeqId_iff {cell : RecurrentCell} {s : Int} : cell.hasSeqId s = true ↔ 0 ≤ s ∧ s.toNat ∈ cell.seqId := by
  simp [RecurrentCell.hasSeqId]

/-- The count after a cell has been emptied. -/
theorem decrUsed_used_eq (hused : m.used = (m.nonEmpty c).card) (hi : i ∈ m.nonEmpty c) :
    m.decrUsed.used = ((m.nonEmpty c).erase i).card := by
  have hpos : 0 < (m.nonEmpty c).card := card_pos.mpr ⟨i, hi⟩
  have hrun : m.decrUsed.used = decr32 m.used := rfl
  rw [hrun, decr32, card_erase_of_mem hi, hused, if_neg (Nat.ne_of_gt hpos)]

/-! ## Counting through the operations -/

/-- The count does not look at anything but positions and sequences. -/
theorem Counted.congr (h : Counted c m) (hused : m'.used = m.used)
    (hpos : ∀ i, (m'.cells i).pos = (m.cells i).pos)
    (hseq : ∀ i, (m'.cells i).seqId = (m.cells i).seqId) : Counted c m' where
  pos_iff i := by rw [hpos, hseq, h.pos_iff]
  used_eq := by rw [hused, h.used_eq, nonEmpty_congr fun i _ => by rw [hseq]]

/-- One cell loses some of its sequences, but not all. -/
theorem Counted.shrink (h : Counted c m) {seqIds : Finset Nat} (hne : seqIds ≠ ∅)
    (hwas : (m.cells i).seqId ≠ ∅) :
    Counted c (m.modify i fun cell => { cell with seqId := seqIds }) where
  pos_iff j := by
    by_cases hj : j = i
    · subst hj
      simpa [hne] using (h.pos_iff j).mpr hwas
    · simpa [hj] using h.pos_iff j
  used_eq := by
    rw [modify_used, h.used_eq]
    refine congrArg Finset.card (nonEmpty_congr fun j _ => ?_).symm
    by_cases hj : j = i
    · subst hj
      simp [hne, hwas]
    · simp [hj]

theorem Counted.empty (h : Counted c m) (hi : i < c.size) (hwas : (m.cells i).seqId ≠ ∅)
    {f : RecurrentCell → RecurrentCell} (hpos : (f (m.cells i)).pos = -1)
    (hseq : (f (m.cells i)).seqId = ∅) : Counted c (m.decrUsed.modify i f) where
  pos_iff j := by
    by_cases hj : j = i
    · subst hj
      simp [hpos, hseq]
    · simpa [hj] using h.pos_iff j
  used_eq := by
    rw [modify_used, decrUsed_used_eq h.used_eq (mem_nonEmpty.mpr ⟨hi, hwas⟩)]
    refine congrArg Finset.card (@nonEmpty_erase c m (m.decrUsed.modify i f) i ?_ fun j hj => ?_).symm
    · simpa using hseq
    · simp [hj]

theorem Counted.emptyAgain (h : Counted c m) (hwas : (m.cells i).seqId = ∅)
    {f : RecurrentCell → RecurrentCell} (hpos : (f (m.cells i)).pos < 0)
    (hseq : (f (m.cells i)).seqId = ∅) : Counted c (m.modify i f) where
  pos_iff j := by
    by_cases hj : j = i
    · subst hj
      simp [hseq, Int.not_le.mpr hpos]
    · simpa [hj] using h.pos_iff j
  used_eq := by
    rw [modify_used, h.used_eq]
    refine congrArg Finset.card (nonEmpty_congr fun j _ => ?_).symm
    by_cases hj : j = i
    · subst hj
      simp [hseq, hwas]
    · simp [hj]

theorem TailInv.lt (h : TailInv c m) {s : Nat} (hs : s ∈ (m.cells i).seqId) : s < c.size ∧ i < c.size := by
  constructor
  · by_contra hge
    have htail := (h.tail_iff s i).mpr hs
    rw [(h.outside s (Nat.le_of_not_lt hge)).2] at htail
    exact absurd htail (by simp)
  · by_contra hge
    rw [(h.outside i (Nat.le_of_not_lt hge)).1] at hs
    exact absurd hs (notMem_empty s)

/-! ## `clear` -/

theorem clear_cells (i : Nat) : (m.clear c).cells i =
    if i < c.size then { m.cells i with pos := -1, seqId := ∅, src := none, tail := none }
    else m.cells i := rfl

/-- The cells behind the end have nothing. -/
def Outside (c : RecurrentConfig) (m : RecurrentMemory) : Prop :=
  ∀ i, c.size ≤ i → (m.cells i).seqId = ∅ ∧ (m.cells i).tail = none ∧ (m.cells i).pos < 0

theorem TailInv.toOutside (h : TailInv c m) : Outside c m := fun i hi => by
  obtain ⟨hseq, htail⟩ := h.outside i hi
  refine ⟨hseq, htail, Int.not_le.mp fun hpos => ?_⟩
  exact (h.pos_iff i).mp hpos hseq

theorem clear_blank (hout : Outside c m) (i : Nat) :
    ((m.clear c).cells i).seqId = ∅ ∧ ((m.clear c).cells i).tail = none ∧ ((m.clear c).cells i).pos < 0 := by
  rw [clear_cells]
  split
  · exact ⟨rfl, rfl, show (-1 : Int) < 0 by decide⟩
  · exact hout i (by omega)

theorem clear_tailInv (hout : Outside c m) : TailInv c (m.clear c) where
  pos_iff i := by simp [(clear_blank hout i).1, Int.not_le.mpr (clear_blank hout i).2.2]
  used_eq := by
    have hnone : (m.clear c).nonEmpty c = ∅ := by
      ext i
      simp [mem_nonEmpty, (clear_blank hout i).1]
    rw [hnone]
    rfl
  tail_iff s i := by simp [(clear_blank hout s).2.1, (clear_blank hout i).1]
  outside i _ := ⟨(clear_blank hout i).1, (clear_blank hout i).2.1⟩

/-! ## Taking a sequence out of its cell -/

/-- What `releaseTail` leaves: the sequence is nowhere, and everything else is as before. -/
structure Released (c : RecurrentConfig) (m : RecurrentMemory) (s : Nat) (m' : RecurrentMemory) :
    Prop where
  inv : TailInv c m'
  seqId : ∀ i, (m'.cells i).seqId = (m.cells i).seqId.erase s
  tail : ∀ t, (m'.cells t).tail = if t = s then none else (m.cells t).tail
  pos : ∀ i, (m'.cells i).seqId ≠ ∅ → (m'.cells i).pos = (m.cells i).pos
  src : ∀ i, (m'.cells i).seqId ≠ ∅ ∨ (m.cells i).seqId = ∅ → (m'.cells i).src = (m.cells i).src
  srcNone : ∀ i, (m'.cells i).seqId = ∅ → (m.cells i).seqId ≠ ∅ → (m'.cells i).src = none
  head : m'.head = m.head
  rsIdx : m'.rsIdx = m.rsIdx

/-- What the tails and the sets look like decides the invariant. -/
theorem Released.of_cells (h : TailInv c m) (s : Nat) (hcount : Counted c m')
    (hseq : ∀ i, (m'.cells i).seqId = (m.cells i).seqId.erase s)
    (htail : ∀ t, (m'.cells t).tail = if t = s then none else (m.cells t).tail) :
    TailInv c m' where
  toCounted := hcount
  tail_iff t i := by
    rw [htail, hseq, mem_erase]
    by_cases ht : t = s
    · simp [ht]
    · simp [ht, h.tail_iff]
  outside i hi := by
    obtain ⟨h0, h1⟩ := h.outside i hi
    rw [hseq, htail, h0, h1]
    simp

theorem releaseTail_of_none {s : Nat} (h : (m.cells s).tail = none) : m.releaseTail s = m := by
  rw [RecurrentMemory.releaseTail, h]

theorem releaseTail_of_some {s t : Nat} (h : (m.cells s).tail = some t) : m.releaseTail s =
    if (m.cells t).seqId.erase s = ∅ then
      (((m.modify t fun cell => { cell with seqId := cell.seqId.erase s }).setTail s none).modify t
        fun cell => { cell with pos := -1, src := none }).decrUsed
    else (m.modify t fun cell => { cell with seqId := cell.seqId.erase s }).setTail s none := by
  have hempty : (((m.modify t fun cell => { cell with seqId := cell.seqId.erase s }).setTail
      s none).cells t).isEmpty = true ↔ (m.cells t).seqId.erase s = ∅ := by
    rw [isEmpty_iff]
    simp
  rw [RecurrentMemory.releaseTail, h]
  simp only [hempty]

theorem TailInv.releaseTail (h : TailInv c m) (s : Nat) : Released c m s (m.releaseTail s) := by
  cases htail : (m.cells s).tail with
  | none =>
    have hno : ∀ i, s ∉ (m.cells i).seqId := by
      intro i hs
      rw [(h.tail_iff s i).mpr hs] at htail
      exact absurd htail (by simp)
    rw [releaseTail_of_none htail]
    refine ⟨h, fun i => (erase_eq_of_notMem (hno i)).symm, fun t => ?_, fun _ _ => rfl,
      fun _ _ => rfl, fun i h0 hne => absurd h0 hne, rfl, rfl⟩
    by_cases ht : t = s
    · rw [if_pos ht, ht, htail]
    · rw [if_neg ht]
  | some t =>
    have hs : s ∈ (m.cells t).seqId := (h.tail_iff s t).mp htail
    have hlt := h.lt hs
    have honly : ∀ i ≠ t, s ∉ (m.cells i).seqId := by
      intro i hi hsi
      rw [(h.tail_iff s i).mpr hsi] at htail
      exact hi (Option.some.inj htail)
    have hseq : ∀ i, (((m.modify t fun cell => { cell with seqId := cell.seqId.erase s }).setTail
        s none).cells i).seqId = (m.cells i).seqId.erase s := by
      intro i
      rw [setTail_seqId]
      by_cases hi : i = t
      · subst hi
        simp
      · rw [modify_cells_ne hi, erase_eq_of_notMem (honly i hi)]
    have htails : ∀ j, (((m.modify t fun cell => { cell with seqId := cell.seqId.erase s }).setTail
        s none).cells j).tail = if j = s then none else (m.cells j).tail := by
      intro j
      rw [setTail_cells]
      by_cases hj : j = s
      · simp [hj]
      · rw [if_neg hj, if_neg hj]
        by_cases hjt : j = t
        · subst hjt
          simp
        · rw [modify_cells_ne hjt]
    rw [releaseTail_of_some htail]
    have hne : (m.cells t).seqId ≠ ∅ := ne_empty_of_mem hs
    by_cases hlast : (m.cells t).seqId.erase s = ∅
    · rw [if_pos hlast]
      have hseq' : ∀ i, ((((m.modify t fun cell => { cell with seqId := cell.seqId.erase s }).setTail
          s none).modify t fun cell => { cell with pos := -1, src := none }).decrUsed.cells i).seqId =
          (m.cells i).seqId.erase s := by
        intro i
        rw [← hseq i, decrUsed_cells]
        by_cases hi : i = t
        · subst hi
          simp
        · rw [modify_cells_ne hi]
      have htails' : ∀ j, ((((m.modify t fun cell => { cell with seqId := cell.seqId.erase s }).setTail
          s none).modify t fun cell => { cell with pos := -1, src := none }).decrUsed.cells j).tail =
          if j = s then none else (m.cells j).tail := by
        intro j
        rw [← htails j, decrUsed_cells]
        by_cases hj : j = t
        · subst hj
          simp
        · rw [modify_cells_ne hj]
      have hcount : Counted c ((((m.modify t fun cell =>
          { cell with seqId := cell.seqId.erase s }).setTail s none).modify t fun cell =>
          { cell with pos := -1, src := none }).decrUsed) := by
        refine (h.toCounted.empty hlt.2 hne (f := fun cell => { cell with pos := -1, seqId := ∅ })
          rfl rfl).congr rfl ?_ ?_
        · intro i
          by_cases hi : i = t
          · subst hi
            simp
          · simp [hi]
        · intro i
          rw [hseq' i]
          by_cases hi : i = t
          · subst hi
            simpa using hlast
          · simp [hi, erase_eq_of_notMem (honly i hi)]
      refine ⟨Released.of_cells h s hcount hseq' htails', hseq', htails', ?_, ?_, ?_, rfl, rfl⟩
      · intro i hi
        have hit : i ≠ t := by
          rintro rfl
          rw [hseq' i] at hi
          exact hi hlast
        simp [hit]
      · intro i hi
        have hit : i ≠ t := by
          rintro rfl
          rw [hseq' i] at hi
          exact hi.elim (fun hi => hi hlast) hne
        simp [hit]
      · intro i hi hwas
        by_cases hit : i = t
        · subst hit
          simp
        · rw [hseq' i, erase_eq_of_notMem (honly i hit)] at hi
          exact absurd hi hwas
    · rw [if_neg hlast]
      have hcount : Counted c ((m.modify t fun cell =>
          { cell with seqId := cell.seqId.erase s }).setTail s none) :=
        (h.toCounted.shrink hlast hne).congr rfl
          (fun i => by
            rw [setTail_pos]
            by_cases hi : i = t
            · subst hi
              simp
            · simp [hi])
          (fun i => by
            rw [hseq i]
            by_cases hi : i = t
            · subst hi
              simp
            · simp [hi, erase_eq_of_notMem (honly i hi)])
      have hkeep : ∀ i, (((m.modify t fun cell => { cell with seqId := cell.seqId.erase s }).setTail
          s none).cells i).pos = (m.cells i).pos ∧
          (((m.modify t fun cell => { cell with seqId := cell.seqId.erase s }).setTail
            s none).cells i).src = (m.cells i).src := by
        intro i
        rw [setTail_pos, setTail_src]
        by_cases hi : i = t
        · subst hi
          simp
        · simp [hi]
      refine ⟨Released.of_cells h s hcount hseq htails, hseq, htails, fun i _ => (hkeep i).1,
        fun i _ => (hkeep i).2, fun i h0 hwas => ?_, rfl, rfl⟩
      rw [hseq i] at h0
      by_cases hit : i = t
      · subst hit
        exact absurd h0 hlast
      · rw [erase_eq_of_notMem (honly i hit)] at h0
        exact absurd h0 hwas

/-! ## Copying -/

/-- A sequence that is nowhere joins the cell of another one. -/
theorem TailInv.join (h : TailInv c m) {d t : Nat} (hd : d < c.size) (hnone : (m.cells d).tail = none)
    (hne : (m.cells t).seqId ≠ ∅) :
    TailInv c ((m.modify t fun cell => { cell with seqId := insert d cell.seqId }).setTail d
      (some t)) := by
  have hno : ∀ i, d ∉ (m.cells i).seqId := by
    intro i hs
    rw [(h.tail_iff d i).mpr hs] at hnone
    exact absurd hnone (by simp)
  have hseq : ∀ i, (((m.modify t fun cell => { cell with seqId := insert d cell.seqId }).setTail d
      (some t)).cells i).seqId = if i = t then insert d (m.cells i).seqId else (m.cells i).seqId := by
    intro i
    rw [setTail_seqId]
    by_cases hi : i = t
    · subst hi
      simp
    · simp [hi]
  have hpos : ∀ i, (((m.modify t fun cell => { cell with seqId := insert d cell.seqId }).setTail d
      (some t)).cells i).pos = (m.cells i).pos := by
    intro i
    rw [setTail_pos]
    by_cases hi : i = t
    · subst hi
      simp
    · simp [hi]
  have hempty : ∀ i, (((m.modify t fun cell => { cell with seqId := insert d cell.seqId }).setTail d
      (some t)).cells i).seqId = ∅ ↔ (m.cells i).seqId = ∅ := by
    intro i
    rw [hseq]
    by_cases hi : i = t
    · rw [if_pos hi, hi]
      simp [hne]
    · rw [if_neg hi]
  refine ⟨⟨fun i => ?_, ?_⟩, fun s i => ?_, fun i hi => ⟨?_, ?_⟩⟩
  · rw [hpos, h.pos_iff, ne_eq, ne_eq, hempty]
  · rw [setTail_used, modify_used, h.used_eq, nonEmpty_congr fun i _ => hempty i]
  · rw [hseq]
    by_cases hs : s = d
    · subst hs
      rw [setTail_tail_same]
      by_cases hi : i = t
      · simp [hi]
      · simp [hi, hno i, Ne.symm hi]
    · rw [setTail_tail_ne hs]
      have htail : ((m.modify t fun cell => { cell with seqId := insert d cell.seqId }).cells s).tail =
          (m.cells s).tail := by
        by_cases hst : s = t
        · subst hst
          simp
        · simp [hst]
      rw [htail, h.tail_iff]
      split
      · simp [hs]
      · rfl
  · rw [hempty, (h.outside i hi).1]
  · have hid : i ≠ d := by omega
    rw [setTail_tail_ne hid]
    have hit : i ≠ t := by
      rintro rfl
      exact hne (h.outside i hi).1
    rw [modify_cells_ne hit]
    exact (h.outside i hi).2

/-- `seq_cp` keeps the invariant. -/
theorem TailInv.seqCp (h : TailInv c m) (seqIdSrc seqIdDst : Int) : TailInv c (m.seqCp c seqIdSrc seqIdDst) := by
  unfold RecurrentMemory.seqCp
  split
  · exact h
  · split
    · rename_i hrange
      have hrel := h.releaseTail seqIdDst.toNat
      dsimp only
      split
      · exact hrel.inv
      · rename_i t htail
        refine hrel.inv.join (by omega) ?_ ?_
        · rw [hrel.tail, if_pos rfl]
        · exact ne_empty_of_mem ((hrel.inv.tail_iff _ t).mp htail)
    · exact h

/-! ## Shifting -/

/-- The position of a cell changes, and stays one. -/
theorem TailInv.setPos (h : TailInv c m) {t : Nat} {f : Int → Int} (hpos : 0 ≤ (m.cells t).pos)
    (hf : 0 ≤ f (m.cells t).pos) :
    TailInv c (m.modify t fun cell => { cell with pos := f cell.pos }) := by
  have hseq : ∀ i, ((m.modify t fun cell => { cell with pos := f cell.pos }).cells i).seqId = (m.cells i).seqId := by
    intro i
    by_cases hi : i = t
    · subst hi
      simp
    · simp [hi]
  have htail : ∀ i, ((m.modify t fun cell => { cell with pos := f cell.pos }).cells i).tail = (m.cells i).tail := by
    intro i
    by_cases hi : i = t
    · subst hi
      simp
    · simp [hi]
  refine ⟨⟨fun i => ?_, ?_⟩, fun s i => by rw [htail, hseq, h.tail_iff], fun i hi => by
    rw [hseq, htail]
    exact h.outside i hi⟩
  · rw [hseq]
    by_cases hi : i = t
    · subst hi
      simpa [hf] using (h.pos_iff i).mp hpos
    · simpa [hi] using h.pos_iff i
  · rw [modify_used, h.used_eq, nonEmpty_congr fun i _ => by rw [hseq]]

/-- What keeps the invariant in a shift: the new position is not negative. -/
def ShiftStays (c : RecurrentConfig) (m : RecurrentMemory) (seqId p0 p1 : Int) (f : Int → Int) :
    Prop :=
  rangeLo p0 ≠ rangeHi p1 → 0 ≤ seqId → seqId < c.size → ∀ t, (m.cells seqId.toNat).tail = some t →
    rangeLo p0 ≤ (m.cells t).pos → (m.cells t).pos < rangeHi p1 → 0 ≤ f (m.cells t).pos

theorem TailInv.mapPos (h : TailInv c m) {seqId p0 p1 : Int} {f : Int → Int}
    (hf : ShiftStays c m seqId p0 p1 f) : TailInv c (m.mapPos c seqId p0 p1 f) := by
  unfold RecurrentMemory.mapPos
  by_cases hne : rangeLo p0 = rangeHi p1
  · simp only [if_pos hne]
    exact h
  · simp only [if_neg hne]
    split
    · rename_i hrange
      split
      · exact h
      · rename_i t htail
        split
        · rename_i hin
          have hs := (h.tail_iff _ t).mp htail
          exact h.setPos ((h.pos_iff t).mpr (ne_empty_of_mem hs))
            (hf hne hrange.1 hrange.2 t htail hin.2.1 hin.2.2)
        · exact h
    · exact h

/-! ## Removing -/

/-- The tails and the sets stay. -/
theorem TailInv.congr (h : TailInv c m) (hcount : Counted c m')
    (hcells : ∀ i, (m'.cells i).seqId = (m.cells i).seqId ∧ (m'.cells i).tail = (m.cells i).tail) :
    TailInv c m' where
  toCounted := hcount
  tail_iff s i := by rw [(hcells s).2, (hcells i).1, h.tail_iff]
  outside i hi := by
    rw [(hcells i).1, (hcells i).2]
    exact h.outside i hi

/-- Only fields that the invariant does not mention change. -/
theorem TailInv.congr_cells (h : TailInv c m) (hused : m'.used = m.used)
    (hcells : m'.cells = m.cells) : TailInv c m' :=
  h.congr (h.toCounted.congr hused (fun i => by rw [hcells]) fun i => by rw [hcells])
    fun i => by rw [hcells]; exact ⟨rfl, rfl⟩

section Remove

variable {seqId p0 p1 : Int}

theorem seqRmCell_eq (σ : RecurrentMemory × Nat) (i : Nat) : seqRmCell c seqId p0 p1 σ i =
    if (σ.1.cells i).Loses seqId p0 p1 then
      if (σ.1.cells i).left seqId = ∅ then
        ((if 0 ≤ (σ.1.cells i).pos then σ.1.decrUsed else σ.1).modify i fun cell =>
          { cell with seqId := ∅, pos := -1, src := none }, if σ.2 = c.size then i else σ.2)
      else (σ.1.modify i fun cell => { cell with seqId := (σ.1.cells i).left seqId }, σ.2)
    else σ := rfl

theorem seqRmCell_rewrites (σ : RecurrentMemory × Nat) (i : Nat) :
    RewritesAt (fun (σ : RecurrentMemory × Nat) i => σ.1.cells i) i
      (RecurrentCell.remove seqId p0 p1) σ (seqRmCell c seqId p0 p1 σ i) := by
  have hdecr : (if 0 ≤ (σ.1.cells i).pos then σ.1.decrUsed else σ.1).cells = σ.1.cells := by
    split <;> rfl
  rw [seqRmCell_eq]
  by_cases hloses : (σ.1.cells i).Loses seqId p0 p1
  · by_cases hleft : (σ.1.cells i).left seqId = ∅
    · refine ⟨?_, fun j hj => ?_⟩
      · simp [RecurrentCell.remove, hloses, hleft, hdecr]
      · simp [hloses, hleft, hj, hdecr]
    · refine ⟨?_, fun j hj => ?_⟩
      · simp [RecurrentCell.remove, hloses, hleft]
      · simp [hloses, hleft, hj]
  · refine ⟨?_, fun j _ => ?_⟩
    · simp [RecurrentCell.remove, hloses]
    · simp [hloses]

theorem seqRmCell_counted {σ : RecurrentMemory × Nat} (h : Counted c σ.1) {i : Nat} (hi : i < c.size)
    (hp0 : 0 ≤ p0) : Counted c (seqRmCell c seqId p0 p1 σ i).1 := by
  rw [seqRmCell_eq]
  by_cases hloses : (σ.1.cells i).Loses seqId p0 p1
  · have hpos : 0 ≤ (σ.1.cells i).pos := Int.le_trans hp0 hloses.1
    have hne := (h.pos_iff i).mp hpos
    rw [if_pos hloses]
    by_cases hleft : (σ.1.cells i).left seqId = ∅
    · rw [if_pos hleft, if_pos hpos]
      exact h.empty hi hne (f := fun cell => { cell with seqId := ∅, pos := -1, src := none }) rfl rfl
    · rw [if_neg hleft]
      exact h.shrink hleft hne
  · rw [if_neg hloses]
    exact h

/-- The loop of `seq_rm` treats every cell alike. -/
theorem seqRmCells_cells (i : Nat) : (m.seqRmCells c seqId p0 p1).cells i =
    if i < c.size then (m.cells i).remove seqId p0 p1 else m.cells i := by
  rw [seqRmCells, moveHead_cells]
  exact Loops.foldl_range_view (fun (σ : RecurrentMemory × Nat) i => σ.1.cells i)
    seqRmCell_rewrites c.size i (m, c.size)

theorem seqRmCells_counted (h : Counted c m) (hp0 : 0 ≤ p0) : Counted c (m.seqRmCells c seqId p0 p1) := by
  have hloop : Counted c ((List.range c.size).foldl (seqRmCell c seqId p0 p1) (m, c.size)).1 :=
    Loops.foldl_range_inv (I := fun _ (σ : RecurrentMemory × Nat) => Counted c σ.1) h
      fun i hi σ hσ => seqRmCell_counted hσ hi hp0
  exact hloop.congr (moveHead_used _) (fun i => by rw [seqRmCells, moveHead_cells])
    fun i => by rw [seqRmCells, moveHead_cells]

/-- Where no cell loses a sequence nothing happens. -/
theorem TailInv.seqRmCells_idle (h : TailInv c m) (hp0 : 0 ≤ p0)
    (hidle : ∀ i, ¬(m.cells i).Loses seqId p0 p1) : TailInv c (m.seqRmCells c seqId p0 p1) := by
  have hcells : ∀ i, (m.seqRmCells c seqId p0 p1).cells i = m.cells i := by
    intro i
    rw [seqRmCells_cells, RecurrentCell.remove, if_neg (hidle i), ite_self]
  exact h.congr (seqRmCells_counted h.toCounted hp0) fun i => by rw [hcells]; exact ⟨rfl, rfl⟩

/-- The sequence leaves its cell. -/
theorem TailInv.seqRmCells_tail (h : TailInv c m) (hp0 : 0 ≤ p0) (hs : 0 ≤ seqId) {t : Nat}
    (htail : (m.cells seqId.toNat).tail = some t) (hlo : p0 ≤ (m.cells t).pos)
    (hhi : (m.cells t).pos < p1) :
    TailInv c ((m.setTail seqId.toNat none).seqRmCells c seqId p0 p1) := by
  have hcount : Counted c (m.setTail seqId.toNat none) :=
    h.toCounted.congr rfl (fun i => setTail_pos ..) fun i => setTail_seqId ..
  have honly : ∀ i, seqId.toNat ∈ (m.cells i).seqId ↔ i = t := by
    intro i
    rw [← h.tail_iff, htail, Option.some.injEq]
    exact eq_comm
  have hlt := h.lt ((honly t).mpr rfl)
  have hremove : ∀ i, (((m.setTail seqId.toNat none).cells i).remove seqId p0 p1).seqId =
      (m.cells i).seqId.erase seqId.toNat ∧
      (((m.setTail seqId.toNat none).cells i).remove seqId p0 p1).tail =
        ((m.setTail seqId.toNat none).cells i).tail := by
    intro i
    have hloses : ((m.setTail seqId.toNat none).cells i).Loses seqId p0 p1 ↔ i = t := by
      rw [RecurrentCell.Loses, setTail_pos, hasSeqId_iff, setTail_seqId, honly]
      constructor
      · rintro ⟨-, -, h | h⟩
        · omega
        · exact h.2
      · rintro rfl
        exact ⟨hlo, hhi, .inr ⟨hs, rfl⟩⟩
    have hneg : ¬seqId < 0 := by omega
    unfold RecurrentCell.remove
    split
    · unfold RecurrentCell.left
      rw [if_neg hneg, setTail_seqId]
      split
      · rename_i hleft
        exact ⟨hleft.symm, rfl⟩
      · exact ⟨rfl, rfl⟩
    · rename_i hno
      rw [hloses] at hno
      rw [setTail_seqId, erase_eq_of_notMem fun hs => hno ((honly i).mp hs)]
      exact ⟨rfl, rfl⟩
  refine Released.of_cells h seqId.toNat (seqRmCells_counted hcount hp0) (fun i => ?_) fun i => ?_
  · rw [seqRmCells_cells]
    split
    · exact (hremove i).1
    · rename_i hi
      rw [setTail_seqId, (h.outside i (by omega)).1, erase_empty]
  · rw [seqRmCells_cells]
    have htails : ((m.setTail seqId.toNat none).cells i).tail =
        if i = seqId.toNat then none else (m.cells i).tail := by
      rw [setTail_cells]
      split <;> rfl
    split
    · rw [(hremove i).2, htails]
    · exact htails

/-- What keeps the invariant in `seq_rm`: every sequence is removed at once only when there is
none. -/
def RemovalStays (m : RecurrentMemory) (seqId p0 p1 : Int) : Prop :=
  seqId < 0 → rangeLo p0 = 0 → rangeHi p1 = llamaPosMax →
    ∀ i, ¬(0 ≤ (m.cells i).pos ∧ (m.cells i).pos < llamaPosMax)

theorem rangeLo_nonneg (p0 : Int) : 0 ≤ rangeLo p0 := by
  unfold rangeLo
  split <;> omega

/-- A removal of the whole range resets the rollback indices first. -/
def resetWhole (c : RecurrentConfig) (m : RecurrentMemory) (seqId lo hi : Int) : RecurrentMemory :=
  if lo = 0 ∧ hi = llamaPosMax then
    if 0 ≤ seqId then m.setRsIdx c seqId 0 else { m with rsIdx := fun _ => 0 }
  else m

@[simp] theorem resetWhole_cells (seqId lo hi : Int) : (resetWhole c m seqId lo hi).cells = m.cells := by
  unfold resetWhole
  split
  · split
    · exact setRsIdx_cells ..
    · rfl
  · rfl

@[simp] theorem resetWhole_used (seqId lo hi : Int) : (resetWhole c m seqId lo hi).used = m.used := by
  unfold resetWhole
  split
  · split
    · exact setRsIdx_used ..
    · rfl
  · rfl

/-- What `seq_rm` refuses: an id that is too large, a rollback that is too long, and a part of
all sequences. -/
def Refuses (c : RecurrentConfig) (m : RecurrentMemory) (seqId lo hi : Int) : Prop :=
  c.size ≤ seqId ∨
    (∃ t, 0 ≤ seqId ∧ (m.cells seqId.toNat).tail = some t ∧ 0 < lo ∧ lo ≤ (m.cells t).pos ∧
      (m.cells t).pos < hi) ∨
    seqId < 0 ∧ ¬(lo = 0 ∧ hi = llamaPosMax)

/-- The ways that `seq_rm` takes. -/
inductive Removal (c : RecurrentConfig) (m : RecurrentMemory) (seqId lo hi : Int) :
    Bool × RecurrentMemory → Prop
  | refused (h : Refuses c m seqId lo hi) :
      Removal c m seqId lo hi (false, resetWhole c m seqId lo hi)
  /-- The sequence has no cell in the range, or there is none. -/
  | sweep (hlt : seqId < c.size)
      (hone : 0 ≤ seqId → ∀ t, (m.cells seqId.toNat).tail = some t →
        ¬(lo ≤ (m.cells t).pos ∧ (m.cells t).pos < hi))
      (hall : seqId < 0 → lo = hi ∨ lo = 0 ∧ hi = llamaPosMax) :
      Removal c m seqId lo hi (true, (resetWhole c m seqId lo hi).seqRmCells c seqId lo hi)
  | rollback (t : Nat) (hs : 0 ≤ seqId) (hlt : seqId < c.size)
      (htail : (m.cells seqId.toNat).tail = some t) (hpart : 0 < lo) (hlo : lo ≤ (m.cells t).pos)
      (hhi : (m.cells t).pos < hi) (hn : (m.cells t).pos - (lo - 1) ≤ c.nRsSeq) :
      Removal c m seqId lo hi
        (true, (m.setRsIdx c seqId ((m.cells t).pos - (lo - 1)).toNat).modify t fun cell =>
          { cell with pos := lo - 1 })
  | drop (t : Nat) (hs : 0 ≤ seqId) (hlt : seqId < c.size)
      (htail : (m.cells seqId.toNat).tail = some t) (hfrom : ¬0 < lo) (hlo : lo ≤ (m.cells t).pos)
      (hhi : (m.cells t).pos < hi) :
      Removal c m seqId lo hi
        (true, ((resetWhole c m seqId lo hi).setTail seqId.toNat none).seqRmCells c seqId lo hi)

theorem seqRm_removal : Removal c m seqId (rangeLo p0) (rangeHi p1) (m.seqRm c seqId p0 p1) := by
  unfold RecurrentMemory.seqRm
  generalize rangeLo p0 = lo
  generalize rangeHi p1 = hi
  dsimp only
  have hreset : (if lo = 0 ∧ hi = llamaPosMax then
      if 0 ≤ seqId then m.setRsIdx c seqId 0 else { m with rsIdx := fun _ => 0 } else m) =
      resetWhole c m seqId lo hi := rfl
  have hcells : (resetWhole c m seqId lo hi).cells = m.cells := resetWhole_cells ..
  rw [hreset, hcells]
  split
  · next hge => exact .refused (.inl hge)
  next hlt =>
  have hlt : seqId < c.size := by omega
  split
  · next hs =>
    split
    · next htail =>
      refine .sweep hlt (fun _ t ht => ?_) fun hneg => absurd hs (by omega)
      rw [htail] at ht
      exact absurd ht (by simp)
    · next t htail =>
      split
      · next hin =>
        obtain ⟨hpart, hlo, hhi⟩ := hin
        split
        · next hn =>
          have hwhole : resetWhole c m seqId lo hi = m := if_neg (by omega)
          rw [hwhole]
          exact .rollback t hs hlt htail hpart hlo hhi hn.2
        · exact .refused (.inr (.inl ⟨t, hs, htail, hpart, hlo, hhi⟩))
      · next hnot =>
        split
        · next hin => exact .drop t hs hlt htail (fun hpart => hnot ⟨hpart, hin⟩) hin.1 hin.2
        · next hout =>
          refine .sweep hlt (fun _ t' ht' => ?_) fun hneg => absurd hs (by omega)
          obtain rfl := Option.some.inj (htail.symm.trans ht')
          exact hout
  · next hneg =>
    split
    · next hpart =>
      have hnot : ¬(lo = 0 ∧ hi = llamaPosMax) := fun ⟨hlo, hhi⟩ =>
        hpart.2.elim (fun h => h hlo) fun h => h hhi
      exact .refused (.inr (.inr ⟨Int.not_le.mp hneg, hnot⟩))
    · next hall =>
      refine .sweep hlt (fun hs => absurd hs hneg) fun _ => ?_
      by_contra hno
      rw [not_or] at hno
      exact hall ⟨hno.1, not_and_or.mp hno.2⟩

/-- `seq_rm` keeps the invariant. -/
theorem TailInv.seqRm (h : TailInv c m) (hstay : RemovalStays m seqId p0 p1) :
    TailInv c (m.seqRm c seqId p0 p1).2 := by
  have hlo0 := rangeLo_nonneg p0
  have hr : TailInv c (resetWhole c m seqId (rangeLo p0) (rangeHi p1)) :=
    h.congr_cells (resetWhole_used ..) (resetWhole_cells ..)
  have hcase := @seqRm_removal c m seqId p0 p1
  generalize m.seqRm c seqId p0 p1 = result at hcase
  unfold RemovalStays at hstay
  generalize rangeLo p0 = lo at hlo0 hstay hr hcase
  generalize rangeHi p1 = hi at hstay hr hcase
  cases hcase with
  | refused => exact hr
  | sweep hlt hone hall =>
    refine hr.seqRmCells_idle hlo0 fun i hloses => ?_
    rw [resetWhole_cells] at hloses
    obtain ⟨hin, hup, hwho⟩ := hloses
    by_cases hs : 0 ≤ seqId
    · have hhas : (m.cells i).hasSeqId seqId = true := by
        rcases hwho with hneg | hhas
        · omega
        · exact hhas
      exact hone hs i ((h.tail_iff _ i).mpr (hasSeqId_iff.mp hhas).2) ⟨hin, hup⟩
    · rcases hall (by omega) with heq | ⟨rfl, rfl⟩
      · omega
      · exact hstay (by omega) rfl rfl i ⟨hin, hup⟩
  | rollback t hs hlt htail hpart hlo hhi hn =>
    -- a partial rollback only changes the position
    refine (h.congr_cells (setRsIdx_used ..) (setRsIdx_cells ..)).setPos
      (f := fun _ => lo - 1) ?_ ?_
    · rw [setRsIdx_cells]
      omega
    · omega
  | drop t hs hlt htail hfrom hlo hhi =>
    refine hr.seqRmCells_tail hlo0 hs (t := t) ?_ ?_ ?_
    · rw [resetWhole_cells]
      exact htail
    · rw [resetWhole_cells]
      exact hlo
    · rw [resetWhole_cells]
      exact hhi

end Remove

/-! ## Keeping one sequence -/

section Keep

variable {seqId : Int}

theorem seqKeepCell_eq (σ : RecurrentMemory × Nat) (i : Nat) : seqKeepCell c seqId σ i =
    if (σ.1.cells i).hasSeqId seqId then
      ((if (i : Int) ≠ seqId then σ.1.setTail i none else σ.1).modify i fun cell =>
        { cell with seqId := {seqId.toNat} }, σ.2)
    else
      ((if 0 ≤ (σ.1.cells i).pos then (if (i : Int) ≠ seqId then σ.1.setTail i none else σ.1).decrUsed
          else if (i : Int) ≠ seqId then σ.1.setTail i none else σ.1).modify i fun cell =>
        { cell with pos := -1, src := none, seqId := ∅ }, if σ.2 = c.size then i else σ.2) := by
  have hcell : ((if (i : Int) ≠ seqId then σ.1.setTail i none else σ.1).cells i).pos =
      (σ.1.cells i).pos ∧ ((if (i : Int) ≠ seqId then σ.1.setTail i none else σ.1).cells i).hasSeqId
        seqId = (σ.1.cells i).hasSeqId seqId := by
    split
    · exact ⟨setTail_pos .., by simp only [RecurrentCell.hasSeqId, setTail_seqId]⟩
    · exact ⟨rfl, rfl⟩
  unfold seqKeepCell
  simp only [hcell.1, hcell.2]
  cases (σ.1.cells i).hasSeqId seqId <;> rfl

theorem seqKeepCell_rewrites (σ : RecurrentMemory × Nat) (i : Nat) :
    RewritesAt (fun (σ : RecurrentMemory × Nat) i => σ.1.cells i) i
      (fun cell => cell.keep seqId i) σ (seqKeepCell c seqId σ i) := by
  have hdecr : (if 0 ≤ (σ.1.cells i).pos then
      (if (i : Int) ≠ seqId then σ.1.setTail i none else σ.1).decrUsed
      else if (i : Int) ≠ seqId then σ.1.setTail i none else σ.1).cells =
      (if (i : Int) ≠ seqId then σ.1.setTail i none else σ.1).cells := by
    split <;> rfl
  have hhere : (if (i : Int) ≠ seqId then σ.1.setTail i none else σ.1).cells i =
      { σ.1.cells i with tail := if (i : Int) ≠ seqId then none else (σ.1.cells i).tail } := by
    split
    · rw [setTail_cells, if_pos rfl]
    · rfl
  have hother : ∀ j ≠ i, (if (i : Int) ≠ seqId then σ.1.setTail i none else σ.1).cells j = σ.1.cells j := by
    intro j hj
    split
    · rw [setTail_cells, if_neg hj]
    · rfl
  rw [seqKeepCell_eq]
  by_cases hhas : (σ.1.cells i).hasSeqId seqId = true
  · refine ⟨?_, fun j hj => ?_⟩
    · simp only [if_pos hhas, modify_cells_same, hhere, RecurrentCell.keep]
    · simp only [if_pos hhas, modify_cells_ne hj, hother j hj]
  · refine ⟨?_, fun j hj => ?_⟩
    · simp only [if_neg hhas, modify_cells_same, hdecr, hhere, RecurrentCell.keep]
    · simp only [if_neg hhas, modify_cells_ne hj, hdecr, hother j hj]

theorem seqKeepCell_counted {σ : RecurrentMemory × Nat} (h : Counted c σ.1) {i : Nat}
    (hi : i < c.size) : Counted c (seqKeepCell c seqId σ i).1 := by
  have hset : Counted c (if (i : Int) ≠ seqId then σ.1.setTail i none else σ.1) ∧
      ((if (i : Int) ≠ seqId then σ.1.setTail i none else σ.1).cells i).seqId = (σ.1.cells i).seqId := by
    split
    · exact ⟨h.congr rfl (fun i => setTail_pos ..) fun i => setTail_seqId .., setTail_seqId ..⟩
    · exact ⟨h, rfl⟩
  rw [seqKeepCell_eq]
  by_cases hhas : (σ.1.cells i).hasSeqId seqId = true
  · have hne : (σ.1.cells i).seqId ≠ ∅ := ne_empty_of_mem (hasSeqId_iff.mp hhas).2
    rw [if_pos hhas]
    exact hset.1.shrink (singleton_ne_empty _) (hset.2 ▸ hne)
  · rw [if_neg hhas]
    by_cases hpos : 0 ≤ (σ.1.cells i).pos
    · rw [if_pos hpos]
      exact hset.1.empty hi (hset.2 ▸ (h.pos_iff i).mp hpos)
        (f := fun cell => { cell with pos := -1, src := none, seqId := ∅ }) rfl rfl
    · rw [if_neg hpos]
      have h0 : (σ.1.cells i).seqId = ∅ := by
        by_contra hne
        exact hpos ((h.pos_iff i).mpr hne)
      exact hset.1.emptyAgain (hset.2 ▸ h0)
        (f := fun cell => { cell with pos := -1, src := none, seqId := ∅ })
        (show (-1 : Int) < 0 by decide) rfl

/-- The loop of `seq_keep`, cell by cell. -/
theorem seqKeep_cells (i : Nat) : (m.seqKeep c seqId).cells i =
    if i < c.size then (m.cells i).keep seqId i else m.cells i := by
  rw [seqKeep, moveHead_cells]
  exact Loops.foldl_range_view_at (fun (σ : RecurrentMemory × Nat) i => σ.1.cells i)
    (g := fun i cell => cell.keep seqId i) seqKeepCell_rewrites c.size i (m, c.size)

theorem seqKeep_counted (h : Counted c m) : Counted c (m.seqKeep c seqId) := by
  have hloop : Counted c ((List.range c.size).foldl (seqKeepCell c seqId) (m, c.size)).1 :=
    Loops.foldl_range_inv (I := fun _ (σ : RecurrentMemory × Nat) => Counted c σ.1) h
      fun i hi σ hσ => seqKeepCell_counted hσ hi
  exact hloop.congr (moveHead_used _) (fun i => by rw [seqKeep, moveHead_cells])
    fun i => by rw [seqKeep, moveHead_cells]

theorem keep_seqId (cell : RecurrentCell) (i : Nat) : (cell.keep seqId i).seqId =
    if cell.hasSeqId seqId then {seqId.toNat} else ∅ := by
  unfold RecurrentCell.keep
  cases cell.hasSeqId seqId <;> rfl

theorem keep_tail (cell : RecurrentCell) (i : Nat) : (cell.keep seqId i).tail =
    if (i : Int) ≠ seqId then none else cell.tail := by
  unfold RecurrentCell.keep
  cases cell.hasSeqId seqId <;> rfl

/-- `seq_keep` keeps the invariant. -/
theorem TailInv.seqKeep (h : TailInv c m) (seqId : Int) : TailInv c (m.seqKeep c seqId) := by
  have hblank : ∀ i, c.size ≤ i → ((m.seqKeep c seqId).cells i).seqId = ∅ ∧
      ((m.seqKeep c seqId).cells i).tail = none := by
    intro i hi
    rw [seqKeep_cells, if_neg (by omega)]
    exact h.outside i hi
  refine ⟨seqKeep_counted h.toCounted, fun s i => ?_, hblank⟩
  by_cases hs : s < c.size
  · by_cases hi : i < c.size
    · rw [seqKeep_cells, if_pos hs, seqKeep_cells, if_pos hi, keep_tail, keep_seqId]
      by_cases hsid : (s : Int) = seqId
      · subst hsid
        rw [if_neg (not_not.mpr rfl), h.tail_iff]
        by_cases hmem : s ∈ (m.cells i).seqId <;> simp [RecurrentCell.hasSeqId, hmem]
      · rw [if_pos hsid]
        split
        · rename_i hhas
          have h0 := (hasSeqId_iff.mp hhas).1
          have hne : s ≠ seqId.toNat := by omega
          simp [hne]
        · simp
    · rw [(hblank i (by omega)).1]
      have hno : ((m.seqKeep c seqId).cells s).tail ≠ some i := by
        rw [seqKeep_cells, if_pos hs, keep_tail]
        split
        · simp
        · rw [ne_eq, h.tail_iff, (h.outside i (by omega)).1]
          exact notMem_empty s
      simp [hno]
  · rw [(hblank s (by omega)).2]
    by_cases hi : i < c.size
    · rw [seqKeep_cells, if_pos hi, keep_seqId]
      split
      · rename_i hhas
        have hlt := (h.lt (hasSeqId_iff.mp hhas).2).1
        have hne : s ≠ seqId.toNat := by omega
        simp [hne]
      · simp
    · simp [(hblank i (by omega)).1]

end Keep

end RecurrentMemory

end LlamaCpp
