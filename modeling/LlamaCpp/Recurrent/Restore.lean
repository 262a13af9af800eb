import LlamaCpp.Kv.StateRead
import LlamaCpp.Recurrent.Placement
import LlamaCpp.Recurrent.State

/-!
# What a restored memory looks like

The reader of a whole memory fills the cells as it goes.  `takeCells` reads the same bytes
into a table of its own, so that a condition on the input can be stated without the memory
(`SavedWell`); `readCells_alongside` says that the two agree.  A single sequence is read
before anything is placed (`SeqWell`).
-/

namespace LlamaCpp.RecurrentMemory

open Readers (Reader Input Fault Quiet Alongside takeLE getLE modifySt getSt bind_ok bind_error)
open KvCache (takeI32 takeI32_of_le takeI32_of_lt takeLE_of_le takeLE_of_lt i32At)

variable {c : RecurrentConfig} {m m' : RecurrentMemory}

/-! ## The records of a whole memory -/

structure SavedCells where
  pos : Nat → Int := fun _ => -1
  ids : Nat → Finset Nat := fun _ => ∅

variable (c) in
/-- The sequences of record `i`; a sequence has one record. -/
def takeIds (i : Nat) : Nat → Reader SavedCells Bool
  | 0 => return true
  | n + 1 => do
      let seqId ← takeI32
      if seqId < 0 ∨ c.nSeqMax ≤ seqId then return false
      else if ∃ j < c.size, seqId.toNat ∈ (← getSt).ids j then return false
      else
        modifySt fun saved => { saved with
          ids := Function.update saved.ids i (insert seqId.toNat (saved.ids i)) }
        takeIds i n

variable (c) in
def takeCell (i : Nat) : Reader SavedCells Bool := do
  let pos ← takeI32
  let nSeqId ← takeLE 4
  modifySt fun saved => { saved with pos := Function.update saved.pos i pos }
  takeIds c i nSeqId

variable {n : Nat} {saved : SavedCells}

variable (c) in
/-- The records of `n` cells. -/
def takeCells (n : Nat) : Reader SavedCells Bool := (List.range n).allM (takeCell c)

/-- The memory has been cleared, and holds the records of at most `n` cells. -/
structure Holds (c : RecurrentConfig) (n : Nat) (m : RecurrentMemory) (saved : SavedCells) : Prop where
  head : m.head = 0
  used : m.used = 0
  pos : ∀ i < c.size, (m.cells i).pos = saved.pos i
  seqId : ∀ i, (m.cells i).seqId = saved.ids i
  tail_iff : ∀ s i, (m.cells s).tail = some i ↔ s ∈ saved.ids i
  outside : Outside c m
  rest : ∀ i, n ≤ i → saved.pos i = -1 ∧ saved.ids i = ∅

theorem Holds.clear (hout : Outside c m) (n : Nat) : Holds c n (m.clear c) {} where
  head := rfl
  used := rfl
  pos i hi := by rw [clear_cells, if_pos hi]
  seqId i := (clear_blank hout i).1
  tail_iff s i := by simp [(clear_blank hout s).2.1]
  outside i hi := by
    rw [clear_cells, if_neg (Nat.not_lt_of_le hi)]
    exact hout i hi
  rest _ _ := ⟨rfl, rfl⟩

theorem Holds.setPos {i : Nat} (h : Holds c n m saved) (hn : n ≤ c.size) (hi : i < n) (pos : Int) :
    Holds c n (m.modify i fun cell => { cell with pos := pos })
      { saved with pos := Function.update saved.pos i pos } where
  head := h.head
  used := h.used
  pos j hj := by
    rcases eq_or_ne j i with rfl | hne
    · simp [modify]
    · simpa [modify, hne] using h.pos j hj
  seqId j := by
    rcases eq_or_ne j i with rfl | hne
    · simpa [modify] using h.seqId j
    · simpa [modify, hne] using h.seqId j
  tail_iff s j := by
    rw [← h.tail_iff s j]
    rcases eq_or_ne s i with rfl | hne
    · simp [modify]
    · simp [modify, hne]
  outside j hj := by
    have hne : j ≠ i := by omega
    simpa [modify, hne] using h.outside j hj
  rest j hj := by
    have hne : j ≠ i := by omega
    simpa [hne] using h.rest j hj

/-- A sequence without a cell joins cell `i`. -/
theorem Holds.addId {i s : Nat} (h : Holds c n m saved) (hn : n ≤ c.size) (hi : i < n) (hs : s < c.size)
    (hnew : (m.cells s).tail = none) :
    Holds c n ((m.modify i fun cell => { cell with seqId := insert s cell.seqId }).setTail s
      (some i)) { saved with ids := Function.update saved.ids i (insert s (saved.ids i)) } where
  head := h.head
  used := h.used
  pos j hj := by
    rw [setTail_cells, ← h.pos j hj]
    rcases eq_or_ne j i with rfl | hne
    · split <;> simp [modify]
    · split <;> simp [modify, hne]
  seqId j := by
    rw [setTail_cells]
    rcases eq_or_ne j i with rfl | hne
    · split <;> simp [modify, h.seqId]
    · split <;> simp [modify, hne, h.seqId]
  tail_iff t j := by
    rw [setTail_cells]
    have hkeep : ((m.modify i fun cell => { cell with seqId := insert s cell.seqId }).cells t).tail =
        (m.cells t).tail := by
      rcases eq_or_ne t i with rfl | hne
      · simp [modify]
      · simp [modify, hne]
    have hnowhere : ∀ j, s ∉ saved.ids j := fun j hmem => by
      simp [(h.tail_iff s j).mpr hmem] at hnew
    rcases eq_or_ne t s with rfl | hts
    · rcases eq_or_ne j i with rfl | hne
      · simp
      · simp [hne, hne.symm, hnowhere j]
    · rw [if_neg hts, hkeep, h.tail_iff]
      rcases eq_or_ne j i with rfl | hne
      · simp [hts]
      · simp [hne]
  outside j hj := by
    have hji : j ≠ i := by omega
    have hjs : j ≠ s := by omega
    rw [setTail_cells, if_neg hjs]
    simpa [modify, hji] using h.outside j hj
  rest j hj := by
    have hne : j ≠ i := by omega
    simpa [hne] using h.rest j hj

theorem readIds_alongside {i : Nat} (hn : n ≤ c.size) (hi : i < n) (nSeqId : Nat) (bytes : List UInt8)
    (h : Holds c n m saved) : Alongside (Holds c n) (Outside c) (readIds c i nSeqId ⟨bytes, m⟩)
      (takeIds c i nSeqId ⟨bytes, saved⟩) := by
  induction nSeqId generalizing bytes m saved with
  | zero => exact .done h
  | succ nSeqId ih =>
    unfold readIds takeIds
    by_cases hlen : 4 ≤ bytes.length
    · rw [bind_ok (takeI32_of_le hlen m), bind_ok (takeI32_of_le hlen saved)]
      generalize i32At bytes = seqId
      by_cases hout : seqId < 0 ∨ c.nSeqMax ≤ seqId
      · rw [if_pos hout, if_pos hout]
        exact .refused _ h.outside
      · rw [if_neg hout, if_neg hout]
        have hs : seqId.toNat < c.size := by
          have := c.nSeqMax_le
          omega
        have hkeep : (((m.modify i fun cell =>
            { cell with seqId := insert seqId.toNat cell.seqId }).cells seqId.toNat).tail) =
            (m.cells seqId.toNat).tail := by
          rcases eq_or_ne seqId.toNat i with heq | hne
          · simp [modify, heq]
          · simp [modify, hne]
        rw [bind_ok (Readers.modifySt_run _ _), bind_ok (Readers.getSt_run _), bind_ok (Readers.getSt_run _)]
        rw [hkeep]
        cases htail : (m.cells seqId.toNat).tail with
        | none =>
          have hfree : ¬∃ j < c.size, seqId.toNat ∈ saved.ids j := by
            rintro ⟨j, -, hmem⟩
            simp [(h.tail_iff _ j).mpr hmem] at htail
          rw [if_neg (by simp), if_neg hfree, bind_ok (Readers.modifySt_run _ _), bind_ok (Readers.modifySt_run _ _)]
          exact ih _ (h.addId hn hi hs htail)
        | some t =>
          have hmem := (h.tail_iff _ t).mp htail
          have ht : t < c.size := by
            by_contra hge
            rw [← h.seqId t, (h.outside t (Nat.le_of_not_lt hge)).1] at hmem
            exact Finset.notMem_empty _ hmem
          rw [if_pos (by simp), if_pos ⟨t, ht, hmem⟩]
          refine .refused _ fun j hj => ?_
          have hne : j ≠ i := by omega
          simpa [modify, hne] using h.outside j hj
    · rw [bind_error (takeI32_of_lt (Nat.lt_of_not_le hlen) m),
        bind_error (takeI32_of_lt (Nat.lt_of_not_le hlen) saved)]
      exact .cut h

theorem readCell_alongside {i : Nat} (hn : n ≤ c.size) (hi : i < n) (bytes : List UInt8)
    (h : Holds c n m saved) :
    Alongside (Holds c n) (Outside c) (readCell c i ⟨bytes, m⟩) (takeCell c i ⟨bytes, saved⟩) := by
  unfold readCell takeCell
  by_cases hpos : 4 ≤ bytes.length
  · rw [bind_ok (takeI32_of_le hpos m), bind_ok (takeI32_of_le hpos saved)]
    by_cases hcount : 4 ≤ (bytes.drop 4).length
    · rw [bind_ok (takeLE_of_le hcount m), bind_ok (takeLE_of_le hcount saved),
        bind_ok (Readers.modifySt_run _ _), bind_ok (Readers.modifySt_run _ _)]
      exact readIds_alongside hn hi _ _ (h.setPos hn hi _)
    · rw [bind_error (takeLE_of_lt (Nat.lt_of_not_le hcount) m),
        bind_error (takeLE_of_lt (Nat.lt_of_not_le hcount) saved)]
      exact .cut h
  · rw [bind_error (takeI32_of_lt (Nat.lt_of_not_le hpos) m),
      bind_error (takeI32_of_lt (Nat.lt_of_not_le hpos) saved)]
    exact .cut h

theorem readCells_alongside (hn : n ≤ c.size) (bytes : List UInt8) (h : Holds c n m saved) :
    Alongside (Holds c n) (Outside c)
      ((List.range n).allM (readCell c) ⟨bytes, m⟩) (takeCells c n ⟨bytes, saved⟩) :=
  Alongside.allM _ (fun _ hi bytes _ _ hst =>
    readCell_alongside hn (List.mem_range.mp hi) bytes hst) h

end LlamaCpp.RecurrentMemory
