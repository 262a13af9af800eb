import LlamaCpp.Recurrent.Conserve

/-!
# The graph on the recurrent memory

`s_copy` tells the graph which row to copy to which cell, and resets the rollback index of
the first sequence of the cell.  The graph clears the row `rs_z`, copies the rows, and
writes the states of the last tokens of each set, the newest into plane 0.

A row holds a state of an arbitrary type.  Plane `k` of cell `i` is row `k * size + i`.
-/

namespace LlamaCpp

open Function Finset

/-- `*seq_id.begin()` -/
def firstId (ids : Finset Nat) : Option Nat := (ids.sort (· ≤ ·)).head?

theorem firstId_mem {ids : Finset Nat} {t : Nat} (h : firstId ids = some t) : t ∈ ids :=
  (mem_sort (· ≤ ·)).mp (List.mem_of_head? h)

theorem firstId_eq_none {ids : Finset Nat} : firstId ids = none ↔ ids = ∅ := by
  unfold firstId
  rw [List.head?_eq_none_iff, ← List.length_eq_zero_iff, length_sort, card_eq_zero]

namespace RecurrentMemory

variable (c : RecurrentConfig) (m : RecurrentMemory)

/-! ## The rows to copy -/

/-- `s_copy`: the row, and the memory with the rollback index reset. -/
def sCopy (i : Nat) : Option Nat × RecurrentMemory :=
  let cell := m.cells (i + m.head)
  if c.nRsSeq = 0 then (cell.src0, m)
  else
    match firstId cell.seqId with
    | none => (cell.src0, m)
    | some seq =>
      if seq < c.nSeqMax then
        (cell.src0.map (m.rsIdx seq * c.size + ·),
          { m with rsIdx := Function.update m.rsIdx seq 0 })
      else (cell.src0, m)

/-- `set_input`: the rows of all cells of the range. -/
def setInput : (Nat → Option Nat) × RecurrentMemory :=
  (List.range m.n).foldl (fun σ i =>
    (Function.update σ.1 i (σ.2.sCopy c i).1, (σ.2.sCopy c i).2)) (fun _ => none, m)

/-! ## The states that are computed -/

variable {α : Type} (zero : α)

/-- The row `rs_z` is cleared. -/
def clearRow (row : Nat → α) : Nat → α :=
  match m.rsZ with
  | none => row
  | some z => Function.update row z zero

def startState (row : Nat → α) (data : Option Nat) : α :=
  match data with
  | none => zero
  | some r => m.clearRow zero row r

/-- The rows after the graph.  `f s j a` is the state of set `s` after `j` tokens from `a`;
`junk` is what the planes behind the tokens hold. -/
def runGraph (ubatch : RecurrentUbatch) (data : Nat → Option Nat) (f : Nat → Nat → α → α)
    (junk : Nat → α) (row : Nat → α) : Nat → α := fun r =>
  let plane := r / c.size
  let cell := r % c.size
  if m.head ≤ cell ∧ cell < m.head + ubatch.nSeqs ∧ plane ≤ c.nRsSeq then
    let s := cell - m.head
    if plane < ubatch.nSeqTokens then
      f s (ubatch.nSeqTokens - plane) (m.startState zero row (data s))
    else junk r
  -- the extra states are only copied
  else if m.head + ubatch.nSeqs ≤ cell ∧ cell < m.head + m.n ∧ plane = 0 then
    m.startState zero row (data (cell - m.head))
  else m.clearRow zero row r

end RecurrentMemory

namespace RecurrentMemory

variable {c : RecurrentConfig} {m : RecurrentMemory}

/-- The rollback index that a cell is read with. -/
def cellIdx (m : RecurrentMemory) (i : Nat) : Nat :=
  match firstId (m.cells i).seqId with
  | none => 0
  | some t => m.rsIdx t

/-- The sequence is the first one of a cell among the first `k` of the range. -/
def Leads (m : RecurrentMemory) (k t : Nat) : Prop :=
  ∃ i < k, firstId (m.cells (i + m.head)).seqId = some t

instance (m : RecurrentMemory) (k t : Nat) : Decidable (m.Leads k t) :=
  inferInstanceAs (Decidable (∃ i < k, _))

/-- The memory with the indices of the first sequences of `k` cells reset. -/
def resetLeads (m : RecurrentMemory) (k : Nat) : RecurrentMemory :=
  { m with rsIdx := fun t => if m.Leads k t then 0 else m.rsIdx t }

/-- The step of `set_input` reads the index that the cell had before the loop. -/
theorem sCopy_resetLeads (hrs : 0 < c.nRsSeq) {k : Nat}
    (hlt : ∀ t, firstId (m.cells (k + m.head)).seqId = some t → t < c.nSeqMax)
    (hnew : ∀ t, firstId (m.cells (k + m.head)).seqId = some t → ¬m.Leads k t) :
    (m.resetLeads k).sCopy c k =
      ((m.cells (k + m.head)).src0.map (m.cellIdx (k + m.head) * c.size + ·), m.resetLeads (k + 1)) := by
  have hleads : ∀ t, m.Leads (k + 1) t ↔ m.Leads k t ∨ firstId (m.cells (k + m.head)).seqId = some t := by
    intro t
    constructor
    · rintro ⟨i, hi, h⟩
      rcases Nat.lt_succ_iff_lt_or_eq.mp hi with hi | rfl
      · exact .inl ⟨i, hi, h⟩
      · exact .inr h
    · rintro (⟨i, hi, h⟩ | h)
      · exact ⟨i, Nat.lt_succ_of_lt hi, h⟩
      · exact ⟨k, Nat.lt_succ_self k, h⟩
  have hcell : (m.resetLeads k).cells (k + (m.resetLeads k).head) = m.cells (k + m.head) := rfl
  have hzero : c.nRsSeq ≠ 0 := Nat.pos_iff_ne_zero.mp hrs
  cases hleast : firstId (m.cells (k + m.head)).seqId with
  | none =>
    have hsame : m.resetLeads (k + 1) = m.resetLeads k := by
      unfold resetLeads
      simp only [hleads, hleast, reduceCtorEq, or_false]
    rw [hsame]
    simp [sCopy, hcell, hleast, hzero, cellIdx]
  | some t =>
    have hidx : (m.resetLeads k).rsIdx t = m.rsIdx t := if_neg (hnew t hleast)
    have hnext : { m.resetLeads k with rsIdx := Function.update (m.resetLeads k).rsIdx t 0 } =
        m.resetLeads (k + 1) := by
      have hfun : Function.update (m.resetLeads k).rsIdx t 0 = (m.resetLeads (k + 1)).rsIdx := by
        funext u
        rcases eq_or_ne u t with rfl | hne
        · simp [resetLeads, hleads, hleast]
        · simp [resetLeads, hleads, hleast, hne, hne.symm]
      rw [hfun]
      rfl
    simp only [sCopy, hcell, hleast, hzero, hlt t hleast, hidx, hnext, cellIdx, if_false, if_true]

/-- What `set_input` reads and leaves, when no sequence is in two cells of the range. -/
theorem setInput_eq (hrs : 0 < c.nRsSeq)
    (hlt : ∀ i < m.n, ∀ t ∈ (m.cells (i + m.head)).seqId, t < c.nSeqMax)
    (hdisj : ∀ i < m.n, ∀ j < i, Disjoint (m.cells (i + m.head)).seqId (m.cells (j + m.head)).seqId) :
    (m.setInput c).2 = m.resetLeads m.n ∧ ∀ i < m.n, (m.setInput c).1 i =
      (m.cells (i + m.head)).src0.map (m.cellIdx (i + m.head) * c.size + ·) := by
  have hloop : ∀ k ≤ m.n, ∃ data : Nat → Option Nat,
      (List.range k).foldl (fun σ i => (Function.update σ.1 i (σ.2.sCopy c i).1, (σ.2.sCopy c i).2))
        (fun _ => none, m) = (data, m.resetLeads k) ∧
      ∀ i < k, data i = (m.cells (i + m.head)).src0.map (m.cellIdx (i + m.head) * c.size + ·) := by
    intro k
    induction k with
    | zero =>
      intro _
      refine ⟨fun _ => none, ?_, fun i hi => absurd hi (Nat.not_lt_zero i)⟩
      have hzero : m.resetLeads 0 = m := by
        have hno : ∀ t, ¬m.Leads 0 t := fun t ⟨i, hi, _⟩ => absurd hi (Nat.not_lt_zero i)
        unfold resetLeads
        simp only [hno, if_false]
      rw [hzero]
      rfl
    | succ k ih =>
      intro hk
      obtain ⟨data, hrun, hdata⟩ := ih (by omega)
      have hstep := sCopy_resetLeads (m := m) hrs (k := k)
        (fun t ht => hlt k hk t (firstId_mem ht))
        (fun t ht ⟨j, hj, h⟩ => disjoint_left.mp (hdisj k hk j hj)
          (firstId_mem ht) (firstId_mem h))
      refine ⟨Function.update data k ((m.cells (k + m.head)).src0.map
        (m.cellIdx (k + m.head) * c.size + ·)), ?_, fun i hi => ?_⟩
      · rw [List.range_succ, List.foldl_append, hrun, List.foldl_cons, List.foldl_nil, hstep]
      · rcases Nat.lt_succ_iff_lt_or_eq.mp hi with hi | rfl
        · rw [update_of_ne (Nat.ne_of_lt hi), hdata i hi]
        · rw [update_self]
  obtain ⟨data, hrun, hdata⟩ := hloop m.n (Nat.le_refl _)
  unfold setInput
  rw [hrun]
  exact ⟨rfl, hdata⟩

section Rows

variable {α : Type} {zero : α} {ubatch : RecurrentUbatch} {data : Nat → Option Nat}
  {f : Nat → Nat → α → α} {junk row : Nat → α} {k i : Nat}

theorem plane_div (hi : i < c.size) : (k * c.size + i) / c.size = k := by
  rw [Nat.mul_comm, Nat.mul_add_div c.size_pos, Nat.div_eq_of_lt hi, Nat.add_zero]

theorem plane_mod (hi : i < c.size) : (k * c.size + i) % c.size = i := by
  rw [Nat.mul_comm, Nat.mul_add_mod, Nat.mod_eq_of_lt hi]

theorem clearRow_of_ne {r : Nat} (h : ∀ z, m.rsZ = some z → r ≠ z) : m.clearRow zero row r = row r := by
  unfold clearRow
  cases hz : m.rsZ with
  | none => rfl
  | some z => exact update_of_ne (h z hz) _ _

theorem clearRow_zero {z : Nat} (h : m.rsZ = some z) : m.clearRow zero row z = zero := by
  unfold clearRow
  rw [h]
  exact update_self ..

theorem clearRow_of_clear {r : Nat} (h : row r = zero) : m.clearRow zero row r = zero := by
  unfold clearRow
  cases m.rsZ with
  | none => exact h
  | some z =>
    dsimp only
    rcases eq_or_ne r z with rfl | hne
    · rw [update_self]
    · rw [update_of_ne hne, h]

theorem runGraph_set {s : Nat} (hs : s < ubatch.nSeqs) (hi : s + m.head < c.size)
    (hk : k ≤ c.nRsSeq) (htok : k < ubatch.nSeqTokens) :
    m.runGraph c zero ubatch data f junk row (k * c.size + (s + m.head)) =
      f s (ubatch.nSeqTokens - k) (m.startState zero row (data s)) := by
  unfold runGraph
  rw [plane_div hi, plane_mod hi, if_pos ⟨by omega, by omega, hk⟩, if_pos htok, Nat.add_sub_cancel]

/-- The other cells of the range are copied. -/
theorem runGraph_extra (hi : i < c.size) (hlo : m.head + ubatch.nSeqs ≤ i) (hhi : i < m.head + m.n) :
    m.runGraph c zero ubatch data f junk row i = m.startState zero row (data (i - m.head)) := by
  unfold runGraph
  rw [Nat.div_eq_of_lt hi, Nat.mod_eq_of_lt hi, if_neg (by omega), if_pos ⟨hlo, hhi, rfl⟩]

/-- The cells outside the range are not touched. -/
theorem runGraph_outside (hi : i < c.size) (hroom : ubatch.nSeqs ≤ m.n)
    (hout : i < m.head ∨ m.head + m.n ≤ i) :
    m.runGraph c zero ubatch data f junk row (k * c.size + i) = m.clearRow zero row (k * c.size + i) := by
  unfold runGraph
  rw [plane_div hi, plane_mod hi, if_neg (by omega), if_neg (by omega)]

end Rows

end RecurrentMemory

end LlamaCpp
