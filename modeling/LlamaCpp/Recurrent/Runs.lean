import LlamaCpp.Lib.Runs
import LlamaCpp.Recurrent.Restore

/-!
# Runs of the recurrent memory

`SlotInv` is what every operation can rely on: the tails agree with the sets (`TailInv`) and
the search starts at a cell.  `RecurrentOp.Keeps` is the condition under which an operation
keeps it, and `reaches_tailInv` is the result for the runs whose operations do.

Three operations break the invariant.  A removal of all sequences empties the cells but
leaves the tails.  A shift may give a cell a negative position.  And a restore takes the
positions and the sets from the input as they are; an input that ends inside the records
leaves the records that have been read.
-/

namespace LlamaCpp.RecurrentMemory

open List Option

open Readers (Reader Input Fault Alongside takeLE getLE modifySt getSt state? state?_bind_ok
  state?_bind_thrown state?_bind_abort)
open KvCache (takeLE_of_le takeLE_of_lt)

variable {c : RecurrentConfig} {m m' : RecurrentMemory}

/-! ## One operation -/

/-- What every operation can rely on. -/
structure SlotInv (c : RecurrentConfig) (m : RecurrentMemory) : Prop extends TailInv c m where
  head_lt : m.head < c.size

theorem clear_slotInv (hout : Outside c m) : SlotInv c (m.clear c) where
  toTailInv := clear_tailInv hout
  head_lt := c.size_pos

section Heads

variable {seqId p0 p1 : Int}

theorem moveHead_head_le (newHead : Nat) : (m.moveHead c newHead).head ≤ m.head := by
  unfold moveHead
  split
  · next h => exact Nat.le_of_lt h.2
  · exact Nat.le_refl _

@[simp] theorem setRsIdx_head (idx : Nat) : (m.setRsIdx c seqId idx).head = m.head := by
  unfold setRsIdx
  split <;> rfl

theorem seqRmCell_head (σ : RecurrentMemory × Nat) (i : Nat) : (seqRmCell c seqId p0 p1 σ i).1.head = σ.1.head := by
  rw [seqRmCell_eq]
  split
  · split
    · split <;> rfl
    · rfl
  · rfl

theorem seqKeepCell_head (σ : RecurrentMemory × Nat) (i : Nat) : (seqKeepCell c seqId σ i).1.head = σ.1.head := by
  rw [seqKeepCell_eq]
  split
  · split <;> rfl
  · split <;> split <;> rfl

theorem seqRmCell_rsIdx (σ : RecurrentMemory × Nat) (i : Nat) :
    (seqRmCell c seqId p0 p1 σ i).1.rsIdx = σ.1.rsIdx := by
  rw [seqRmCell_eq]
  split
  · split
    · split <;> rfl
    · rfl
  · rfl

theorem seqKeepCell_rsIdx (σ : RecurrentMemory × Nat) (i : Nat) : (seqKeepCell c seqId σ i).1.rsIdx = σ.1.rsIdx := by
  rw [seqKeepCell_eq]
  split
  · split <;> rfl
  · split <;> split <;> rfl

/-- A loop whose iterations keep a field keeps it. -/
theorem foldl_field {β : Type} (g : RecurrentMemory → β)
    {f : RecurrentMemory × Nat → Nat → RecurrentMemory × Nat} (hf : ∀ σ i, g (f σ i).1 = g σ.1)
    (is : List Nat) (σ : RecurrentMemory × Nat) : g (is.foldl f σ).1 = g σ.1 := by
  induction is generalizing σ with
  | nil => rfl
  | cons i is ih => exact (ih _).trans (hf σ i)

theorem seqRmCells_rsIdx : (m.seqRmCells c seqId p0 p1).rsIdx = m.rsIdx :=
  (moveHead_rsIdx _).trans (foldl_field RecurrentMemory.rsIdx seqRmCell_rsIdx _ _)

theorem seqKeep_rsIdx : (m.seqKeep c seqId).rsIdx = m.rsIdx :=
  (moveHead_rsIdx _).trans (foldl_field RecurrentMemory.rsIdx seqKeepCell_rsIdx _ _)

theorem seqRmCells_head_le : (m.seqRmCells c seqId p0 p1).head ≤ m.head :=
  (moveHead_head_le _).trans (Nat.le_of_eq (foldl_field RecurrentMemory.head seqRmCell_head _ _))

theorem seqKeep_head_le : (m.seqKeep c seqId).head ≤ m.head :=
  (moveHead_head_le _).trans (Nat.le_of_eq (foldl_field RecurrentMemory.head seqKeepCell_head _ _))

theorem resetWhole_head (lo hi : Int) : (resetWhole c m seqId lo hi).head = m.head := by
  unfold resetWhole
  split
  · split
    · exact setRsIdx_head 0
    · rfl
  · rfl

theorem seqRm_head_le : (m.seqRm c seqId p0 p1).2.head ≤ m.head := by
  have hcase := @seqRm_removal c m seqId p0 p1
  generalize m.seqRm c seqId p0 p1 = result at hcase
  cases hcase with
  | refused => exact Nat.le_of_eq (resetWhole_head ..)
  | sweep | drop => exact seqRmCells_head_le.trans (Nat.le_of_eq (resetWhole_head ..))
  | rollback => exact Nat.le_of_eq (setRsIdx_head _)

theorem releaseTail_head (s : Nat) : (m.releaseTail s).head = m.head := by
  unfold releaseTail
  split
  · rfl
  · extract_lets m₁ m₂
    split <;> rfl

theorem seqCp_head (seqIdSrc seqIdDst : Int) : (m.seqCp c seqIdSrc seqIdDst).head = m.head := by
  unfold seqCp
  split
  · rfl
  · split
    · extract_lets m₁
      split
      · exact releaseTail_head _
      · exact releaseTail_head _
    · rfl

theorem mapPos_head (f : Int → Int) : (m.mapPos c seqId p0 p1 f).head = m.head := by
  unfold mapPos
  extract_lets lo hi
  split
  · rfl
  · split
    · split
      · rfl
      · extract_lets cell
        split <;> rfl
    · rfl

end Heads

theorem SlotInv.seqRm (h : SlotInv c m) {seqId p0 p1 : Int} (hstay : RemovalStays m seqId p0 p1) :
    SlotInv c (m.seqRm c seqId p0 p1).2 where
  toTailInv := h.toTailInv.seqRm hstay
  head_lt := Nat.lt_of_le_of_lt seqRm_head_le h.head_lt

/-! ## Restoring the whole memory -/

theorem ownRows_eq (n : Nat) : m.ownRows n = { m with
    cells := fun i =>
      if m.head ≤ i ∧ i < m.head + n then { m.cells i with src := some i } else m.cells i } := by
  induction n with
  | zero =>
    have hcells : (fun i => if m.head ≤ i ∧ i < m.head + 0 then
        { m.cells i with src := some i } else m.cells i) = m.cells :=
      funext fun i => if_neg (by omega)
    rw [hcells]
    rfl
  | succ n ih =>
    have hstep : m.ownRows (n + 1) = (m.ownRows n).modify ((m.ownRows n).head + n) fun cell =>
        { cell with src := some ((m.ownRows n).head + n) } := by
      simp [ownRows, range_succ]
    rw [hstep, ih]
    simp only [modify, RecurrentMemory.mk.injEq, true_and]
    funext i
    rcases eq_or_ne i (m.head + n) with rfl | hne
    · simp
    · have hiff : (m.head ≤ i ∧ i < m.head + (n + 1)) ↔ m.head ≤ i ∧ i < m.head + n := by omega
      simp [hne, hiff]

theorem ownRows_cells (n i : Nat) : ((m.ownRows n).cells i).pos = (m.cells i).pos ∧
    ((m.ownRows n).cells i).seqId = (m.cells i).seqId ∧
    ((m.ownRows n).cells i).tail = (m.cells i).tail := by
  rw [ownRows_eq]
  dsimp only
  split <;> exact ⟨rfl, rfl, rfl⟩

theorem Outside.ownRows (h : Outside c m) (n : Nat) {head used : Nat} :
    Outside c ({ m with head := head, used := used }.ownRows n) := fun i hi => by
  obtain ⟨hpos, hseq, htail⟩ :=
    ownRows_cells (m := { m with head := head, used := used }) n i
  rw [hpos, hseq, htail]
  exact h i hi

theorem SlotInv.ownRows (h : SlotInv c m) (n : Nat) : SlotInv c (m.ownRows n) where
  toTailInv := h.toTailInv.congr
    (h.toCounted.congr (by rw [ownRows_eq]) (fun i => (ownRows_cells n i).1)
      fun i => (ownRows_cells n i).2.1) fun i => (ownRows_cells n i).2
  head_lt := by
    rw [ownRows_eq]
    exact h.head_lt

theorem SlotInv.setRsIdx (h : SlotInv c m) (seqId : Int) (idx : Nat) : SlotInv c (m.setRsIdx c seqId idx) where
  toTailInv := h.toTailInv.congr_cells (setRsIdx_used ..) (setRsIdx_cells ..)
  head_lt := by
    rw [setRsIdx_head]
    exact h.head_lt

theorem SlotInv.resetRsIdx (h : SlotInv c m) (seqId : Int) : SlotInv c (resetRsIdx c m seqId) := by
  unfold RecurrentMemory.resetRsIdx
  split
  · exact h
  · split
    · exact ⟨h.toTailInv.congr_cells rfl rfl, h.head_lt⟩
    · exact h.setRsIdx seqId 0

section Whole

variable {n : Nat} {saved : SavedCells}

/-- The count of a memory that holds the records. -/
theorem Holds.counted (h : Holds c n m saved) (hn : n ≤ c.size) (used : Nat)
    (hwell : ∀ i < n, 0 ≤ saved.pos i ↔ saved.ids i ≠ ∅)
    (hused : used = ((Finset.range n).filter fun i => saved.ids i ≠ ∅).card) :
    Counted c { m with head := 0, used := used } where
  pos_iff i := by
    rcases Nat.lt_or_ge i c.size with hi | hi
    · change 0 ≤ (m.cells i).pos ↔ (m.cells i).seqId ≠ ∅
      rw [h.pos i hi, h.seqId i]
      rcases Nat.lt_or_ge i n with hin | hin
      · exact hwell i hin
      · obtain ⟨hpos, hids⟩ := h.rest i hin
        simp [hpos, hids]
    · obtain ⟨hseq, -, hpos⟩ := h.outside i hi
      change 0 ≤ (m.cells i).pos ↔ (m.cells i).seqId ≠ ∅
      simp [hseq, Int.not_le.mpr hpos]
  used_eq := by
    change used = _
    rw [hused]
    congr 1
    ext i
    rw [mem_nonEmpty, Finset.mem_filter, Finset.mem_range]
    change _ ↔ i < c.size ∧ (m.cells i).seqId ≠ ∅
    rw [h.seqId i]
    constructor
    · rintro ⟨hi, hne⟩
      exact ⟨Nat.lt_of_lt_of_le hi hn, hne⟩
    · rintro ⟨-, hne⟩
      refine ⟨?_, hne⟩
      by_contra hge
      exact hne (h.rest i (Nat.le_of_not_lt hge)).2

/-- The tails agree with the sets while the records are read. -/
theorem Holds.slotInv (h : Holds c n m saved) {used : Nat}
    (hcount : Counted c { m with head := 0, used := used }) :
    SlotInv c { m with head := 0, used := used } where
  toCounted := hcount
  tail_iff s i := (h.tail_iff s i).trans (by rw [← h.seqId i])
  outside i hi := ⟨(h.outside i hi).1, (h.outside i hi).2.1⟩
  head_lt := c.size_pos

/-- The memory after the last record. -/
theorem Holds.done (h : Holds c n m saved) (hn : n ≤ c.size)
    (hwell : ∀ i < n, 0 ≤ saved.pos i ∧ saved.ids i ≠ ∅) :
    SlotInv c ({ m with head := 0, used := n }.ownRows n) := by
  refine (h.slotInv (h.counted hn n (fun i hi => iff_of_true (hwell i hi).1 (hwell i hi).2) ?_)).ownRows n
  rw [Finset.filter_true_of_mem fun i hi => (hwell i (Finset.mem_range.mp hi)).2, Finset.card_range]

/-- The memory when the input ends too early. -/
theorem Holds.cut (h : Holds c n m saved) (hn : n ≤ c.size)
    (hwell : ∀ i < n, saved.pos i < 0 ∧ saved.ids i = ∅) : SlotInv c m := by
  have hcount := h.counted hn 0
    (fun i hi => iff_of_false (Int.not_le.mpr (hwell i hi).1) (not_not.mpr (hwell i hi).2)) (by
      rw [Finset.filter_false_of_mem fun i hi => not_not.mpr (hwell i (Finset.mem_range.mp hi)).2]
      rfl)
  have heq : { m with head := 0, used := 0 } = m := by
    cases m
    obtain rfl := h.head
    obtain rfl := h.used
    rfl
  rw [← heq]
  exact h.slotInv hcount

end Whole

/-- The input of a check succeeds. -/
def Succeeds (x : Reader Unit Bool) (bytes : List UInt8) : Prop := ∃ s, x ⟨bytes, ()⟩ = .ok true s

/-- What keeps the invariant in a restore of the whole memory.  A complete input has a
position and a sequence in each of its records, unless it is refused; a record of an input
that ends too early has neither. -/
def SavedWell (c : RecurrentConfig) (L : RecurrentLayout) (bytes : List UInt8) : Prop :=
  let n := getLE (bytes.take 4)
  4 ≤ bytes.length → n ≤ c.size →
    match takeCells c n ⟨bytes.drop 4, {}⟩ with
    | .ok true s => Succeeds (readData c L n) s.bytes → ∀ i < n, 0 ≤ s.st.pos i ∧ s.st.ids i ≠ ∅
    | .ok false _ => True
    | .error _ s => ∀ i < n, s.st.pos i < 0 ∧ s.st.ids i = ∅

variable {L : RecurrentLayout} {bytes : List UInt8}

/-- What a restore leaves, unless it ends the process. -/
theorem stateRead_cases {seqId : Int}
    (hst : state? (stateRead c L seqId) ⟨bytes, m⟩ = some m') :
    (bytes.length < 4 ∧ m' = m) ∨
      4 ≤ bytes.length ∧
        ((∃ s, readMeta c (getLE (bytes.take 4)) seqId ⟨bytes.drop 4, m⟩ = .error .thrown s ∧ m' = s.st) ∨
          ∃ ok s, readMeta c (getLE (bytes.take 4)) seqId ⟨bytes.drop 4, m⟩ = .ok ok s ∧
            ((ok = true ∧ Succeeds (readData c L (getLE (bytes.take 4))) s.bytes ∧ m' = resetRsIdx c s.st seqId) ∨
              m' = cleanup c s.st seqId)) := by
  unfold stateRead at hst
  by_cases hlen : 4 ≤ bytes.length
  · rw [state?_bind_ok (takeLE_of_le hlen m)] at hst
    refine .inr ⟨hlen, ?_⟩
    generalize getLE (bytes.take 4) = n at hst ⊢
    cases hmeta : readMeta c n seqId ⟨bytes.drop 4, m⟩ with
    | error e s =>
      cases e with
      | thrown =>
        rw [state?_bind_thrown (Readers.both_error hmeta)] at hst
        exact .inl ⟨s, rfl, (some.inj hst).symm⟩
      | abort =>
        rw [state?_bind_abort (Readers.both_error hmeta)] at hst
        exact absurd hst (by simp)
    | ok ok s =>
      refine .inr ⟨ok, s, rfl, ?_⟩
      cases ok with
      | false =>
        rw [state?_bind_ok (Readers.both_false hmeta)] at hst
        exact .inr (some.inj hst).symm
      | true =>
        cases hdata : readData c L n ⟨s.bytes, ()⟩ with
        | error e s' =>
          have haside := Readers.aside_error hdata
          cases e with
          | thrown =>
            rw [state?_bind_ok ((Readers.both_true hmeta).trans (Readers.orFalse_thrown haside))] at hst
            exact .inr (some.inj hst).symm
          | abort =>
            rw [state?_bind_abort ((Readers.both_true hmeta).trans (Readers.orFalse_abort haside))] at hst
            exact absurd hst (by simp)
        | ok data s' =>
          have haside := Readers.aside_ok hdata
          rw [state?_bind_ok ((Readers.both_true hmeta).trans (Readers.orFalse_ok haside))] at hst
          cases data with
          | false => exact .inr (some.inj hst).symm
          | true => exact .inl ⟨rfl, ⟨s', hdata⟩, (some.inj hst).symm⟩
  · rw [state?_bind_thrown (takeLE_of_lt (Nat.lt_of_not_le hlen) m)] at hst
    exact .inl ⟨Nat.lt_of_not_le hlen, (some.inj hst).symm⟩

theorem SlotInv.outside_clear (h : SlotInv c m) : SlotInv c (m.clear c) :=
  clear_slotInv h.toTailInv.toOutside

/-- A restore of the whole memory keeps the invariant. -/
theorem SlotInv.stateRead_all (h : SlotInv c m)
    (hwell : SavedWell c L bytes) (hst : state? (stateRead c L (-1)) ⟨bytes, m⟩ = some m') :
    SlotInv c m' := by
  rcases stateRead_cases hst with ⟨-, rfl⟩ | ⟨hlen, hcases⟩
  · exact h
  have hwell := hwell hlen
  have hclean : ∀ r : RecurrentMemory, Outside c r → SlotInv c (cleanup c r (-1)) := fun r hr =>
    clear_slotInv hr
  generalize getLE (bytes.take 4) = n at hwell hcases
  have hmeta : readMeta c n (-1) = readMetaAll c n := if_neg (by simp)
  rw [hmeta] at hcases
  unfold readMetaAll at hcases
  by_cases hn : n ≤ c.size
  · rw [if_neg (Nat.not_lt_of_le hn), Readers.bind_ok (Readers.modifySt_run _ _)] at hcases
    have halong := readCells_alongside hn (bytes.drop 4) (Holds.clear h.toTailInv.toOutside n)
    have hwell := hwell hn
    generalize hread : (List.range n).allM (readCell c) ⟨bytes.drop 4, m.clear c⟩ = r at halong
    generalize takeCells c n ⟨bytes.drop 4, {}⟩ = r' at halong hwell
    cases halong with
    | done hholds =>
      rw [Readers.bind_ok hread] at hcases
      rcases hcases with ⟨s, hrun, -⟩ | ⟨ok, s, hrun, hafter⟩ <;> cases hrun
      rcases hafter with ⟨-, hsucc, rfl⟩ | rfl
      · exact (hholds.done hn (hwell hsucc)).resetRsIdx (-1)
      · exact hclean _ (hholds.outside.ownRows n)
    | refused t hout =>
      rw [Readers.bind_ok hread] at hcases
      rcases hcases with ⟨s, hrun, -⟩ | ⟨ok, s, hrun, hafter⟩ <;> cases hrun
      rcases hafter with ⟨hok, -⟩ | rfl
      · exact absurd hok (by simp)
      · exact hclean _ hout
    | cut hholds =>
      rw [Readers.bind_error hread] at hcases
      rcases hcases with ⟨s, hrun, rfl⟩ | ⟨ok, s, hrun, -⟩ <;> cases hrun
      exact hholds.cut hn hwell
  · rw [if_pos (Nat.lt_of_not_le hn)] at hcases
    rcases hcases with ⟨s, hrun, -⟩ | ⟨ok, s, hrun, hafter⟩ <;> cases hrun
    rcases hafter with ⟨hok, -⟩ | rfl
    · exact absurd hok (by simp)
    · exact hclean _ h.toTailInv.toOutside

/-! ## Restoring one sequence -/

section One

variable {dest : Int} {pos : List Int}

theorem restoreUbatch_wellFormed (dest : Int) (hpos : pos ≠ []) : (restoreUbatch dest pos).WellFormed where
  equal := rfl
  sets_pos := Nat.one_pos
  tokens_pos := length_pos_iff.mpr hpos
  nonempty s hs := by
    obtain rfl : s = 0 := Nat.lt_one_iff.mp hs
    simp [RecurrentUbatch.seqSet, restoreUbatch]
  nodup s hs := by
    obtain rfl : s = 0 := Nat.lt_one_iff.mp hs
    simp [RecurrentUbatch.seqSet, restoreUbatch]
  disjoint s hs t ht hne := by
    have hs : s = 0 := Nat.lt_one_iff.mp hs
    have ht : t = 0 := Nat.lt_one_iff.mp ht
    exact absurd (hs.trans ht.symm) hne

/-- A destination that is out of range is refused before anything changes. -/
theorem findSlot_refused (m : RecurrentMemory) (hdest : dest < 0 ∨ c.size ≤ dest) (pos : List Int) :
    ∃ r, m.findSlot c (restoreUbatch dest pos) = some (false, r) ∧ r.cells = m.cells ∧
      r.used = m.used ∧ r.head ≤ m.head := by
  have hrefused : ∀ r : RecurrentMemory,
      checkSets c (restoreUbatch dest pos) (List.range 1) r = (false, r) := fun r => by
    simp [checkSets, checkSet, RecurrentUbatch.seqSet, restoreUbatch, hdest]
  unfold findSlot
  extract_lets r
  have hr : r.cells = m.cells ∧ r.used = m.used ∧ r.head ≤ m.head := by
    simp only [r]
    split <;> exact ⟨rfl, rfl, by simp⟩
  refine ⟨r, ?_, hr⟩
  have hsets : (restoreUbatch dest pos).nSeqs = 1 := rfl
  rw [if_neg (by simp [restoreUbatch]), hsets, hrefused]

/-- A destination in range is found, or the process ends. -/
theorem findSlot_found (h : SlotInv c m) (hlo : 0 ≤ dest) (hhi : dest < c.size) (hpos : pos ≠ [])
    {found : Bool} (hfind : m.findSlot c (restoreUbatch dest pos) = some (found, m')) :
    found = true := by
  have hr : AllInRange c (restoreUbatch dest pos) := fun s hs => by
    obtain rfl : s = 0 := Nat.lt_one_iff.mp (mem_range.mp hs)
    simp [InRange, RecurrentUbatch.seqSet, restoreUbatch, hlo, hhi]
  obtain ⟨lo, hi, m₃, -, hrun⟩ :=
    findSlot_placed (restoreUbatch_wellFormed dest hpos) hr h.toTailInv h.head_lt
  rw [hrun, map_eq_some_iff] at hfind
  obtain ⟨m'', -, heq⟩ := hfind
  exact (Prod.mk.inj heq).1.symm

/-- A sequence that has been placed is in one cell, so it cannot have two records. -/
theorem length_of_placedOk (h : SlotInv c m) (hpos : pos ≠ [])
    (hfind : m.findSlot c (restoreUbatch dest pos) = some (true, m'))
    (hok : m'.placedOk c dest pos = true) : pos.length = 1 := by
  have hu := restoreUbatch_wellFormed dest hpos
  obtain ⟨lo, hi, m₃, hplaced, hrun⟩ :=
    findSlot_placed hu (findSlot_range h.toTailInv hfind) h.toTailInv h.head_lt
  rw [hrun, map_eq_some_iff] at hfind
  obtain ⟨m'', hfin, heq⟩ := hfind
  obtain rfl : m'' = m' := (Prod.mk.inj heq).2
  obtain ⟨hhead, -⟩ := finish_eq_some hfin
  have hlast : (m''.cells (m''.head + pos.length - 1)).hasSeqId dest = true := by
    simp only [placedOk, Bool.and_eq_true] at hok
    exact hok.2.2
  obtain ⟨-, hmem⟩ := hasSeqId_iff.mp hlast
  rw [(finish_cells hfin _).2.1, ← hplaced.tail_iff, hhead] at hmem
  have hset := hplaced.setTail 0 hu.sets_pos dest.toNat (mem_setIds.mpr ⟨dest, by
    simp [RecurrentUbatch.seqSet, restoreUbatch], rfl⟩)
  have hlen := hu.tokens_pos
  have hcell := some.inj (hset.symm.trans hmem)
  change 0 < pos.length at hlen
  omega

/-- What keeps the invariant in a restore of one sequence: the position is not negative. -/
def SeqWell (c : RecurrentConfig) (dest : Int) (bytes : List UInt8) : Prop :=
  0 ≤ dest → dest < c.size → ∀ p s,
    readSeqCells (getLE (bytes.take 4)) ⟨bytes.drop 4, ()⟩ = .ok (some [p]) s → 0 ≤ p

theorem readSeqCells_length {n : Nat} {s : Input Unit}
    (h : readSeqCells n ⟨bytes, ()⟩ = .ok (some pos) s) : pos.length = n := by
  induction n generalizing bytes pos s with
  | zero =>
    cases h
    rfl
  | succ n ih =>
    obtain ⟨p, s₁, -, h⟩ := Readers.bind_eq_ok.mp h
    obtain ⟨nSeqId, s₂, -, h⟩ := Readers.bind_eq_ok.mp h
    by_cases hids : nSeqId ≠ 0
    · rw [if_pos hids] at h
      cases h
    · rw [if_neg hids] at h
      obtain ⟨rest, s₃, hrest, h⟩ := Readers.bind_eq_ok.mp h
      cases rest with
      | none => cases h
      | some rest =>
        cases h
        rw [length_cons, ih hrest]

/-- The sequence that is dropped before and after has nothing that could be dropped badly. -/
theorem RemovalStays.dropped (hstay : RemovalStays m dest (-1) (-1)) {r : RecurrentMemory}
    (hr : r.cells = (m.seqRm c dest (-1) (-1)).2.cells) : RemovalStays r dest (-1) (-1) := by
  intro hneg hlo hhi i
  have hidle := hstay hneg hlo hhi
  have hcells : (m.seqRm c dest (-1) (-1)).2.cells i = m.cells i := by
    have hremove : (m.cells i).remove dest 0 llamaPosMax = m.cells i :=
      if_neg fun hloses => hidle i ⟨hloses.1, hloses.2.1⟩
    have hrm : (m.seqRm c dest (-1) (-1)).2 =
        ({ m with rsIdx := fun _ => 0 } : RecurrentMemory).seqRmCells c dest 0 llamaPosMax := by
      have hsize : ¬(c.size : Int) ≤ dest := by omega
      have hnonneg : ¬0 ≤ dest := by omega
      have hp0 : rangeLo (-1) = 0 := rfl
      have hp1 : rangeHi (-1) = llamaPosMax := rfl
      unfold RecurrentMemory.seqRm
      simp only [hp0, hp1, hsize, hnonneg, and_self, if_true, if_false, ne_eq, not_true, false_or, and_false]
    rw [hrm, seqRmCells_cells]
    change (if i < c.size then (m.cells i).remove dest 0 llamaPosMax else m.cells i) = _
    rw [hremove, ite_self]
  rw [hr, hcells]
  exact hidle i

/-- A restore of one sequence keeps the invariant. -/
theorem SlotInv.stateRead_one (h : SlotInv c m)
    (hdest : dest ≠ -1) (hstay : RemovalStays m dest (-1) (-1)) (hwell : SeqWell c dest bytes)
    (hst : state? (stateRead c L dest) ⟨bytes, m⟩ = some m') : SlotInv c m' := by
  rcases stateRead_cases hst with ⟨-, rfl⟩ | ⟨hlen, hcases⟩
  · exact h
  unfold SeqWell at hwell
  generalize getLE (bytes.take 4) = n at hwell hcases
  have hmeta : readMeta c n dest = readMetaSeq c n dest := if_pos hdest
  have hdrop := h.seqRm hstay
  have hclean : ∀ r : RecurrentMemory, SlotInv c r →
      r.cells = (m.seqRm c dest (-1) (-1)).2.cells → SlotInv c (cleanup c r dest) := by
    intro r hr hcells
    have heq : cleanup c r dest = (r.seqRm c dest (-1) (-1)).2 := if_neg hdest
    rw [heq]
    exact hr.seqRm (hstay.dropped hcells)
  rw [hmeta] at hcases
  unfold readMetaSeq at hcases
  rw [Readers.bind_ok (Readers.modifySt_run _ _)] at hcases
  generalize hm₁ : (m.seqRm c dest (-1) (-1)).2 = m₁ at hdrop hclean hcases
  by_cases hn : n = 0
  · rw [if_pos hn] at hcases
    rcases hcases with ⟨s, hrun, -⟩ | ⟨ok, s, hrun, hafter⟩ <;> cases hrun
    rcases hafter with ⟨-, -, rfl⟩ | rfl
    · exact hdrop.resetRsIdx dest
    · exact hclean m₁ hdrop rfl
  rw [if_neg hn] at hcases
  cases hseq : readSeqCells n ⟨bytes.drop 4, ()⟩ with
  | error e s =>
    rw [Readers.bind_error (Readers.aside_error hseq)] at hcases
    rcases hcases with ⟨s, hrun, rfl⟩ | ⟨ok, s, hrun, -⟩ <;> cases hrun
    exact hdrop
  | ok read s =>
    rw [Readers.bind_ok (Readers.aside_ok hseq)] at hcases
    cases read with
    | none =>
      rcases hcases with ⟨s, hrun, -⟩ | ⟨ok, s, hrun, hafter⟩ <;> cases hrun
      rcases hafter with ⟨hok, -⟩ | rfl
      · exact absurd hok (by simp)
      · exact hclean m₁ hdrop rfl
    | some pos =>
      dsimp only at hcases
      rw [Readers.bind_ok (Readers.getSt_run _)] at hcases
      have hne : pos ≠ [] := fun h0 => hn (by rw [← readSeqCells_length hseq, h0]; rfl)
      by_cases hin : dest < 0 ∨ c.size ≤ dest
      · obtain ⟨r, hfind, hcells, hused, hhead⟩ := findSlot_refused m₁ hin pos
        rw [hfind] at hcases
        rcases hcases with ⟨s, hrun, -⟩ | ⟨ok, s, hrun, hafter⟩ <;> cases hrun
        rcases hafter with ⟨hok, -⟩ | rfl
        · exact absurd hok (by simp)
        · exact hclean r ⟨hdrop.toTailInv.congr_cells hused hcells, Nat.lt_of_le_of_lt hhead hdrop.head_lt⟩ hcells
      · have hlo : 0 ≤ dest := by omega
        have hhi : dest < c.size := by omega
        have hu := restoreUbatch_wellFormed dest hne
        cases hfind : m₁.findSlot c (restoreUbatch dest pos) with
        | none =>
          rw [hfind] at hcases
          rcases hcases with ⟨s, hrun, -⟩ | ⟨ok, s, hrun, -⟩ <;> cases hrun
        | some found =>
          obtain ⟨found, r⟩ := found
          rw [hfind] at hcases
          obtain rfl : found = true := findSlot_found hdrop hlo hhi hne hfind
          cases hok : r.placedOk c dest pos with
          | false =>
            simp only [hok, Bool.not_true, Bool.false_eq_true, if_false] at hcases
            rcases hcases with ⟨s, hrun, -⟩ | ⟨ok, s, hrun, -⟩ <;> cases hrun
          | true =>
            simp only [hok, Bool.not_true, Bool.false_eq_true, if_false, if_true] at hcases
            obtain ⟨p, rfl⟩ := length_eq_one_iff.mp
              (length_of_placedOk hdrop hne hfind hok)
            have hp := hwell hlo hhi p s hseq
            have hplaced := hdrop.toTailInv.findSlot hdrop.head_lt hu
              (fun i hi => by
                obtain rfl : i = 0 := Nat.lt_one_iff.mp hi
                exact hp) hfind
            have hr : SlotInv c (r.ownRows n) := SlotInv.ownRows ⟨hplaced.1, hplaced.2⟩ n
            rcases hcases with ⟨s, hrun, -⟩ | ⟨ok, s, hrun, hafter⟩ <;> cases hrun
            rcases hafter with ⟨-, -, rfl⟩ | rfl
            · exact hr.resetRsIdx dest
            · have heq : cleanup c (r.ownRows n) dest = ((r.ownRows n).seqRm c dest (-1) (-1)).2 := if_neg hdest
              rw [heq]
              exact hr.seqRm fun hneg => absurd hlo (Int.not_le.mpr hneg)

end One

/-! ## Runs -/

inductive RecurrentOp where
  | clear
  | seqRm (seqId p0 p1 : Int)
  | seqCp (seqIdSrc seqIdDst : Int)
  | seqKeep (seqId : Int)
  | seqAdd (seqId p0 p1 shift : Int)
  | seqDiv (seqId p0 p1 d : Int)
  | findSlot (ubatch : RecurrentUbatch)
  | stateRead (L : RecurrentLayout) (seqId : Int) (bytes : List UInt8)

/-- One operation; `none` if it ends the process, or if no slot is found. -/
def step (c : RecurrentConfig) (m : RecurrentMemory) : RecurrentOp → Option RecurrentMemory
  | .clear => some (m.clear c)
  | .seqRm seqId p0 p1 => some (m.seqRm c seqId p0 p1).2
  | .seqCp seqIdSrc seqIdDst => some (m.seqCp c seqIdSrc seqIdDst)
  | .seqKeep seqId => some (m.seqKeep c seqId)
  | .seqAdd seqId p0 p1 shift => some (m.seqAdd c seqId p0 p1 shift)
  | .seqDiv seqId p0 p1 d => some (m.seqDiv c seqId p0 p1 d)
  | .findSlot ubatch => do
      let (found, m) ← m.findSlot c ubatch
      if found then some m else none
  | .stateRead L seqId bytes => state? (stateRead c L seqId) ⟨bytes, m⟩

/-- What a caller has to provide. -/
def RecurrentOp.Ok : RecurrentOp → Prop
  | .findSlot ubatch => ubatch.WellFormed
  | .seqDiv _ _ _ d => d ≠ 0
  | _ => True

/-- The condition under which an operation keeps the tails. -/
def RecurrentOp.Keeps (c : RecurrentConfig) (m : RecurrentMemory) : RecurrentOp → Prop
  | .seqRm seqId p0 p1 => RemovalStays m seqId p0 p1
  | .seqAdd seqId p0 p1 shift =>
    shift ≠ 0 → ShiftStays c m seqId p0 p1 fun pos => (pos + shift).bmod (2 ^ 32)
  | .seqDiv seqId p0 p1 d => d ≠ 1 → ShiftStays c m seqId p0 p1 (·.tdiv d)
  | .findSlot ubatch => ∀ s < ubatch.nSeqs, 0 ≤ ubatch.lastPos s
  | .stateRead L seqId bytes =>
    if seqId = -1 then SavedWell c L bytes
    else RemovalStays m seqId (-1) (-1) ∧ SeqWell c seqId bytes
  | _ => True

theorem SlotInv.mapPos (h : SlotInv c m) {seqId p0 p1 : Int} {f : Int → Int}
    (hf : ShiftStays c m seqId p0 p1 f) : SlotInv c (m.mapPos c seqId p0 p1 f) where
  toTailInv := h.toTailInv.mapPos hf
  head_lt := by
    rw [mapPos_head]
    exact h.head_lt

theorem SlotInv.step (h : SlotInv c m) {op : RecurrentOp} (hok : op.Ok) (hkeeps : op.Keeps c m)
    (hstep : step c m op = some m') : SlotInv c m' := by
  cases op with
  | clear =>
    obtain rfl := some.inj hstep
    exact h.outside_clear
  | seqRm seqId p0 p1 =>
    obtain rfl := some.inj hstep
    exact h.seqRm hkeeps
  | seqCp seqIdSrc seqIdDst =>
    obtain rfl := some.inj hstep
    exact ⟨h.toTailInv.seqCp seqIdSrc seqIdDst, by rw [seqCp_head]; exact h.head_lt⟩
  | seqKeep seqId =>
    obtain rfl := some.inj hstep
    exact ⟨h.toTailInv.seqKeep seqId, Nat.lt_of_le_of_lt seqKeep_head_le h.head_lt⟩
  | seqAdd seqId p0 p1 shift =>
    obtain rfl := some.inj hstep
    unfold seqAdd
    split
    · exact h
    · next hshift => exact h.mapPos (hkeeps hshift)
  | seqDiv seqId p0 p1 d =>
    obtain rfl := some.inj hstep
    unfold seqDiv
    split
    · exact h
    · next hd => exact h.mapPos (hkeeps hd)
  | findSlot ubatch =>
    have hfind : m.findSlot c ubatch = some (true, m') := by
      obtain ⟨⟨found, r⟩, hfind, hr⟩ := bind_eq_some_iff.mp hstep
      cases found with
      | false => cases hr
      | true => exact hfind.trans (by rw [some.inj hr])
    obtain ⟨hinv, hhead⟩ := h.toTailInv.findSlot h.head_lt hok hkeeps hfind
    exact ⟨hinv, hhead⟩
  | stateRead L seqId bytes =>
    rcases eq_or_ne seqId (-1) with rfl | hone
    · exact h.stateRead_all hkeeps hstep
    · obtain ⟨hstay, hwell⟩ : RemovalStays m seqId (-1) (-1) ∧ SeqWell c seqId bytes :=
        (if_neg hone).mp hkeeps
      exact h.stateRead_one hone hstay hwell hstep

theorem init_slotInv : SlotInv c {} where
  pos_iff i := by simp
  used_eq := by
    symm
    rw [Finset.card_eq_zero, Finset.eq_empty_iff_forall_notMem]
    intro i hi
    exact (mem_nonEmpty.mp hi).2 rfl
  tail_iff s i := by simp
  outside i hi := ⟨rfl, rfl⟩
  head_lt := c.size_pos

/-- **The tails.**  In every state that is reached by operations that keep the tails, the
tail of a sequence is the cell that has it, a cell has a position exactly when it has a
sequence, and `used` counts these cells. -/
theorem reaches_tailInv
    (h : Runs.Reaches (step c) (fun m op => op.Ok ∧ op.Keeps c m) {} m) : TailInv c m :=
  (h.inv (fun _ _ _ hs hq ha => hs.step hq.1 hq.2 ha) init_slotInv).toTailInv

/-- A memory of one cell. -/
def oneCell : RecurrentConfig := ⟨1, 1, 0, by decide, by decide, by decide⟩

theorem reaches_tailInv_oneCell :
    ∃ m, ([.findSlot (restoreUbatch 0 [0]), .seqRm 0 (-1) (-1)] : List RecurrentOp).foldlM
      (step oneCell) {} = some m ∧ TailInv oneCell m := by
  have hrun : (([.findSlot (restoreUbatch 0 [0]), .seqRm 0 (-1) (-1)] : List RecurrentOp).foldlM
      (step oneCell) {}).isSome := by decide +kernel
  obtain ⟨m, hm⟩ := isSome_iff_exists.mp hrun
  refine ⟨m, hm, reaches_tailInv (Runs.Reaches.refl.ofList ?_ hm)⟩
  intro op hop s
  rcases mem_cons.mp hop with rfl | hop
  · refine ⟨restoreUbatch_wellFormed 0 (by simp), fun i hi => ?_⟩
    obtain rfl := Nat.lt_one_iff.mp hi
    exact Int.le_refl 0
  · obtain rfl := mem_singleton.mp hop
    exact ⟨trivial, fun hneg => absurd hneg (by decide)⟩

/-- When all sequences are removed at once their tails stay. -/
theorem seqRm_all_leaves_tails :
    ∃ m, Runs.Reaches (step oneCell) (fun _ op => op.Ok) {} m ∧ ¬TailInv oneCell m ∧
      step oneCell m (.findSlot (restoreUbatch 0 [0])) = none := by
  have hrun : (([.findSlot (restoreUbatch 0 [0]), .seqRm (-1) (-1) (-1)] : List RecurrentOp).foldlM
      (step oneCell) {}).map (fun m => ((m.cells 0).tail, (m.cells 0).seqId,
        (step oneCell m (.findSlot (restoreUbatch 0 [0]))).isNone)) = some (some 0, ∅, true) := by
    decide +kernel
  obtain ⟨m, hm, hval⟩ := map_eq_some_iff.mp hrun
  simp only [Prod.mk.injEq, isNone_iff_eq_none] at hval
  refine ⟨m, Runs.Reaches.refl.ofList ?_ hm, fun hinv => ?_, hval.2.2⟩
  · intro op hop s
    rcases mem_cons.mp hop with rfl | hop
    · exact restoreUbatch_wellFormed 0 (by simp)
    · obtain rfl := mem_singleton.mp hop
      trivial
  · have hmem := (hinv.tail_iff 0 0).mp hval.1
    rw [hval.2.1] at hmem
    exact Finset.notMem_empty 0 hmem

end LlamaCpp.RecurrentMemory
