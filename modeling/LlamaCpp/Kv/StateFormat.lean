import LlamaCpp.Kv.StateTable

/-!
# Reading what was written

The pieces of a saved state, and the readers that take them: a field, a record
(`takeRecord_writeCell`, `readSeqCells_writeCell`) and the tensors
(`accepts_writeData`).  The ranges that the writer collects are the saved cells in
index order (`cellRanges_flatMap`).
-/

namespace LlamaCpp.KvCache

open List

open Readers (Reader Input Fault Accepts Takes putLE takeLE bind_ok)
open KvCells (Rep)

variable {c : KvConfig} {cells : KvCells}

/-! ## Fields -/

/-- The value fits in an `int32_t`. -/
def IsI32 (x : Int) : Prop := -2 ^ 31 ≤ x ∧ x < 2 ^ 31

theorem toInt32_emod {x : Int} (h : IsI32 x) : toInt32 (x % 2 ^ 32).toNat = x := by
  obtain ⟨hlo, hhi⟩ := h
  have hnonneg : 0 ≤ x % 2 ^ 32 := Int.emod_nonneg x (by decide)
  unfold toInt32
  rw [Int.toNat_of_nonneg hnonneg]
  change Int.bmod (x % (2 ^ 32 : Nat)) (2 ^ 32) = x
  rw [Int.emod_bmod, Int.bmod_eq_of_le (by omega) (by omega)]

section Fields

variable {σ : Type} {rest : List UInt8} {st : σ}

theorem takeI32_putI32 {x : Int} (h : IsI32 x) : takeI32 ⟨putI32 x ++ rest, st⟩ = .ok x ⟨rest, st⟩ := by
  have hlt : (x % 2 ^ 32).toNat < 256 ^ 4 := by
    have := Int.emod_lt_of_pos x (show (0 : Int) < 2 ^ 32 by decide)
    omega
  unfold takeI32 putI32
  rw [bind_ok (Readers.takeLE_putLE hlt rest st), toInt32_emod h]
  rfl

/-- The members of an extra record fit in an `int32_t`. -/
def ExtFits (e : KvCellExt) : Prop := IsI32 e.x ∧ IsI32 e.y ∧ IsI32 e.tok

theorem takeExt_putExt {e : KvCellExt} (h : ExtFits e) : takeExt ⟨putExt e ++ rest, st⟩ = .ok e ⟨rest, st⟩ := by
  unfold takeExt putExt
  rw [append_assoc, append_assoc, bind_ok (takeI32_putI32 h.1),
    bind_ok (takeI32_putI32 h.2.1), bind_ok (takeI32_putI32 h.2.2)]
  rfl

theorem isI32_val (s : SeqId) : IsI32 s.val := by
  have : s.val < 256 := s.isLt
  constructor <;> omega

theorem ofInt_val (s : SeqId) : SeqId.ofInt s.val = s := by
  apply Fin.ext
  simp [SeqId.ofInt, Fin.ofNat]

end Fields

/-! ## Ranges -/

def rangeCells (cr : List (Nat × Nat)) : List Nat := cr.flatMap fun r => List.range' r.1 (r.2 - r.1)

/-- Half-way through the loop: the closed ranges and the open one hold the cells that
were added. -/
structure Collected (size : Nat) (add : Nat → Bool) (k : Nat) (σ : List (Nat × Nat) × Nat) :
    Prop where
  begin : σ.2 = size ∨ σ.2 < k
  cells : rangeCells σ.1 ++ (if σ.2 = size then [] else List.range' σ.2 (k - σ.2)) =
    (List.range k).filter add

theorem collected_step {size : Nat} {add : Nat → Bool} {k : Nat} {σ : List (Nat × Nat) × Nat}
    (hk : k < size) (h : Collected size add k σ) :
    Collected size add (k + 1) (rangeStep size add σ k) := by
  have hrange : (List.range (k + 1)).filter add = (List.range k).filter add ++ if add k then [k] else [] := by
    rw [range_succ, filter_append]
    cases hadd : add k <;> simp [hadd]
  unfold rangeStep
  rcases h.begin with hb | hb
  · have hcells := h.cells
    rw [if_pos hb, append_nil] at hcells
    cases hadd : add k with
    | true =>
      refine ⟨.inr (by simp [hb]), ?_⟩
      rw [hrange, hadd, ← hcells]
      simp [hb, show k ≠ size by omega]
    | false =>
      simp only [Bool.false_eq_true, if_false, hb, ne_eq, not_true_eq_false]
      refine ⟨.inl hb, ?_⟩
      rw [hrange, hadd, ← hcells]
      simp [hb]
  · have hne : σ.2 ≠ size := by omega
    have hcells := h.cells
    rw [if_neg hne] at hcells
    cases hadd : add k with
    | true =>
      simp only [if_true, hne, if_false]
      refine ⟨.inr (by omega), ?_⟩
      rw [hrange, hadd, ← hcells, if_neg hne, show k + 1 - σ.2 = (k - σ.2) + 1 by omega,
        range'_concat, if_pos rfl, append_assoc]
      congr 3
      omega
    | false =>
      simp only [Bool.false_eq_true, if_false, hne, ne_eq, not_false_eq_true, if_true]
      refine ⟨.inl rfl, ?_⟩
      rw [hrange, hadd, ← hcells]
      simp [rangeCells]

/-- The ranges hold the cells that were added, in index order. -/
theorem cellRanges_flatMap (size : Nat) (add : Nat → Bool) :
    rangeCells (cellRanges size add) = (List.range size).filter add := by
  have h0 : Collected size add 0 ([], size) := ⟨.inl rfl, by simp [rangeCells]⟩
  have h := Loops.foldl_range_inv (I := Collected size add) h0 fun i hi σ hσ => collected_step hi hσ
  unfold cellRanges
  dsimp only
  split
  · rename_i hne
    have hcells := h.cells
    rw [if_neg hne] at hcells
    rw [← hcells]
    simp [rangeCells]
  · rename_i he
    have hcells := h.cells
    rw [if_pos (not_not.mp he), append_nil] at hcells
    exact hcells

/-- The cells that are saved. -/
def savedCells (c : KvConfig) (cells : KvCells) (seqId : Option SeqId) : List Nat :=
  (List.range cells.size).filter (addCell c cells seqId)

theorem cellCount_eq (seqId : Option SeqId) :
    cellCount cells.size (addCell c cells seqId) = (savedCells c cells seqId).length :=
  countP_eq_length_filter

theorem writeMeta_eq (seqId : Option SeqId) :
    writeMeta c cells (cellRanges cells.size (addCell c cells seqId)) seqId =
      (savedCells c cells seqId).flatMap (writeCell c cells seqId) := by
  unfold writeMeta savedCells
  rw [← cellRanges_flatMap, rangeCells, flatMap_assoc]

/-! ## Records -/

/-- The record of a cell of the whole cache. -/
def recordOf (c : KvConfig) (cells : KvCells) (i : Nat) : CellRecord where
  pos := cells.pos i
  ext := if 1 < c.nPosPerEmbd then cells.ext i else {}
  ids := savedSeqs c cells none i

/-- The values of a cell fit in the fields of the source. -/
def CellFits (cells : KvCells) (i : Nat) : Prop := IsI32 (cells.pos i) ∧ ExtFits (cells.ext i)

theorem savedSeqs_length_lt (seqId : Option SeqId) (i : Nat) : (savedSeqs c cells seqId i).length < 256 ^ 4 := by
  have h : (savedSeqs c cells seqId i).length ≤ (List.finRange llamaMaxSeq).length :=
    length_filter_le _ _
  rw [length_finRange] at h
  exact Nat.lt_of_le_of_lt h (by decide)

theorem takeIds_putIds {ids : List SeqId} (hids : ∀ s ∈ ids, s.val < c.nSeqMax)
    (rest : List UInt8) :
    takeIds c ids.length ⟨(ids.flatMap fun s => putI32 s.val) ++ rest, ()⟩ = .ok (some ids) ⟨rest, ()⟩ := by
  induction ids with
  | nil => rfl
  | cons s ids ih =>
    have hs := hids s mem_cons_self
    rw [flatMap_cons, append_assoc, length_cons, takeIds,
      bind_ok (takeI32_putI32 (isI32_val s)), if_neg (by simp; omega),
      bind_ok (ih fun s' hs' => hids s' (mem_cons_of_mem _ hs')), ofInt_val]
    rfl

theorem takeRecord_writeCell {i : Nat} (h : CellFits cells i) (rest : List UInt8) :
    takeRecord c ⟨writeCell c cells none i ++ rest, ()⟩ = .ok (some (recordOf c cells i)) ⟨rest, ()⟩ := by
  have hids : ∀ s ∈ savedSeqs c cells none i, s.val < c.nSeqMax := by
    intro s hs
    have := (mem_filter.mp hs).2
    simp only [Bool.and_eq_true, decide_eq_true_eq] at this
    exact this.1.1
  have hcount : ∀ rest, takeLE 4 ⟨putLE 4 (savedSeqs c cells none i).length ++ rest, ()⟩ =
      .ok (savedSeqs c cells none i).length ⟨rest, ()⟩ := fun rest =>
    Readers.takeLE_putLE (savedSeqs_length_lt none i) rest ()
  unfold takeRecord writeCell takeBody takeCellExt recordOf
  simp only [append_assoc]
  rw [bind_ok (takeI32_putI32 h.1), bind_ok (hcount _)]
  split
  · rw [bind_ok (takeExt_putExt h.2), bind_ok (takeIds_putIds hids rest)]
    rfl
  · rw [bind_ok (Readers.pure_run _ _), nil_append, bind_ok (takeIds_putIds hids rest)]
    rfl

theorem takeRecords_writeCells {is : List Nat} (h : ∀ i ∈ is, CellFits cells i)
    (rest : List UInt8) :
    takeRecords c is.length ⟨is.flatMap (writeCell c cells none) ++ rest, ()⟩ =
      .ok (some (is.map (recordOf c cells))) ⟨rest, ()⟩ := by
  induction is with
  | nil => rfl
  | cons i is ih =>
    rw [flatMap_cons, append_assoc, length_cons, takeRecords, bind_ok (takeRecord_writeCell (h i mem_cons_self) _)]
    dsimp only
    rw [bind_ok (ih fun j hj => h j (mem_cons_of_mem _ hj))]
    rfl

/-- The sequence of a cell that is saved alone. -/
theorem savedSeqs_some {s : SeqId} {i : Nat} (hs : s ∈ cells.seq i) :
    savedSeqs c cells (some s) i = if s.val < c.nSeqMax then [s] else [] := by
  have hone : (List.finRange llamaMaxSeq).filter (fun cur => decide (cur = s)) = [s] := by
    rw [filter_eq, count_eq_one_of_mem (nodup_finRange _) (mem_finRange s)]
    rfl
  unfold savedSeqs
  split
  · rename_i hlt
    rw [← hone]
    refine filter_congr fun cur _ => ?_
    by_cases hcur : cur = s
    · subst hcur
      simp [hlt, KvCells.seqHas, hs]
    · simp [hcur, Ne.symm hcur]
  · rename_i hge
    refine filter_eq_nil_iff.mpr fun cur _ => ?_
    by_cases hcur : cur = s
    · subst hcur
      simp [hge]
    · simp [Ne.symm hcur]

/-- What one sequence keeps of a cell. -/
def seqCellOf (c : KvConfig) (cells : KvCells) (i : Nat) : Int × KvCellExt :=
  (cells.pos i, if 1 < c.nPosPerEmbd then cells.ext i else {})

theorem readSeqCells_writeCells {σ : Type} {s : SeqId} (hs : s.val < c.nSeqMax) {is : List Nat}
    (h : ∀ i ∈ is, CellFits cells i) (hmem : ∀ i ∈ is, s ∈ cells.seq i) (rest : List UInt8)
    (st : σ) :
    readSeqCells c is.length ⟨is.flatMap (writeCell c cells (some s)) ++ rest, st⟩ =
      .ok (some (is.map (seqCellOf c cells))) ⟨rest, st⟩ := by
  induction is with
  | nil => rfl
  | cons i is ih =>
    have hfits := h i mem_cons_self
    have hseqs := savedSeqs_some (c := c) (hmem i mem_cons_self)
    rw [if_pos hs] at hseqs
    have hcount := fun rest => Readers.takeLE_putLE (k := 4) (show 1 < 256 ^ 4 by decide) rest st
    have hrest := ih (fun j hj => h j (mem_cons_of_mem _ hj))
      fun j hj => hmem j (mem_cons_of_mem _ hj)
    rw [flatMap_cons, append_assoc, length_cons, readSeqCells, writeCell, hseqs]
    simp only [append_assoc, flatMap_cons, flatMap_nil, nil_append, length_singleton]
    rw [bind_ok (takeI32_putI32 hfits.1), bind_ok (hcount _), if_neg (by simp)]
    unfold takeCellExt
    split <;> rename_i hpos
    · rw [bind_ok (takeExt_putExt hfits.2), bind_ok (takeI32_putI32 (isI32_val s)), bind_ok hrest]
      simp [seqCellOf, hpos]
    · rw [bind_ok (Readers.pure_run _ _), nil_append, bind_ok (takeI32_putI32 (isI32_val s)), bind_ok hrest]
      simp [seqCellOf, hpos]

/-! ## Tensors -/

theorem slice_length (data : KvData) (tensor : KvTensor) (offset size : Nat) :
    (data.slice tensor offset size).length = size := by
  simp [KvData.slice]

theorem takes_readTensor (tensor : KvTensor) (offset size : Nat) : Takes (readTensor tensor offset size) size := by
  intro bs rest st hbs
  unfold readTensor
  rw [← hbs, bind_ok (Readers.take_append bs rest st)]
  exact ⟨_, rfl⟩

/-- The rows of the cells take the same bytes in one piece and one by one. -/
theorem takes_readRows (n : Nat) (sinfo : SlotInfo) (tensor : KvTensor) (size : Nat) :
    Takes (readRows n sinfo tensor size) (n * size) := by
  unfold readRows
  split
  · exact takes_readTensor _ _ _
  · have h := Takes.forM (List.range n) fun i _ =>
      takes_readTensor tensor (sinfo.idx i * size) size
    rwa [length_range] at h

theorem takes_readElems (n kvSize : Nat) (sinfo : SlotInfo) (tensor : KvTensor) (size j : Nat) :
    Takes (readElems n kvSize sinfo tensor size j) (n * size) := by
  unfold readElems
  split
  · exact takes_readTensor _ _ _
  · have h := Takes.forM (List.range n) fun i _ =>
      takes_readTensor tensor (elemOffset kvSize size j (sinfo.idx i)) size
    rwa [length_range] at h

/-- Pieces that are as long as their ranges are together as long as the cells. -/
theorem flatMap_length_of_ranges {cr : List (Nat × Nat)} {size : Nat} {f : Nat × Nat → List UInt8}
    (hf : ∀ r, (f r).length = (r.2 - r.1) * size) :
    (cr.flatMap f).length = (rangeCells cr).length * size := by
  induction cr with
  | nil => simp [rangeCells]
  | cons r cr ih =>
    rw [rangeCells, flatMap_cons, flatMap_cons, length_append, length_append, hf, length_range', Nat.add_mul, ih]
    rfl

section Data

variable {cr : List (Nat × Nat)} {n : Nat} (hn : (rangeCells cr).length = n) (data : KvData)
  (sinfo : SlotInfo) {strm strm' : Nat}

include hn

theorem accepts_writeRow (tensor tensor' : KvTensor) (row : KvRow) :
    Accepts (readRow n sinfo tensor row) (writeRow data cr tensor' row) := by
  refine Accepts.expectLE row.ty.toNat_lt (Accepts.expectLE row.sizeRow.toNat_lt ?_)
  refine Takes.accepts ?_
  rw [flatMap_length_of_ranges fun r => slice_length data tensor' _ _, hn]
  exact takes_readRows n sinfo tensor _

theorem accepts_writeKeyIdx (layer : KvLayer × Nat) :
    Accepts (readKeyIdx strm n sinfo layer) (writeKeyIdx data cr strm' layer) := by
  unfold readKeyIdx writeKeyIdx
  cases layer.1.kIdx with
  | none =>
    have h := Accepts.expectLE (k := 4) (n := 0) (by decide)
      (Readers.accepts_pure : Accepts (pure true : Reader KvData Bool) [])
    rwa [append_nil] at h
  | some row => exact Accepts.expectLE (by decide) (accepts_writeRow hn data sinfo _ _ row)

theorem accepts_writeValue (layer : KvLayer × Nat) :
    Accepts (readValue strm n sinfo layer) (writeValue data cr strm' layer) := by
  unfold readValue writeValue
  cases layer.1.v with
  | none => exact Readers.accepts_pure
  | some v => exact accepts_writeRow hn data sinfo _ _ v.toKvRow

theorem accepts_writeValueTrans (kvSize : Nat) (layer : KvLayer × Nat) :
    Accepts (readValueTrans kvSize strm n sinfo layer)
      (writeValueTrans data kvSize cr strm' layer) := by
  unfold readValueTrans writeValueTrans
  cases layer.1.v with
  | none => exact Readers.accepts_pure
  | some v =>
    refine Accepts.expectLE v.ty.toNat_lt (Accepts.expectLE v.sizeEl.toNat_lt
      (Accepts.expectLE v.nEmbdGqa.toNat_lt (Takes.accepts ?_)))
    have hlen : ∀ js : List Nat, (js.flatMap fun j => cr.flatMap fun r =>
        data.slice ⟨.v, layer.2, strm'⟩
          (srcOffset (.ofNat kvSize) v.sizeEl (.ofNat r.1) (.ofNat j)).toNat
          ((r.2 - r.1) * v.sizeEl.toNat)).length = js.length * (n * v.sizeEl.toNat) := by
      intro js
      induction js with
      | nil => simp
      | cons j js ih =>
        rw [flatMap_cons, length_append, ih, length_cons,
          flatMap_length_of_ranges fun r => slice_length data _ _ _, hn, Nat.add_one_mul,
          Nat.add_comm]
    rw [hlen]
    exact Takes.forM _ fun j _ => takes_readElems n kvSize sinfo _ _ j

/-- The reader of the data takes what the writer wrote, into any slot of as many cells. -/
theorem accepts_writeData (L : KvLayout) (hsize : n ≤ c.kvSize) :
    Accepts (readData c L strm n sinfo) (writeData c L data cr strm') := by
  unfold readData writeData
  refine Readers.accepts_takeLE (by split <;> decide) (Readers.accepts_takeLE ?_ ?_)
  · exact L.layers_lt
  rw [if_neg (by simp), if_neg (Nat.not_lt_of_le hsize), if_neg (by cases L.vTrans <;> simp)]
  refine Accepts.both (Accepts.allM fun layer _ => accepts_writeRow hn data sinfo _ _ _)
    (Accepts.both ?_ ?_)
  · split
    · exact Accepts.expectLE (by decide) (Accepts.allM fun layer _ => accepts_writeKeyIdx hn data sinfo layer)
    · exact Readers.accepts_pure
  · split
    · exact Accepts.allM fun layer _ => accepts_writeValueTrans hn data sinfo c.kvSize layer
    · exact Accepts.allM fun layer _ => accepts_writeValue hn data sinfo layer

end Data

end LlamaCpp.KvCache
