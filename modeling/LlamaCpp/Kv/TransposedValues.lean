import LlamaCpp.Kv.StateRoundTrip
import Mathlib.Data.UInt

/-!
# Transposed values

A transposed tensor of values has one row for every dimension and one element for every cell
in it.  Where an element lies is computed twice: the writer multiplies in 32 bits throughout,
and the reader takes the element size as a `size_t`.

Both are exact as long as the writer's product fits in 32 bits, and the reader's number of
the element does (`offsets_exact_iff`).  Then a restore into the cells that were saved brings
every element back, and touches no other (`Exact.restores`).
-/

namespace LlamaCpp.KvCache

open List

open Readers (Reader Input takeLE_putLE bind_ok)

/-! ## The offsets -/

theorem srcOffset_toNat (kvSize vSizeEl first j : UInt32) :
    (srcOffset kvSize vSizeEl first j).toNat = (first.toNat + j.toNat * kvSize.toNat) * vSizeEl.toNat % 2 ^ 32 := by
  simp [srcOffset, Nat.add_mod, Nat.mul_mod]

theorem dstOffset_toNat (kvSize vSizeEl cell j : UInt32) :
    (dstOffset kvSize vSizeEl.toUInt64 cell j).toNat =
      (cell.toNat + j.toNat * kvSize.toNat) % 2 ^ 32 * vSizeEl.toNat := by
  have hel := vSizeEl.toNat_lt
  have hno : (cell.toNat + j.toNat * kvSize.toNat) % 2 ^ 32 < 2 ^ 32 := Nat.mod_lt _ (by decide)
  have hlt : (cell.toNat + j.toNat * kvSize.toNat) % 2 ^ 32 * vSizeEl.toNat < 2 ^ 32 * 2 ^ 32 :=
    Nat.mul_lt_mul'' hno hel
  rw [← pow_add] at hlt
  simp only [dstOffset, UInt64.toNat_mul, UInt32.toNat_toUInt64, UInt32.toNat_add, UInt32.toNat_mul]
  rw [Nat.add_mod_mod, Nat.mod_eq_of_lt hlt]

/-- Both offsets of row `j` of a range are those of its elements. -/
structure OffsetsExact (kvSize vSizeEl : UInt32) (r : Nat × Nat) (j : Nat) : Prop where
  src : (srcOffset kvSize vSizeEl (.ofNat r.1) (.ofNat j)).toNat =
    (r.1 + j * kvSize.toNat) * vSizeEl.toNat
  dst : ∀ cell, r.1 ≤ cell → cell < r.2 →
    (dstOffset kvSize vSizeEl.toUInt64 (.ofNat cell) (.ofNat j)).toNat =
      (cell + j * kvSize.toNat) * vSizeEl.toNat

/-- The writer's offset of row `j` and the reader's numbers of the elements fit in 32 bits. -/
def FitsRow (kvSize vSizeEl : UInt32) (r : Nat × Nat) (j : Nat) : Prop :=
  (r.1 + j * kvSize.toNat) * vSizeEl.toNat < 2 ^ 32 ∧ r.2 - 1 + j * kvSize.toNat < 2 ^ 32

theorem FitsRow.mono {kvSize vSizeEl : UInt32} {r : Nat × Nat} {i j : Nat}
    (h : FitsRow kvSize vSizeEl r j) (hij : i ≤ j) : FitsRow kvSize vSizeEl r i := by
  have hmul : i * kvSize.toNat ≤ j * kvSize.toNat := Nat.mul_le_mul_right _ hij
  refine ⟨Nat.lt_of_le_of_lt (Nat.mul_le_mul_right _ ?_) h.1, Nat.lt_of_le_of_lt ?_ h.2⟩
  · omega
  · omega

theorem offsetsExact_iff {kvSize vSizeEl : UInt32} {r : Nat × Nat} {j : Nat} (hel : 0 < vSizeEl.toNat)
    (hr : r.1 < r.2) (hle : r.2 ≤ kvSize.toNat) (hj : j < 2 ^ 32) :
    OffsetsExact kvSize vSizeEl r j ↔ FitsRow kvSize vSizeEl r j := by
  have hkv := kvSize.toNat_lt
  have hnat : ∀ {n : Nat}, n < 2 ^ 32 → (UInt32.ofNat n).toNat = n :=
    fun hn => UInt32.toNat_ofNat_of_lt hn
  have hsrc : (srcOffset kvSize vSizeEl (.ofNat r.1) (.ofNat j)).toNat =
      (r.1 + j * kvSize.toNat) * vSizeEl.toNat % 2 ^ 32 := by
    rw [srcOffset_toNat, hnat (by omega), hnat hj]
  have hdst : ∀ cell, cell < r.2 →
      (dstOffset kvSize vSizeEl.toUInt64 (.ofNat cell) (.ofNat j)).toNat =
        (cell + j * kvSize.toNat) % 2 ^ 32 * vSizeEl.toNat := by
    intro cell hcell
    rw [dstOffset_toNat, hnat (by omega), hnat hj]
  constructor
  · rintro ⟨h1, h2⟩
    refine ⟨?_, ?_⟩
    · rw [← h1, hsrc]
      exact Nat.mod_lt _ (by decide)
    · have hlast := h2 (r.2 - 1) (by omega) (by omega)
      rw [hdst _ (by omega)] at hlast
      rw [← Nat.eq_of_mul_eq_mul_right hel hlast]
      exact Nat.mod_lt _ (by decide)
  · rintro ⟨h1, h2⟩
    refine ⟨by rw [hsrc, Nat.mod_eq_of_lt h1], fun cell _ hcell => ?_⟩
    rw [hdst cell hcell, Nat.mod_eq_of_lt (by omega)]

/-! ## Bytes of a tensor -/

section Slices

variable {data data₀ d : KvData} {tensor : KvTensor}

theorem slice_add (offset m n : Nat) : data.slice tensor offset (m + n) =
    data.slice tensor offset m ++ data.slice tensor (offset + m) n := by
  unfold KvData.slice
  rw [range_add, map_append, List.map_map]
  congr 1
  refine map_congr_left fun i _ => ?_
  rw [Function.comp_apply, Nat.add_assoc]

theorem slice_getD {offset size i : Nat} (hi : i < size) :
    (data.slice tensor offset size).getD i 0 = data tensor (offset + i) := by
  simp [KvData.slice, hi]

/-- A range of elements, one by one. -/
theorem slice_elems (el base a k : Nat) : data.slice tensor ((a + base) * el) (k * el) =
    (List.range' a k).flatMap fun cell => data.slice tensor ((cell + base) * el) el := by
  induction k generalizing a with
  | zero => simp [KvData.slice]
  | succ k ih =>
    have hnext : (a + base) * el + el = (a + 1 + base) * el := by
      rw [← Nat.add_one_mul, Nat.add_right_comm]
    rw [Nat.add_one_mul, Nat.add_comm (k * el), slice_add, hnext, ih, range'_succ, flatMap_cons]

theorem readTensor_slice (offset off size : Nat) (rest : List UInt8) (d : KvData) :
    readTensor tensor offset size ⟨data.slice tensor off size ++ rest, d⟩ =
      .ok () ⟨rest, d.store tensor offset (data.slice tensor off size)⟩ := by
  have htake := Readers.take_append (data.slice tensor off size) rest d
  rw [slice_length] at htake
  unfold readTensor
  rw [bind_ok htake]
  rfl

/-- The elements of `S` are those of `data`, and everything else is as in `data₀`. -/
structure ElemsCopied (tensor : KvTensor) (el : Nat) (S : Set Nat) (data data₀ d : KvData) :
    Prop where
  inside : ∀ e ∈ S, ∀ b < el, d tensor (e * el + b) = data tensor (e * el + b)
  outside : ∀ t x, (t = tensor → x / el ∉ S) → d t x = data₀ t x

theorem ElemsCopied.nothing (el : Nat) : ElemsCopied tensor el ∅ data d d where
  inside _ he := absurd he (Set.notMem_empty _)
  outside _ _ _ := rfl

theorem ElemsCopied.store {el : Nat} {S : Set Nat} (h : ElemsCopied tensor el S data data₀ d)
    (hel : 0 < el) (e k : Nat) :
    ElemsCopied tensor el (S ∪ {x | e ≤ x ∧ x < e + k}) data data₀
      (d.store tensor (e * el) (data.slice tensor (e * el) (k * el))) := by
  have hstored : ∀ x, e * el ≤ x → x < (e + k) * el →
      d.store tensor (e * el) (data.slice tensor (e * el) (k * el)) tensor x = data tensor x := by
    intro x hlo hhi
    rw [Nat.add_mul] at hhi
    unfold KvData.store
    rw [if_pos ⟨rfl, hlo, by rw [slice_length]; exact hhi⟩, slice_getD (by omega), Nat.add_sub_cancel' hlo]
  have hkept : ∀ t x, (t = tensor → x < e * el ∨ (e + k) * el ≤ x) →
      d.store tensor (e * el) (data.slice tensor (e * el) (k * el)) t x = d t x := by
    intro t x hout
    unfold KvData.store
    rw [slice_length]
    refine if_neg fun ⟨ht, hlo, hhi⟩ => ?_
    have := hout ht
    rw [Nat.add_mul] at this
    omega
  refine ⟨fun x hx b hb => ?_, fun t x hout => ?_⟩
  · by_cases hin : e ≤ x ∧ x < e + k
    · refine hstored _ (Nat.le_add_right_of_le (Nat.mul_le_mul_right _ hin.1)) ?_
      have hnext : (x + 1) * el ≤ (e + k) * el := Nat.mul_le_mul_right _ hin.2
      rw [Nat.add_one_mul] at hnext
      omega
    · have hS : x ∈ S := hx.resolve_right hin
      rw [hkept _ _ fun _ => ?_]
      · exact h.inside x hS b hb
      · rcases Nat.lt_or_ge x e with hlt | hge
        · have hnext : (x + 1) * el ≤ e * el := Nat.mul_le_mul_right _ hlt
          rw [Nat.add_one_mul] at hnext
          exact .inl (by omega)
        · exact .inr (Nat.le_add_right_of_le (Nat.mul_le_mul_right _ (by omega)))
  · rw [hkept t x fun ht => ?_]
    · exact h.outside t x fun ht hS => hout ht (.inl hS)
    · have hno : ¬(e ≤ x / el ∧ x / el < e + k) := fun hin => hout ht (.inr hin)
      rw [Nat.le_div_iff_mul_le hel, Nat.div_lt_iff_lt_mul hel] at hno
      omega

end Slices

/-! ## A restore of the cells that were saved -/

section Restore

variable {data data₀ : KvData} {kvSize : UInt32} {v : KvValue} {cr : List (Nat × Nat)}
  {sinfo : SlotInfo} {tensor : KvTensor}

/-- The elements of the first rows of the saved cells. -/
def rowElems (kvSize : Nat) (cells : List Nat) (rows : List Nat) : Set Nat :=
  {e | ∃ j ∈ rows, ∃ cell ∈ cells, e = cell + j * kvSize}

theorem elemOffset_eq (kvSize : UInt32) (v : KvValue) (j cell : Nat) :
    elemOffset kvSize.toNat v.sizeEl.toNat j cell =
      (dstOffset kvSize v.sizeEl.toUInt64 (.ofNat cell) (.ofNat j)).toNat := by
  simp [elemOffset]

/-- The ranges are not empty and lie in the cache. -/
def RangesOk (kvSize : UInt32) (cr : List (Nat × Nat)) : Prop :=
  ∀ r ∈ cr, r.1 < r.2 ∧ r.2 ≤ kvSize.toNat

theorem mem_rangeCells {cell : Nat} : cell ∈ rangeCells cr ↔ ∃ r ∈ cr, r.1 ≤ cell ∧ cell < r.2 := by
  simp only [rangeCells, mem_flatMap, mem_range'_1]
  refine exists_congr fun r => and_congr_right fun _ => ?_
  omega

/-- The elements of one row, as they were written. -/
theorem row_eq {j : Nat} (hexact : ∀ r ∈ cr, OffsetsExact kvSize v.sizeEl r j) :
    (cr.flatMap fun r =>
      data.slice tensor (srcOffset (.ofNat kvSize.toNat) v.sizeEl (.ofNat r.1) (.ofNat j)).toNat
        ((r.2 - r.1) * v.sizeEl.toNat)) =
      (rangeCells cr).flatMap fun cell =>
        data.slice tensor ((cell + j * kvSize.toNat) * v.sizeEl.toNat) v.sizeEl.toNat := by
  rw [rangeCells, flatMap_assoc, UInt32.ofNat_toNat]
  refine flatMap_congr fun r hr => ?_
  rw [(hexact r hr).src, slice_elems]

/-- One row is read into the cells that it was written from. -/
theorem readElems_restores {j : Nat} (hel : 0 < v.sizeEl.toNat)
    (hidx : sinfo.idxs.headD [] = rangeCells cr)
    (hexact : ∀ r ∈ cr, OffsetsExact kvSize v.sizeEl r j) {S : Set Nat} {d : KvData}
    (h : ElemsCopied tensor v.sizeEl.toNat S data data₀ d) (rest : List UInt8) :
    ∃ d', readElems (rangeCells cr).length kvSize.toNat sinfo tensor v.sizeEl.toNat j
        ⟨((rangeCells cr).flatMap fun cell =>
          data.slice tensor ((cell + j * kvSize.toNat) * v.sizeEl.toNat) v.sizeEl.toNat) ++ rest, d⟩ =
        .ok () ⟨rest, d'⟩ ∧
      ElemsCopied tensor v.sizeEl.toNat (S ∪ rowElems kvSize.toNat (rangeCells cr) [j]) data data₀
        d' := by
  have hdst : ∀ cell ∈ rangeCells cr, elemOffset kvSize.toNat v.sizeEl.toNat j cell =
      (cell + j * kvSize.toNat) * v.sizeEl.toNat := by
    intro cell hcell
    obtain ⟨r, hr, hlo, hhi⟩ := mem_rangeCells.mp hcell
    rw [elemOffset_eq, (hexact r hr).dst cell hlo hhi]
  have hset : ∀ cells : List Nat, ElemsCopied tensor v.sizeEl.toNat
      (S ∪ {e | ∃ cell ∈ cells, e = cell + j * kvSize.toNat}) data data₀ =
      ElemsCopied tensor v.sizeEl.toNat (S ∪ rowElems kvSize.toNat cells [j]) data data₀ := by
    intro cells
    simp [rowElems]
  rw [← hset]
  unfold readElems
  generalize rangeCells cr = cells at hidx hdst ⊢
  split
  · next hcont =>
    -- the cells follow each other
    have hcells : cells = List.range' sinfo.head cells.length := by
      simp only [SlotInfo.isContiguous, hidx, Bool.or_eq_true, Bool.and_eq_true, beq_iff_eq] at hcont
      rcases hcont with hnil | ⟨-, hrun⟩
      · rw [List.isEmpty_iff.mp hnil]
        rfl
      · exact hrun
    have hbytes : (cells.flatMap fun cell =>
        data.slice tensor ((cell + j * kvSize.toNat) * v.sizeEl.toNat) v.sizeEl.toNat) =
        data.slice tensor ((sinfo.head + j * kvSize.toNat) * v.sizeEl.toNat)
          (cells.length * v.sizeEl.toNat) := by
      rw [slice_elems, ← hcells]
    refine ⟨_, by rw [hbytes, readTensor_slice], ?_⟩
    cases hcase : cells with
    | nil =>
      have hnone : d.store tensor (elemOffset kvSize.toNat v.sizeEl.toNat j sinfo.head)
          (data.slice tensor ((sinfo.head + j * kvSize.toNat) * v.sizeEl.toNat)
            (0 * v.sizeEl.toNat)) = d := by
        funext t x
        unfold KvData.store
        rw [slice_length]
        exact if_neg fun ⟨_, hlo, hhi⟩ => by omega
      rw [length_nil, hnone]
      simpa using h
    | cons cell cells' =>
      have hhead : sinfo.head ∈ cells := by
        rw [hcells, hcase]
        exact mem_range'_1.mpr ⟨Nat.le_refl _, by simp⟩
      have hstore := h.store hel (sinfo.head + j * kvSize.toNat) cells.length
      rw [hdst _ hhead, ← hcase]
      have hrun : {x | sinfo.head + j * kvSize.toNat ≤ x ∧
          x < sinfo.head + j * kvSize.toNat + cells.length} =
          {e | ∃ cell ∈ cells, e = cell + j * kvSize.toNat} := by
        ext x
        rw [hcells, length_range']
        simp only [Set.mem_ofPred_eq, mem_range'_1]
        constructor
        · rintro ⟨hlo, hhi⟩
          exact ⟨x - j * kvSize.toNat, by omega, by omega⟩
        · rintro ⟨cell, hcell, rfl⟩
          omega
      rwa [hrun] at hstore
  · have hloop : (List.range cells.length).forM (fun i =>
        readTensor tensor (elemOffset kvSize.toNat v.sizeEl.toNat j (sinfo.idx i)) v.sizeEl.toNat) =
        cells.forM fun cell =>
          readTensor tensor (elemOffset kvSize.toNat v.sizeEl.toNat j cell) v.sizeEl.toNat := by
      have hmap : (List.range cells.length).map sinfo.idx = cells := by
        have hcells := Loops.map_getD_range cells 0
        rw [← hidx] at hcells ⊢
        exact hcells
      conv_rhs => rw [← hmap]
      simp only [List.forM_eq_forM, List.forM_map]
    rw [hloop]
    refine Readers.forM_pieces (I := fun done d => ElemsCopied tensor v.sizeEl.toNat
      (S ∪ {e | ∃ cell ∈ done, e = cell + j * kvSize.toNat}) data data₀ d) cells []
      (fun cell hcell done rest d hd => ?_) rest (by simpa using h)
    refine ⟨_, by rw [hdst cell hcell, readTensor_slice], ?_⟩
    have hstore := hd.store hel (cell + j * kvSize.toNat) 1
    rw [Nat.one_mul] at hstore
    have hone : S ∪ {e | ∃ x ∈ done, e = x + j * kvSize.toNat} ∪
        {x | cell + j * kvSize.toNat ≤ x ∧ x < cell + j * kvSize.toNat + 1} =
        S ∪ {e | ∃ x ∈ done ++ [cell], e = x + j * kvSize.toNat} := by
      ext x
      simp only [Set.mem_union, Set.mem_ofPred_eq, List.mem_append, mem_singleton, or_assoc]
      refine or_congr_right ?_
      constructor
      · rintro (⟨y, hy, rfl⟩ | hx)
        · exact ⟨y, .inl hy, rfl⟩
        · exact ⟨cell, .inr rfl, by omega⟩
      · rintro ⟨y, hy | rfl, rfl⟩
        · exact .inl ⟨y, hy, rfl⟩
        · exact .inr (by omega)
    rwa [hone] at hstore

/-- The rows are read one after the other. -/
theorem readRows_restores (hel : 0 < v.sizeEl.toNat) (hidx : sinfo.idxs.headD [] = rangeCells cr)
    (n : Nat) (hexact : ∀ r ∈ cr, ∀ j < n, OffsetsExact kvSize v.sizeEl r j) (data₀ : KvData)
    (rest : List UInt8) :
    ∃ d, (List.range n).forM (readElems (rangeCells cr).length kvSize.toNat sinfo tensor
        v.sizeEl.toNat)
        ⟨((List.range n).flatMap fun j => cr.flatMap fun r =>
          data.slice tensor (srcOffset (.ofNat kvSize.toNat) v.sizeEl (.ofNat r.1) (.ofNat j)).toNat
            ((r.2 - r.1) * v.sizeEl.toNat)) ++ rest, data₀⟩ = .ok () ⟨rest, d⟩ ∧
      ElemsCopied tensor v.sizeEl.toNat (rowElems kvSize.toNat (rangeCells cr) (List.range n)) data
        data₀ d := by
  refine Readers.forM_pieces (I := fun done d => ElemsCopied tensor v.sizeEl.toNat
    (rowElems kvSize.toNat (rangeCells cr) done) data data₀ d) (List.range n) []
    (fun j hj done rest d hd => ?_) rest ?_
  · have hrow := fun r hr => hexact r hr j (mem_range.mp hj)
    rw [row_eq hrow]
    obtain ⟨d', hrun, hcopied⟩ := readElems_restores hel hidx hrow hd rest
    have hset : rowElems kvSize.toNat (rangeCells cr) done ∪ rowElems kvSize.toNat (rangeCells cr) [j] =
        rowElems kvSize.toNat (rangeCells cr) (done ++ [j]) := by
      ext x
      simp [rowElems, or_and_right, exists_or]
    exact ⟨d', hrun, hset ▸ hcopied⟩
  · have hset : rowElems kvSize.toNat (rangeCells cr) [] = ∅ := by
      ext x
      simp [rowElems]
    rw [hset]
    exact .nothing _

end Restore

/-- What reading the values of a layer back gives: every element of the saved cells, and
nothing else changes. -/
def ValuesRestored (kvSize : UInt32) (v : KvValue) (cr : List (Nat × Nat)) : Prop :=
  ∀ (layer : KvLayer) (l strm : Nat) (sinfo : SlotInfo) (data data₀ : KvData) (rest : List UInt8),
    layer.v = some v → sinfo.idxs.headD [] = rangeCells cr →
    ∃ d, readValueTrans kvSize.toNat strm (rangeCells cr).length sinfo (layer, l)
        ⟨writeValueTrans data kvSize.toNat cr strm (layer, l) ++ rest, data₀⟩ = .ok true ⟨rest, d⟩ ∧
      ElemsCopied ⟨.v, l, strm⟩ v.sizeEl.toNat
        (rowElems kvSize.toNat (rangeCells cr) (List.range v.nEmbdGqa.toNat)) data data₀ d

theorem readValueTrans_restores {kvSize : UInt32} {v : KvValue} {cr : List (Nat × Nat)}
    (hel : 0 < v.sizeEl.toNat)
    (hexact : ∀ r ∈ cr, ∀ j < v.nEmbdGqa.toNat, OffsetsExact kvSize v.sizeEl r j) :
    ValuesRestored kvSize v cr := by
  intro layer l strm sinfo data data₀ rest hv hidx
  obtain ⟨d, hrun, hcopied⟩ := @readRows_restores data kvSize v cr sinfo ⟨.v, l, strm⟩ hel hidx
    v.nEmbdGqa.toNat hexact data₀ rest
  refine ⟨d, ?_, hcopied⟩
  unfold readValueTrans writeValueTrans
  simp only [hv]
  unfold Readers.expectLE
  simp only [append_assoc]
  rw [bind_ok (takeLE_putLE v.ty.toNat_lt _ _), if_neg (not_not.mpr rfl),
    bind_ok (takeLE_putLE v.sizeEl.toNat_lt _ _), if_neg (not_not.mpr rfl),
    bind_ok (takeLE_putLE v.nEmbdGqa.toNat_lt _ _), if_neg (not_not.mpr rfl), bind_ok hrun]
  rfl

/-- **Transposed values.**  The offsets of all rows of the saved ranges are exact, for the
writer and for the reader, exactly when those of the last row fit in 32 bits; and then a
restore into the same cells brings back the elements that were saved. -/
theorem transposed_exact_iff {kvSize : UInt32} {v : KvValue} {cr : List (Nat × Nat)}
    (hel : 0 < v.sizeEl.toNat) (hcr : RangesOk kvSize cr) :
    ((∀ r ∈ cr, ∀ j < v.nEmbdGqa.toNat, OffsetsExact kvSize v.sizeEl r j) ∧ ValuesRestored kvSize v cr) ↔
      (0 < v.nEmbdGqa.toNat → ∀ r ∈ cr, FitsRow kvSize v.sizeEl r (v.nEmbdGqa.toNat - 1)) := by
  have hn := v.nEmbdGqa.toNat_lt
  have hiff : ∀ r ∈ cr, ∀ j < v.nEmbdGqa.toNat,
      (OffsetsExact kvSize v.sizeEl r j ↔ FitsRow kvSize v.sizeEl r j) :=
    fun r hr j hj => offsetsExact_iff hel (hcr r hr).1 (hcr r hr).2 (Nat.lt_trans hj hn)
  constructor
  · rintro ⟨hexact, -⟩ hpos r hr
    exact (hiff r hr _ (by omega)).mp (hexact r hr _ (by omega))
  · intro hfits
    have hexact : ∀ r ∈ cr, ∀ j < v.nEmbdGqa.toNat, OffsetsExact kvSize v.sizeEl r j :=
      fun r hr j hj => (hiff r hr j hj).mpr ((hfits (by omega) r hr).mono (by omega))
    exact ⟨hexact, readValueTrans_restores hel hexact⟩

/-- Values of half precision, two dimensions. -/
def twoDims : KvValue := { ty := 1, sizeRow := 4, sizeEl := 2, nEmbdGqa := 2 }

theorem transposed_exact_iff_twoDims :
    ((∀ r ∈ [(1, 3)], ∀ j < twoDims.nEmbdGqa.toNat, OffsetsExact 4 twoDims.sizeEl r j) ∧
      ValuesRestored 4 twoDims [(1, 3)]) ↔
      (0 < twoDims.nEmbdGqa.toNat →
        ∀ r ∈ [(1, 3)], FitsRow 4 twoDims.sizeEl r (twoDims.nEmbdGqa.toNat - 1)) :=
  transposed_exact_iff (by decide) (by unfold RangesOk; decide)

/-- A million cells of 4096 dimensions of half precision: 8 GiB. -/
def longContext : KvValue := { ty := 1, sizeRow := 8192, sizeEl := 2, nEmbdGqa := 4096 }

/-- In row 2048 the writer starts over at the first row, and the reader does not. -/
theorem longContext_wraps :
    2 ^ 20 * longContext.nEmbdGqa.toNat * longContext.sizeEl.toNat < 2 ^ 64 ∧
      (srcOffset (2 ^ 20) longContext.sizeEl 0 2048).toNat = 0 ∧
      (dstOffset (2 ^ 20) longContext.sizeEl.toUInt64 0 2048).toNat = (0 + 2048 * 2 ^ 20) * 2 ∧
      ¬∀ r ∈ [(0, 1)], ∀ j < longContext.nEmbdGqa.toNat,
        OffsetsExact (2 ^ 20) longContext.sizeEl r j := by
  have hzero : (srcOffset (2 ^ 20) longContext.sizeEl 0 2048).toNat = 0 := by decide +kernel
  refine ⟨by decide, hzero, by decide +kernel, fun h => ?_⟩
  have hrow := (h (0, 1) (mem_singleton_self _) 2048 (by decide)).src
  exact absurd (hzero.symm.trans hrow) (by decide +kernel)

end LlamaCpp.KvCache
