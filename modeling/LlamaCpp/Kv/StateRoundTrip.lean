import LlamaCpp.Kv.StateFailure
import LlamaCpp.Kv.StateFormat

/-!
# Saving and restoring

A whole-cache restore of a saved state puts the saved cells of every stream into the
cells from `0` on (`stateRead_saved`), and the restore of one sequence puts
its saved cells into the slot that `find_slot` returns.  What comes back is decided by
what the format carries: sequences below `n_seq_max`, the extra record only with M-RoPE,
and the token only in a whole-cache state.
-/

namespace LlamaCpp

open List Function

/-- The sizes are those of `uint32_t` fields, and there is a stream. -/
structure KvConfig.Fits (c : KvConfig) : Prop where
  nStream_pos : 0 < c.nStream
  nStream_lt : c.nStream < 2 ^ 32
  kvSize_lt : c.kvSize < 2 ^ 32

namespace KvCache

open Readers (Reader Input Fault Accepts putLE takeLE getLE bind_ok bind_error)
open KvCells (Rep)

variable {c : KvConfig} {L : KvLayout} {σ τ : KvState} {i : Nat}

/-! ## States that can be saved -/

/-- The values of the cells fit in their fields. -/
def Fits (c : KvConfig) (kv : KvCache) : Prop :=
  ∀ t < c.nStream, ∀ i < c.kvSize, CellFits (kv.vCells t) i

theorem seqToStream_lt (hc : c.Fits) {s : SeqId} (hs : s.val < c.seqToStreamSize) : c.seqToStream s < c.nStream := by
  unfold KvConfig.seqToStream
  unfold KvConfig.seqToStreamSize at hs
  split
  · rename_i hn
    rwa [if_pos hn] at hs
  · exact hc.nStream_pos

/-! ## One stream of a whole-cache state -/

theorem take_putLE (k n : Nat) (rest : List UInt8) : (putLE k n ++ rest).take k = putLE k n := by
  simp

theorem drop_putLE (k n : Nat) (rest : List UInt8) : (putLE k n ++ rest).drop k = rest := by
  simp

theorem le_putLE (k n : Nat) (rest : List UInt8) : k ≤ (putLE k n ++ rest).length := by
  simp

section Count

variable {t n : Nat} {d : Option SeqId} {bytes : List UInt8} {s : Input KvCache}

theorem readStream_putLE_zero : readStream c L d t ⟨putLE 4 0 ++ bytes, τ⟩ = .ok () ⟨bytes, τ⟩ := by
  rw [readStream_zero (le_putLE _ _ _) (by rw [take_putLE, Readers.getLE_putLE (by decide)]), drop_putLE]

/-- A stream with `n` cells whose data is accepted. -/
theorem readStream_putLE_ok (hlt : n < 256 ^ 4) (hne : n ≠ 0) {sinfo : SlotInfo} {s' : Input KvData}
    (hmeta : readMeta c d (destStream c d t) n ⟨bytes, τ.cache⟩ = .ok (some sinfo) s)
    (hdata : readData c L (destStream c d t) n sinfo ⟨s.bytes, τ.data⟩ = .ok true s') :
    readStream c L d t ⟨putLE 4 n ++ bytes, τ⟩ = .ok () ⟨s'.bytes, ⟨s.st, s'.st⟩⟩ := by
  have hcount : getLE ((putLE 4 n ++ bytes).take 4) = n := by
    rw [take_putLE, Readers.getLE_putLE hlt]
  refine readStream_data_ok (le_putLE _ _ _) hcount hne ?_ hdata
  rwa [drop_putLE]

/-- A stream with `n` cells whose metadata is rejected. -/
theorem readStream_putLE_none (hlt : n < 256 ^ 4) (hne : n ≠ 0)
    (hmeta : readMeta c d (destStream c d t) n ⟨bytes, τ.cache⟩ = .ok none s) :
    readStream c L d t ⟨putLE 4 n ++ bytes, τ⟩ = giveUp c d ⟨s.bytes, { τ with cache := s.st }⟩ := by
  have hcount : getLE ((putLE 4 n ++ bytes).take 4) = n := by
    rw [take_putLE, Readers.getLE_putLE hlt]
  refine readStream_meta_none (le_putLE _ _ _) hcount hne ?_
  rwa [drop_putLE]

/-- A stream with `n` cells whose metadata stops. -/
theorem readStream_putLE_error (hlt : n < 256 ^ 4) (hne : n ≠ 0) {e : Fault}
    (hmeta : readMeta c d (destStream c d t) n ⟨bytes, τ.cache⟩ = .error e s) :
    readStream c L d t ⟨putLE 4 n ++ bytes, τ⟩ = .error e ⟨s.bytes, { τ with cache := s.st }⟩ := by
  have hcount : getLE ((putLE 4 n ++ bytes).take 4) = n := by
    rw [take_putLE, Readers.getLE_putLE hlt]
  refine readStream_meta_error (le_putLE _ _ _) hcount hne ?_
  rwa [drop_putLE]

end Count

theorem savedCells_length_le (cells : KvCells) (seqId : Option SeqId) :
    (savedCells c cells seqId).length ≤ cells.size := by
  have h := length_filter_le (addCell c cells seqId) (List.range cells.size)
  rwa [length_range] at h

theorem lt_of_mem_savedCells {cells : KvCells} {seqId : Option SeqId}
    (hi : i ∈ savedCells c cells seqId) : i < cells.size :=
  mem_range.mp (mem_filter.mp hi).1

variable (c) in
def records (cells : KvCells) : List CellRecord := (savedCells c cells none).map (recordOf c cells)

theorem readStream_writeStream_none (hc : c.Fits) (hσ : σ.cache.Inv c) (hfits : Fits c σ.cache)
    {t : Nat} (ht : t < c.nStream) (hτ : (τ.cache.vCells t).size = c.kvSize)
    (hhead : τ.cache.vHeads t = 0) (rest : List UInt8) :
    ∃ τ', readStream c L none t ⟨writeStream c L σ none t ++ rest, τ⟩ = .ok () ⟨rest, τ'⟩ ∧
      τ'.cache.vCells = Function.update τ.cache.vCells t
        (installAll c (records c (σ.cache.vCells t)) (τ.cache.vCells t)) ∧
      τ'.cache.vHeads = τ.cache.vHeads := by
  have hle := savedCells_length_le (c := c) (σ.cache.vCells t) none
  have hcount : cellCount (σ.cache.vCells t).size (addCell c (σ.cache.vCells t) none) =
      (savedCells c (σ.cache.vCells t) none).length := cellCount_eq none
  have hcr : (rangeCells (cellRanges (σ.cache.vCells t).size
      (addCell c (σ.cache.vCells t) none))).length =
      (savedCells c (σ.cache.vCells t) none).length := by
    rw [cellRanges_flatMap]
    rfl
  have hcells : ∀ i ∈ savedCells c (σ.cache.vCells t) none, CellFits (σ.cache.vCells t) i :=
    fun i hi => hfits t ht i (hσ.size t ▸ lt_of_mem_savedCells hi)
  have hrecs := takeRecords_writeCells (c := c) hcells
  have hnil : (savedCells c (σ.cache.vCells t) none).length = 0 → records c (σ.cache.vCells t) = [] := fun h => by
    rw [records, length_eq_zero_iff.mp h, map_nil]
  rw [← writeMeta_eq] at hrecs
  unfold writeStream
  dsimp only
  rw [hcount, append_assoc]
  rw [hσ.size] at hle
  generalize (savedCells c (σ.cache.vCells t) none).length = n at hle hcr hrecs hnil
  have hlt : n < 256 ^ 4 := Nat.lt_of_le_of_lt hle hc.kvSize_lt
  by_cases hzero : n = 0
  · subst hzero
    rw [hnil rfl, if_pos rfl]
    exact ⟨τ, readStream_putLE_zero, (update_eq_self t _).symm, rfl⟩
  · rw [if_neg hzero, append_assoc]
    -- the data is accepted behind the metadata
    have hdata : ∃ data', readData c L t n (wholeSlot t n) ⟨writeData c L σ.data
        (cellRanges (σ.cache.vCells t).size (addCell c (σ.cache.vCells t) none)) t ++ rest,
          τ.data⟩ = .ok true ⟨rest, data'⟩ :=
      accepts_writeData hcr σ.data (wholeSlot t n) L hle rest τ.data
    obtain ⟨data', hdata⟩ := hdata
    have hmeta := readMetaAll_ok τ.cache t (hτ.symm ▸ hle) (hrecs (writeData c L σ.data
      (cellRanges (σ.cache.vCells t).size (addCell c (σ.cache.vCells t) none)) t ++ rest))
    exact ⟨_, readStream_putLE_ok (d := none) hlt hzero hmeta hdata, rfl, update_eq_self_iff.mpr hhead.symm⟩

/-! ## The whole cache -/

theorem readStreams_writeStreams_none (hc : c.Fits) (hσ : σ.cache.Inv c) (hfits : Fits c σ.cache)
    {ts : List Nat} (hnd : ts.Nodup) (hts : ∀ t ∈ ts, t < c.nStream)
    (hτ : ∀ t ∈ ts, (τ.cache.vCells t).size = c.kvSize) (hheads : ∀ t ∈ ts, τ.cache.vHeads t = 0)
    (rest : List UInt8) :
    ∃ τ', ts.forM (readStream c L none) ⟨ts.flatMap (writeStream c L σ none) ++ rest, τ⟩ = .ok () ⟨rest, τ'⟩ ∧
      (∀ t, τ'.cache.vCells t = if t ∈ ts then
        installAll c (records c (σ.cache.vCells t)) (τ.cache.vCells t) else τ.cache.vCells t) ∧
      τ'.cache.vHeads = τ.cache.vHeads := by
  induction ts generalizing τ with
  | nil => exact ⟨τ, rfl, fun t => by simp, rfl⟩
  | cons t ts ih =>
    rw [nodup_cons] at hnd
    obtain ⟨τ₁, hone, hcells, hhead⟩ := readStream_writeStream_none (L := L) hc hσ hfits
      (hts t mem_cons_self) (hτ t mem_cons_self) (hheads t mem_cons_self)
      (ts.flatMap (writeStream c L σ none) ++ rest)
    have hne : ∀ u ∈ ts, u ≠ t := fun u hu h => hnd.1 (h ▸ hu)
    obtain ⟨τ', hrun, hall, hhead'⟩ := ih hnd.2 (fun u hu => hts u (mem_cons_of_mem _ hu))
      (τ := τ₁) (fun u hu => by
        rw [hcells, update_of_ne (hne u hu)]
        exact hτ u (mem_cons_of_mem _ hu)) fun u hu => by
        rw [hhead]
        exact hheads u (mem_cons_of_mem _ hu)
    refine ⟨τ', ?_, fun u => ?_, hhead'.trans hhead⟩
    · rw [flatMap_cons, append_assoc]
      change (readStream c L none t >>= fun _ => ts.forM (readStream c L none)) _ = _
      rw [bind_ok hone, hrun]
    · rw [hall u, hcells]
      by_cases hu : u = t
      · subst hu
        rw [if_neg hnd.1, if_pos mem_cons_self, update_self]
      · rw [update_of_ne hu]
        simp [hu]

/-- Clearing empties the streams of the cache and resets their heads. -/
theorem clear_view (kv : KvCache) (t : Nat) :
    ((kv.clear c).vCells t, (kv.clear c).vHeads t) =
      if t < c.nStream then ((kv.vCells t).reset, 0) else (kv.vCells t, kv.vHeads t) :=
  Loops.foldl_range_view (fun (kv : KvCache) t => (kv.vCells t, kv.vHeads t))
    (g := fun x => (x.1.reset, 0))
    (fun kv t => ⟨by simp, fun u hu => by simp [hu]⟩) c.nStream t kv

/-- The saved state of a cache is read back in full, whatever follows it. -/
theorem stateRead_stateWrite_none (hc : c.Fits) (hsh : c.shared = false) (hσ : σ.cache.Inv c)
    (hfits : Fits c σ.cache) (hτ : ∀ t < c.nStream, (τ.cache.vCells t).size = c.kvSize)
    (rest : List UInt8) :
    ∃ τ', stateRead c L none ⟨stateWrite c L σ none ++ rest, τ⟩ = .ok () ⟨rest, τ'⟩ ∧
      ∀ t, (τ'.cache.vCells t, τ'.cache.vHeads t) = if t < c.nStream then
          (installAll c (records c (σ.cache.vCells t)) (τ.cache.vCells t).reset, 0)
        else (τ.cache.vCells t, τ.cache.vHeads t) := by
  have hhead : getLE (putLE 4 c.nStream) = c.nStream := Readers.getLE_putLE hc.nStream_lt
  have hclear := clear_view (c := c) τ.cache
  obtain ⟨τ', hrun, hall, hheads⟩ := readStreams_writeStreams_none (L := L) (τ := clearAll c τ) hc hσ
    hfits nodup_range (fun t ht => mem_range.mp ht) (fun t ht => by
      have ht := mem_range.mp ht
      change ((τ.cache.clear c).vCells t).size = c.kvSize
      rw [clear_vCells ht]
      exact hτ t ht) (fun t ht => by
      have h := hclear t
      rw [if_pos (mem_range.mp ht)] at h
      exact congrArg Prod.snd h) rest
  refine ⟨τ', ?_, fun t => ?_⟩
  · unfold stateWrite
    rw [hsh, if_neg (by simp), append_assoc, stateRead_eq hsh (by simp) (le_putLE _ _ _)
      (by rw [take_putLE, hhead]), drop_putLE, if_pos rfl, hrun]
  · rw [hall t, hheads]
    have h := hclear t
    change (if t ∈ List.range c.nStream then
      installAll c (records c (σ.cache.vCells t)) ((τ.cache.clear c).vCells t)
      else (τ.cache.clear c).vCells t, (τ.cache.clear c).vHeads t) = _
    by_cases ht : t < c.nStream
    · rw [if_pos ht] at h ⊢
      obtain ⟨hcells, hzero⟩ := Prod.mk.inj h
      rw [if_pos (mem_range.mpr ht), hcells, hzero]
    · rw [if_neg ht] at h ⊢
      obtain ⟨hcells, hsame⟩ := Prod.mk.inj h
      rw [if_neg (mt mem_range.mp ht), hcells, hsame]

/-! ## What comes back of the whole cache -/

theorem mem_savedCells_none {cells : KvCells} : i ∈ savedCells c cells none ↔ i < cells.size ∧ cells.pos i ≠ -1 := by
  simp [savedCells, addCell, KvCells.isEmpty]

theorem mem_savedSeqs_none {cells : KvCells} {s : SeqId} :
    s ∈ savedSeqs c cells none i ↔ s.val < c.nSeqMax ∧ s ∈ cells.seq i := by
  simp [savedSeqs, KvCells.seqHas]

theorem records_length (cells : KvCells) : (records c cells).length = (savedCells c cells none).length := by
  simp [records]

section Restored

variable {cells cells₀ : KvCells} (hsize : cells.size = cells₀.size)

include hsize

/-- The `k`-th saved cell comes back as cell `k`. -/
theorem restored_cell {k : Nat} (hk : k < (savedCells c cells none).length) :
    (installAll c (records c cells) cells₀.reset).cell k =
      ⟨cells.pos ((savedCells c cells none)[k]),
        if 1 < c.nPosPerEmbd then cells.ext ((savedCells c cells none)[k]) else {}, 0,
        (savedSeqs c cells none ((savedCells c cells none)[k])).toFinset⟩ := by
  have hlen := records_length (c := c) cells
  have hroom := room_reset cells₀ (n := (records c cells).length) (by
    rw [hlen, ← hsize]
    exact savedCells_length_le cells none)
  have h := installFrom_cell (c := c) hroom (i := k) (hlen.symm ▸ hk)
  rw [Nat.zero_add] at h
  rw [installAll, h]
  simp only [records, getElem_map, recordOf]
  split <;> rfl

theorem restored_cell_of_ge {k : Nat} (hk : (savedCells c cells none).length ≤ k) :
    (installAll c (records c cells) cells₀.reset).cell k = .blank := by
  have hlen := records_length (c := c) cells
  have hroom := room_reset cells₀ (n := (records c cells).length) (by
    rw [hlen, ← hsize]
    exact savedCells_length_le cells none)
  exact installFrom_cell_of_ge (c := c) hroom (by omega)

theorem rep_restored (hrep : Rep cells) : Rep (installAll c (records c cells) cells₀.reset) := by
  refine (rep_installAll_iff ?_).mpr fun r hr => ?_
  · rw [records_length, ← hsize]
    exact savedCells_length_le cells none
  · obtain ⟨i, hi, rfl⟩ := List.mem_map.mp hr
    obtain ⟨hi, hpos⟩ := mem_savedCells_none.mp hi
    exact ⟨hrep.pos_nonneg hi hpos, (nodup_finRange _).filter _⟩

end Restored

theorem installAll_size (rs : List CellRecord) (cells : KvCells) : (installAll c rs cells).size = cells.size :=
  installFrom_size rs 0 cells

/-- Exactly the saved bytes are read.  The cells in use of a stream come back as its first ones, in their order, with their
positions and the sequences below `n_seq_max`; the others are empty. -/
theorem stateRead_saved (hc : c.Fits) (hsh : c.shared = false) (hσ : σ.cache.Inv c) (hfits : Fits c σ.cache)
    (hτ : ∀ t < c.nStream, (τ.cache.vCells t).size = c.kvSize) (rest : List UInt8) :
    ∃ τ', stateRead c L none ⟨stateWrite c L σ none ++ rest, τ⟩ = .ok () ⟨rest, τ'⟩ ∧ ∀ t < c.nStream,
      Rep (τ'.cache.vCells t) ∧ τ'.cache.vHeads t = 0 ∧ ∀ k, (τ'.cache.vCells t).cell k =
        (((List.range c.kvSize).filter fun i => (σ.cache.vCells t).pos i ≠ -1)[k]?.map fun i =>
          ⟨(σ.cache.vCells t).pos i, if 1 < c.nPosPerEmbd then (σ.cache.vCells t).ext i else {}, 0,
            {s ∈ (σ.cache.vCells t).seq i | s.val < c.nSeqMax}⟩).getD .blank := by
  obtain ⟨τ', hrun, hview⟩ := stateRead_stateWrite_none (L := L) hc hsh hσ hfits hτ rest
  refine ⟨τ', hrun, fun t ht => ?_⟩
  obtain ⟨hcells, hhead⟩ := Prod.mk.inj ((hview t).trans (if_pos ht))
  have hsize : (σ.cache.vCells t).size = (τ.cache.vCells t).size := (hσ.size t).trans (hτ t ht).symm
  have hsaved : savedCells c (σ.cache.vCells t) none =
      (List.range c.kvSize).filter fun i => (σ.cache.vCells t).pos i ≠ -1 := by
    rw [savedCells, hσ.size t]
    exact filter_congr fun i _ => by simp [addCell, KvCells.isEmpty]
  rw [hcells]
  refine ⟨rep_restored hsize (hσ.rep t), hhead, fun k => ?_⟩
  rw [← hsaved]
  rcases Nat.lt_or_ge k (savedCells c (σ.cache.vCells t) none).length with hk | hk
  · have hseqs : (savedSeqs c (σ.cache.vCells t) none (savedCells c (σ.cache.vCells t) none)[k]).toFinset =
        {s ∈ (σ.cache.vCells t).seq (savedCells c (σ.cache.vCells t) none)[k] | s.val < c.nSeqMax} := by
      ext s
      rw [List.mem_toFinset, mem_savedSeqs_none, Finset.mem_filter, and_comm]
    rw [restored_cell hsize hk, getElem?_eq_getElem hk, hseqs]
    rfl
  · rw [restored_cell_of_ge hsize hk, getElem?_eq_none hk]
    rfl

instance (x : Int) : Decidable (IsI32 x) := inferInstanceAs (Decidable (_ ∧ _))

instance (c : KvConfig) (kv : KvCache) : Decidable (Fits c kv) :=
  inferInstanceAs (Decidable (∀ t < c.nStream, ∀ i < c.kvSize, IsI32 _ ∧ IsI32 _ ∧ IsI32 _ ∧ IsI32 _))

theorem smallConfig_fits : smallConfig.Fits := ⟨by decide, by decide, by decide⟩

theorem twoPlaced_fits : ∃ kv, twoPlaced = some kv ∧ kv.Inv smallConfig ∧ Fits smallConfig kv := by
  obtain ⟨kv, hrun, hreach⟩ := twoPlaced_reachable
  have hfits : twoPlaced.all (fun kv => decide (Fits smallConfig kv)) = true := by decide +kernel
  rw [hrun] at hfits
  exact ⟨kv, hrun, hreach.inv, of_decide_eq_true hfits⟩

theorem stateRead_saved_twoPlaced : ∃ kv τ', twoPlaced = some kv ∧ stateRead smallConfig noLayers none
    ⟨stateWrite smallConfig noLayers ⟨kv, fun _ _ => 0⟩ none ++ [], ⟨init smallConfig, fun _ _ => 0⟩⟩ =
      .ok () ⟨[], τ'⟩ := by
  obtain ⟨kv, hrun, hinv, hfits⟩ := twoPlaced_fits
  obtain ⟨τ', hread, -⟩ := stateRead_saved (σ := ⟨kv, fun _ _ => 0⟩) (τ := ⟨init smallConfig, fun _ _ => 0⟩)
    smallConfig_fits rfl hinv hfits (fun _ _ => rfl) []
  exact ⟨kv, τ', hrun, hread⟩

end KvCache

end LlamaCpp
