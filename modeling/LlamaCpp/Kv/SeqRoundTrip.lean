import LlamaCpp.Kv.StateFrame
import LlamaCpp.Kv.StateRoundTrip

/-!
# Saving and restoring one sequence

The saved state of a sequence `s` has cells in the stream of `s` alone.  Restoring it
into `d` drops `d`, looks for a slot and places the cells there, unless there is no
room (`SeqOutcome`).  A sequence without saved cells leaves everything as it is, `d`
included.

`inv_seqOutcome` says that the cache is well kept however the restore ends.
-/

namespace LlamaCpp.KvCache

open List

open Readers (Reader Input Fault Accepts putLE takeLE getLE bind_ok bind_error)
open KvCells (Rep)

variable {c : KvConfig} {L : KvLayout} {σ τ : KvState} {kv kv' : KvCache} {s d : SeqId}

/-! ## How a restore ends -/

variable (c) in
/-- What is saved of the cells of `s`. -/
def seqCells (kv : KvCache) (s : SeqId) : List (Int × KvCellExt) :=
  (savedCells c (kv.vCells (c.seqToStream s)) (some s)).map
    (seqCellOf c (kv.vCells (c.seqToStream s)))

variable (c) in
/-- Once `d` is dropped, the cells find a slot and are placed there. -/
def Reinstalls (kv : KvCache) (d : SeqId) (cells : List (Int × KvCellExt)) (kv' : KvCache) : Prop :=
  ∃ sinfo, (dropped c kv d).findSlot c (restoreUbatch c d cells) false = some sinfo ∧
    sinfo.isEmpty = false ∧
    (dropped c kv d).applyUbatch c sinfo (restoreUbatch c d cells) = some kv'

variable {cells : List (Int × KvCellExt)}

variable (c) in
/-- How the restore of the cells ends, with `rest` behind the saved state. -/
inductive SeqOutcome (τ : KvState) (d : SeqId) (cells : List (Int × KvCellExt)) (rest : List UInt8) :
    EStateM.Result Fault (Input KvState) Unit → Prop
  | nothing (h : cells = []) : SeqOutcome τ d cells rest (.ok () ⟨rest, τ⟩)
  | restored (hne : cells ≠ []) {kv' : KvCache} (data : KvData) (h : Reinstalls c τ.cache d cells kv') :
      SeqOutcome τ d cells rest (.ok () ⟨rest, ⟨kv', data⟩⟩)
  | full (rest' : List UInt8) (data : KvData) :
      SeqOutcome τ d cells rest
        (.error .thrown ⟨rest', ⟨dropped c (dropped c τ.cache d) d, data⟩⟩)
  | aborted (s : Input KvState) : SeqOutcome τ d cells rest (.error .abort s)

/-! ## One stream -/

/-- Once the cells are read, the restore of the metadata depends on the cache alone. -/
theorem readMetaSeq_of_cells (hsh : c.shared = false) (hd : d.val < c.seqToStreamSize) (strm : Nat)
    {n : Nat} {bytes rest : List UInt8}
    (hread : readSeqCells c n ⟨bytes, dropped c kv d⟩ = .ok (some cells) ⟨rest, dropped c kv d⟩) :
    (∃ sinfo kv', readMetaSeq c strm n d ⟨bytes, kv⟩ = .ok (some sinfo) ⟨rest, kv'⟩ ∧ Reinstalls c kv d cells kv') ∨
      readMetaSeq c strm n d ⟨bytes, kv⟩ = .ok none ⟨rest, dropped c kv d⟩ ∨
      ∃ s, readMetaSeq c strm n d ⟨bytes, kv⟩ = .error .abort s := by
  unfold readMetaSeq
  rw [bind_ok (dropSeq_run hsh hd ⟨bytes, kv⟩), bind_ok hread]
  dsimp only
  rw [bind_ok (Readers.getSt_run _)]
  cases hfind : (dropped c kv d).findSlot c (restoreUbatch c d cells) false with
  | none => exact .inr (.inr ⟨_, rfl⟩)
  | some sinfo =>
    dsimp only
    cases hne : sinfo.isEmpty with
    | true => exact .inr (.inl rfl)
    | false =>
      cases happly : (dropped c kv d).applyUbatch c sinfo (restoreUbatch c d cells) with
      | none => exact .inr (.inr ⟨_, rfl⟩)
      | some kv' =>
        simp only [Bool.false_eq_true, if_false]
        rw [bind_ok (Readers.setSt_run kv' _)]
        split
        · exact .inl ⟨sinfo, kv', rfl, sinfo, hfind, hne, happly⟩
        · exact .inr (.inr ⟨_, rfl⟩)

theorem mem_savedCells_some {cells : KvCells} {i : Nat} (h : i ∈ savedCells c cells (some s)) :
    i < cells.size ∧ cells.pos i ≠ -1 ∧ s ∈ cells.seq i := by
  have hadd := (mem_filter.mp h).2
  simp only [addCell, KvCells.isEmpty, KvCells.seqHas, Bool.and_eq_true, Bool.not_eq_true',
    decide_eq_false_iff_not, decide_eq_true_eq] at hadd
  exact ⟨lt_of_mem_savedCells h, hadd.1, hadd.2.1⟩

/-- A stream that is not that of `s` has nothing to save. -/
theorem savedCells_some_eq_nil (hσ : kv.Inv c) {t : Nat} (ht : t ≠ c.seqToStream s) :
    savedCells c (kv.vCells t) (some s) = [] := by
  refine eq_nil_iff_forall_not_mem.mpr fun i hi => ?_
  obtain ⟨hlt, -, hs⟩ := mem_savedCells_some hi
  exact ht (hσ.owner t i (hσ.size t ▸ hlt) s hs).symm

/-- The stream writes the number of its saved cells, and their contents if there are any. -/
theorem writeStream_eq (t : Nat) (seqId : Option SeqId) : writeStream c L σ seqId t =
    putLE 4 (savedCells c (σ.cache.vCells t) seqId).length ++
      if (savedCells c (σ.cache.vCells t) seqId).length = 0 then []
      else (savedCells c (σ.cache.vCells t) seqId).flatMap (writeCell c (σ.cache.vCells t) seqId) ++
        writeData c L σ.data (cellRanges (σ.cache.vCells t).size (addCell c (σ.cache.vCells t) seqId)) t := by
  unfold writeStream
  dsimp only
  rw [cellCount_eq, writeMeta_eq]

theorem readStream_writeStream_nil {t u : Nat} {seqId dest : Option SeqId}
    (h : savedCells c (σ.cache.vCells t) seqId = []) (rest : List UInt8) :
    readStream c L dest u ⟨writeStream c L σ seqId t ++ rest, τ⟩ = .ok () ⟨rest, τ⟩ := by
  rw [writeStream_eq, h, length_nil, if_pos rfl, append_nil]
  exact readStream_putLE_zero

section OneStream

variable (hc : c.Fits) (hsh : c.shared = false) (hσ : σ.cache.Inv c) (hfits : Fits c σ.cache)
  (hs : s.val < c.nSeqMax) (hs' : s.val < c.seqToStreamSize) (hd : d.val < c.seqToStreamSize)

include hc hsh hσ hfits hs hs' hd

theorem readStream_writeStream_some (rest : List UInt8) (u : Nat) :
    SeqOutcome c τ d (seqCells c σ.cache s) rest (readStream c L (some d) u
      ⟨writeStream c L σ (some s) (c.seqToStream s) ++ rest, τ⟩) := by
  have ht := seqToStream_lt hc hs'
  have hle := savedCells_length_le (c := c) (σ.cache.vCells (c.seqToStream s)) (some s)
  have hcr : (rangeCells (cellRanges (σ.cache.vCells (c.seqToStream s)).size
      (addCell c (σ.cache.vCells (c.seqToStream s)) (some s)))).length =
      (savedCells c (σ.cache.vCells (c.seqToStream s)) (some s)).length := by
    rw [cellRanges_flatMap]
    rfl
  have hread : ∀ rest, readSeqCells c (savedCells c (σ.cache.vCells (c.seqToStream s)) (some s)).length
      ⟨(savedCells c (σ.cache.vCells (c.seqToStream s)) (some s)).flatMap
        (writeCell c (σ.cache.vCells (c.seqToStream s)) (some s)) ++ rest, dropped c τ.cache d⟩ =
      .ok (some (seqCells c σ.cache s)) ⟨rest, dropped c τ.cache d⟩ := fun rest =>
    readSeqCells_writeCells hs (fun i hi => hfits _ ht i (hσ.size _ ▸ lt_of_mem_savedCells hi))
      (fun i hi => (mem_savedCells_some hi).2.2) rest (dropped c τ.cache d)
  by_cases hnil : savedCells c (σ.cache.vCells (c.seqToStream s)) (some s) = []
  · rw [readStream_writeStream_nil hnil]
    exact .nothing (by rw [seqCells, hnil, map_nil])
  have hzero : (savedCells c (σ.cache.vCells (c.seqToStream s)) (some s)).length ≠ 0 :=
    fun h => hnil (length_eq_zero_iff.mp h)
  have hcells : seqCells c σ.cache s ≠ [] := by simpa [seqCells] using hnil
  rw [writeStream_eq, if_neg hzero, append_assoc, append_assoc]
  rw [hσ.size] at hle
  generalize (savedCells c (σ.cache.vCells (c.seqToStream s)) (some s)).flatMap
    (writeCell c (σ.cache.vCells (c.seqToStream s)) (some s)) = metadata at hread ⊢
  generalize (savedCells c (σ.cache.vCells (c.seqToStream s)) (some s)).length = n at hle hcr hzero hread ⊢
  have hlt : n < 256 ^ 4 := Nat.lt_of_le_of_lt hle hc.kvSize_lt
  rcases readMetaSeq_of_cells hsh hd (c.seqToStream d) (hread _) with
    ⟨sinfo, kv', hrun, hinst⟩ | hrun | ⟨s', hrun⟩
  · -- the data is accepted behind the metadata
    obtain ⟨data', hdata⟩ : ∃ data', readData c L (c.seqToStream d) n sinfo
        ⟨writeData c L σ.data (cellRanges (σ.cache.vCells (c.seqToStream s)).size
          (addCell c (σ.cache.vCells (c.seqToStream s)) (some s))) (c.seqToStream s) ++ rest, τ.data⟩ =
        .ok true ⟨rest, data'⟩ :=
      accepts_writeData hcr σ.data sinfo L hle rest τ.data
    rw [readStream_putLE_ok (d := some d) hlt hzero hrun hdata]
    exact .restored hcells data' hinst
  · rw [readStream_putLE_none (d := some d) hlt hzero hrun, giveUp_some hsh hd]
    exact .full _ _
  · rw [readStream_putLE_error (d := some d) hlt hzero hrun]
    exact .aborted _

/-! ## All streams -/

omit hc hsh hfits hs hs' hd in
theorem readStreams_writeStreams_nil {ts : List Nat} (hts : c.seqToStream s ∉ ts) (rest : List UInt8) :
    ts.forM (readStream c L (some d)) ⟨ts.flatMap (writeStream c L σ (some s)) ++ rest, τ⟩ = .ok () ⟨rest, τ⟩ := by
  induction ts with
  | nil => rfl
  | cons t ts ih =>
    rw [mem_cons, not_or] at hts
    rw [flatMap_cons, append_assoc]
    change (readStream c L (some d) t >>= fun _ => ts.forM (readStream c L (some d))) _ = _
    rw [bind_ok (readStream_writeStream_nil (savedCells_some_eq_nil hσ (Ne.symm hts.1)) _), ih hts.2]

theorem readStreams_writeStreams_some {ts : List Nat} (hnd : ts.Nodup) (hts : c.seqToStream s ∈ ts)
    (rest : List UInt8) :
    SeqOutcome c τ d (seqCells c σ.cache s) rest (ts.forM (readStream c L (some d))
      ⟨ts.flatMap (writeStream c L σ (some s)) ++ rest, τ⟩) := by
  induction ts with
  | nil => exact absurd hts not_mem_nil
  | cons t ts ih =>
    rw [nodup_cons] at hnd
    rw [flatMap_cons, append_assoc]
    change SeqOutcome c τ d _ rest
      ((readStream c L (some d) t >>= fun _ => ts.forM (readStream c L (some d))) _)
    rcases mem_cons.mp hts with rfl | hmem
    · -- the other streams have nothing to read
      have hrest : ∀ σ' : KvState, ts.forM (readStream c L (some d))
          ⟨ts.flatMap (writeStream c L σ (some s)) ++ rest, σ'⟩ = .ok () ⟨rest, σ'⟩ := fun _ =>
        readStreams_writeStreams_nil hσ hnd.1 rest
      have hone := readStream_writeStream_some (L := L) (τ := τ) hc hsh hσ hfits hs hs' hd
        (ts.flatMap (writeStream c L σ (some s)) ++ rest) (c.seqToStream s)
      generalize hrun : readStream c L (some d) (c.seqToStream s) _ = r at hone
      cases hone with
      | nothing h =>
        rw [bind_ok hrun, hrest]
        exact .nothing h
      | restored hne data h =>
        rw [bind_ok hrun, hrest]
        exact .restored hne data h
      | full rest' data =>
        rw [bind_error hrun]
        exact .full rest' data
      | aborted s' =>
        rw [bind_error hrun]
        exact .aborted s'
    · have hne : t ≠ c.seqToStream s := fun h => hnd.1 (h ▸ hmem)
      rw [bind_ok (readStream_writeStream_nil (savedCells_some_eq_nil hσ hne) _)]
      exact ih hnd.2 hmem

/-- The restore of a saved sequence: nothing was saved, or the cells are placed, or there is
no room for them. -/
theorem stateRead_stateWrite_some (rest : List UInt8) :
    SeqOutcome c τ d (seqCells c σ.cache s) rest
      (stateRead c L (some d) ⟨stateWrite c L σ (some s) ++ rest, τ⟩) := by
  have hhead : getLE (putLE 4 c.nStream) = c.nStream := Readers.getLE_putLE hc.nStream_lt
  unfold stateWrite
  rw [hsh, if_neg (by simp), append_assoc, stateRead_eq hsh (by simpa using hd) (le_putLE _ _ _)
    (by rw [take_putLE, hhead]), drop_putLE, if_neg (by simp)]
  exact readStreams_writeStreams_some hc hsh hσ hfits hs hs' hd nodup_range
    (mem_range.mpr (seqToStream_lt hc hs')) rest

end OneStream

/-! ## The invariant -/

theorem Inv.dropped (h : kv.Inv c) (d : SeqId) : (dropped c kv d).Inv c := by
  unfold KvCache.dropped
  split
  · exact h
  · exact h.rmCells (some d) le_rfl

/-- The ubatch of a restore is one that the allocator could have made. -/
theorem ubatchOk_restoreUbatch (hd : d.val < c.seqToStreamSize) (hne : cells ≠ [])
    (hpos : ∀ x ∈ cells, 0 ≤ x.1) : UbatchOk c (restoreUbatch c d cells) where
  tokens := by
    have := length_pos_iff.mpr hne
    simpa [restoreUbatch, LlamaUbatch.reserve] using this
  pos_nonneg := by
    intro i hi
    have hi : i < cells.length := by simpa [restoreUbatch, LlamaUbatch.reserve] using hi
    simpa [restoreUbatch, restorePos, hi] using hpos _ (getElem_mem hi)
  nodup := by
    intro i hi
    have hi : i < cells.length := by simpa [restoreUbatch, LlamaUbatch.reserve] using hi
    simp [restoreUbatch, hi]
  unq_length := by simp [restoreUbatch, LlamaUbatch.reserve]
  unq_nodup := by simp [restoreUbatch_seqIdUnq]
  unq_stream := by
    intro g hg
    obtain rfl : g = 0 := by
      rw [nSeqs_restoreUbatch] at hg
      exact Nat.lt_one_iff.mp hg
    simpa [restoreUbatch_seqIdUnq] using hd
  dvd := by
    rw [nSeqs_restoreUbatch]
    exact one_dvd _
  groups := by
    intro _ g hg ii hii
    obtain rfl : g = 0 := by
      rw [nSeqs_restoreUbatch] at hg
      exact Nat.lt_one_iff.mp hg
    rw [tokensPerStream_restoreUbatch] at hii ⊢
    simp [restoreUbatch, hii, LlamaUbatch.reserve]

theorem Reinstalls.inv (h : Reinstalls c kv d cells kv') (hkv : kv.Inv c)
    (hd : d.val < c.seqToStreamSize) (hne : cells ≠ []) (hpos : ∀ x ∈ cells, 0 ≤ x.1) : kv'.Inv c := by
  obtain ⟨sinfo, hfind, hsome, happly⟩ := h
  have hu := ubatchOk_restoreUbatch hd hne hpos
  have hslot := slot_of_findSlot (hkv.dropped d) hu hfind hsome
  exact (frame_applyUbatch (hkv.dropped d) hu hslot happly).inv

theorem seqCells_pos_nonneg (hσ : kv.Inv c) (s : SeqId) : ∀ x ∈ seqCells c kv s, 0 ≤ x.1 := by
  intro x hx
  obtain ⟨i, hi, rfl⟩ := List.mem_map.mp hx
  obtain ⟨hlt, hpos, -⟩ := mem_savedCells_some hi
  exact (hσ.rep _).pos_nonneg hlt hpos

/-- However the restore of a saved sequence ends, the cache is well kept; a restore that
returns has taken the saved state. -/
theorem inv_stateRead_some (hc : c.Fits) (hsh : c.shared = false) (hσ : σ.cache.Inv c)
    (hfits : Fits c σ.cache) (hs : s.val < c.nSeqMax) (hs' : s.val < c.seqToStreamSize)
    (hd : d.val < c.seqToStreamSize) (hτ : τ.cache.Inv c) (rest : List UInt8) :
    (∀ inp, stateRead c L (some d) ⟨stateWrite c L σ (some s) ++ rest, τ⟩ = .ok () inp →
        inp.bytes = rest ∧ inp.st.cache.Inv c) ∧
      ∀ inp, stateRead c L (some d) ⟨stateWrite c L σ (some s) ++ rest, τ⟩ = .error .thrown inp →
        inp.st.cache.Inv c := by
  have hout := stateRead_stateWrite_some (L := L) (τ := τ) hc hsh hσ hfits hs hs' hd rest
  generalize stateRead c L (some d) _ = r at hout
  cases hout with
  | nothing h =>
    refine ⟨fun inp hinp => ?_, fun inp hinp => by simp at hinp⟩
    obtain rfl : _ = inp := by simpa using hinp
    exact ⟨rfl, hτ⟩
  | restored hne data h =>
    refine ⟨fun inp hinp => ?_, fun inp hinp => by simp at hinp⟩
    obtain rfl : _ = inp := by simpa using hinp
    exact ⟨rfl, h.inv hτ hd hne (seqCells_pos_nonneg hσ s)⟩
  | full rest' data =>
    refine ⟨fun inp hinp => by simp at hinp, fun inp hinp => ?_⟩
    obtain rfl : _ = inp := by simpa using hinp
    exact (hτ.dropped d).dropped d
  | aborted s' => exact ⟨fun inp hinp => by simp at hinp, fun inp hinp => by simp at hinp⟩

/-- What a whole-cache restore puts into a stream belongs there. -/
theorem restored_owner (hσ : kv.Inv c) {cells₀ : KvCells} {t : Nat} (hsize : cells₀.size = c.kvSize)
    {i : Nat} (hs : s ∈ (installAll c (records c (kv.vCells t)) cells₀.reset).seq i) :
    c.seqToStream s = t := by
  have hsz : (kv.vCells t).size = cells₀.size := (hσ.size t).trans hsize.symm
  rw [← KvCells.cell_seq] at hs
  rcases Nat.lt_or_ge i (savedCells c (kv.vCells t) none).length with hi | hi
  · rw [restored_cell hsz hi, List.mem_toFinset, mem_savedSeqs_none] at hs
    exact hσ.owner t _ (hσ.size t ▸ (mem_savedCells_none.mp (getElem_mem hi)).1) s hs.2
  · rw [restored_cell_of_ge hsz hi] at hs
    exact absurd hs (Finset.notMem_empty s)

theorem inv_stateRead_none (hc : c.Fits) (hsh : c.shared = false) (hσ : σ.cache.Inv c)
    (hfits : Fits c σ.cache) (hτ : τ.cache.Inv c) (rest : List UInt8) :
    ∃ τ', stateRead c L none ⟨stateWrite c L σ none ++ rest, τ⟩ = .ok () ⟨rest, τ'⟩ ∧ τ'.cache.Inv c := by
  obtain ⟨τ', hrun, hview⟩ := stateRead_stateWrite_none (L := L) hc hsh hσ hfits
    (fun t _ => hτ.size t) rest
  have hcase : ∀ t, (τ'.cache.vCells t = installAll c (records c (σ.cache.vCells t)) (τ.cache.vCells t).reset ∧
      τ'.cache.vHeads t = 0) ∨ (τ'.cache.vCells t = τ.cache.vCells t ∧ τ'.cache.vHeads t = τ.cache.vHeads t) := by
    intro t
    have h := hview t
    split at h
    · exact .inl (Prod.mk.inj h)
    · exact .inr (Prod.mk.inj h)
  refine ⟨τ', hrun, fun t => ?_, fun t => ?_, fun t => ?_, fun t i hi s hs => ?_⟩
  · rcases hcase t with ⟨h, -⟩ | ⟨h, -⟩ <;> rw [h]
    · rw [installAll_size]
      exact hτ.size t
    · exact hτ.size t
  · rcases hcase t with ⟨h, -⟩ | ⟨h, -⟩ <;> rw [h]
    · exact rep_restored ((hσ.size t).trans (hτ.size t).symm) (hσ.rep t)
    · exact hτ.rep t
  · rcases hcase t with ⟨-, h⟩ | ⟨-, h⟩ <;> rw [h]
    · exact Nat.zero_le _
    · exact hτ.head_le t
  · rcases hcase t with ⟨h, -⟩ | ⟨h, -⟩ <;> rw [h] at hs
    · exact restored_owner hσ (hτ.size t) hs
    · exact hτ.owner t i hi s hs

/-- A restore that asks for what was saved: the whole cache, or one sequence. -/
inductive Matches (c : KvConfig) : Option SeqId → Option SeqId → Prop
  | whole : Matches c none none
  | single {s d : SeqId} (hs : s.val < c.nSeqMax) (hs' : s.val < c.seqToStreamSize) :
      Matches c (some s) (some d)

/-- A restore of a saved state leaves a cache that is well kept. -/
theorem inv_stateRead (hc : c.Fits) (hsh : c.shared = false) (hσ : σ.cache.Inv c)
    (hfits : Fits c σ.cache) (hτ : τ.cache.Inv c) {src dest : Option SeqId} (h : Matches c src dest)
    (rest : List UInt8) : Readers.Settles (fun σ => σ.cache.Inv c) rest
      (stateRead c L dest ⟨stateWrite c L σ src ++ rest, τ⟩) := by
  cases h with
  | whole =>
    obtain ⟨τ', hrun, hinv⟩ := inv_stateRead_none (L := L) hc hsh hσ hfits hτ rest
    rw [hrun]
    exact ⟨rfl, hinv⟩
  | @single s d hs hs' =>
    rcases Nat.lt_or_ge d.val c.seqToStreamSize with hd | hd
    · obtain ⟨hok, hthrown⟩ := inv_stateRead_some (L := L) hc hsh hσ hfits hs hs' hd hτ rest
      cases hrun : stateRead c L (some d) ⟨stateWrite c L σ (some s) ++ rest, τ⟩ with
      | ok _ inp => exact hok inp hrun
      | error e inp =>
        cases e with
        | thrown => exact hthrown inp hrun
        | abort => trivial
    · -- the assertion on the sequence fails
      have hrun : stateRead c L (some d) ⟨stateWrite c L σ (some s) ++ rest, τ⟩ =
          .error .abort ⟨stateWrite c L σ (some s) ++ rest, τ⟩ := by
        unfold stateRead
        rw [hsh, if_neg (by simp), if_pos ⟨d, rfl, hd⟩]
        rfl
      rw [hrun]
      trivial

end LlamaCpp.KvCache
