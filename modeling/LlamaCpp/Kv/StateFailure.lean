import LlamaCpp.Kv.StateTable

/-!
# What a failed restore leaves behind

A restore that is given up is cleaned up, but an exception of the metadata reader and
one of the loop over the streams pass the cleanup.  `notCut` says of the input of a
whole-cache restore that it is not cut where this leaves cells behind, and `CleanRun`
of the restore of one sequence that it is not, and that the cleanup reaches every cell
it is meant for (`Drops`).  `stateRead_leavesNothing_iff` says that nothing is left
behind exactly then.
-/

namespace LlamaCpp.KvCache

open List Function

open Readers (Reader Input Fault putLE takeLE getLE bind_ok bind_error bind_eq_ok bind_eq_error)

variable {c : KvConfig} {L : KvLayout} {kv : KvCache} {bytes : List UInt8}

/-! ## One sequence -/

variable (c) in
/-- Some cell belongs to the sequence. -/
def Holds (kv : KvCache) (d : SeqId) : Prop :=
  ∃ i < (kv.vCells (c.seqToStream d)).size, d ∈ (kv.vCells (c.seqToStream d)).seq i

variable (c) in
/-- `seq_rm(d, -1, -1)` takes `d` out of all its cells. -/
def Drops (kv : KvCache) (d : SeqId) : Prop :=
  Holds c kv d → kv.msaRejects c (some d) 0 llamaPosMax = false ∧
    ∀ i < (kv.vCells (c.seqToStream d)).size, d ∈ (kv.vCells (c.seqToStream d)).seq i →
      0 ≤ (kv.vCells (c.seqToStream d)).pos i ∧ (kv.vCells (c.seqToStream d)).pos i < llamaPosMax

variable {d : SeqId} {σ : Type}

variable (c) in
/-- The cache behind `seq_rm(d, -1, -1)`. -/
def dropped (kv : KvCache) (d : SeqId) : KvCache :=
  if kv.msaRejects c (some d) 0 llamaPosMax then kv else kv.rmCells c (some d) 0 llamaPosMax

theorem dropSeq_run (hsh : c.shared = false) (hd : d.val < c.seqToStreamSize) (s : Input KvCache) :
    dropSeq c d s = .ok () ⟨s.bytes, dropped c s.st d⟩ := by
  have hrm : s.st.seqRm c (some d) (-1) (-1) = some (dropped c s.st d,
      !s.st.msaRejects c (some d) 0 llamaPosMax) := by
    unfold seqRm dropped
    have hlo : rangeLo (-1) = 0 := rfl
    have hhi : rangeHi (-1) = llamaPosMax := rfl
    rw [hsh, if_neg (by simp), if_neg (by simpa using hd), if_neg (by decide), hlo, hhi]
    cases s.st.msaRejects c (some d) 0 llamaPosMax <;> rfl
  unfold dropSeq
  rw [bind_ok (Readers.getSt_run s), hrm]
  rfl

theorem seqRm_notMem (d : SeqId) (x : KvCell) : d ∉ (x.seqRm d).seq := by
  unfold KvCell.seqRm
  split
  · exact Finset.notMem_empty d
  · exact Finset.notMem_erase d x.seq

/-- What the removal leaves of the sequence is out of its range. -/
theorem mem_rmCells {i : Nat} (hi : i < (kv.vCells (c.seqToStream d)).size) {p0 p1 : Int} :
    d ∈ ((kv.rmCells c (some d) p0 p1).vCells (c.seqToStream d)).seq i ↔
      d ∈ (kv.vCells (c.seqToStream d)).seq i ∧
        ¬(p0 ≤ (kv.vCells (c.seqToStream d)).pos i ∧ (kv.vCells (c.seqToStream d)).pos i < p1) := by
  have hcell := pass_cell (acts_seqRm_onSeq d p0 p1) kv (c.seqToStream d) (c.seqToStream d) i
  rw [if_pos ⟨rfl, hi⟩] at hcell
  have hseq := congrArg KvCell.seq hcell
  change ((kv.rmCells c (some d) p0 p1).vCells (c.seqToStream d)).seq i = _ at hseq
  rw [hseq]
  split
  · rename_i hon
    have hin : p0 ≤ (kv.vCells (c.seqToStream d)).pos i ∧ (kv.vCells (c.seqToStream d)).pos i < p1 := hon.1
    exact ⟨fun h => absurd h (seqRm_notMem d _), fun h => absurd hin h.2⟩
  · rename_i hon
    exact ⟨fun h => ⟨h, fun hp => hon ⟨hp, h⟩⟩, fun h => h.1⟩

theorem rmCells_size {p0 p1 : Int} : ((kv.rmCells c (some d) p0 p1).vCells (c.seqToStream d)).size =
      (kv.vCells (c.seqToStream d)).size := by
  simp only [rmCells, KvCache.pass, lowerHead_vCells, setCells_vCells, update_self]
  exact KvCells.sweep_size (acts_seqRm_onSeq d p0 p1) _

theorem holds_dropped : ¬Holds c (dropped c kv d) d ↔ Drops c kv d := by
  unfold dropped Drops
  cases hmsa : kv.msaRejects c (some d) 0 llamaPosMax with
  | true => simp
  | false =>
    simp only [Bool.false_eq_true, if_false, true_and]
    constructor
    · intro hno _ i hi hmem
      by_contra hout
      exact hno ⟨i, rmCells_size.symm ▸ hi, (mem_rmCells hi).mpr ⟨hmem, hout⟩⟩
    · rintro hall ⟨i, hi, hmem⟩
      rw [rmCells_size] at hi
      obtain ⟨hmem, hout⟩ := (mem_rmCells hi).mp hmem
      exact hout (hall ⟨i, hi, hmem⟩ i hi hmem)

/-- A second cleanup reaches no more than the first. -/
theorem drops_dropped : Drops c (dropped c kv d) d ↔ Drops c kv d := by
  have hiff : ¬Holds c (dropped c kv d) d ↔ Drops c kv d := holds_dropped
  rw [← hiff]
  constructor
  · intro h hhold
    obtain ⟨i, hi, hmem⟩ := hhold
    unfold dropped at h hi hmem
    cases hmsa : kv.msaRejects c (some d) 0 llamaPosMax with
    | true =>
      rw [hmsa, if_pos rfl] at h hi hmem
      rw [(h ⟨i, hi, hmem⟩).1] at hmsa
      exact absurd hmsa (by simp)
    | false =>
      rw [hmsa, if_neg (by simp)] at h hi hmem
      have hin := (h ⟨i, hi, hmem⟩).2 i hi hmem
      have hi' := hi
      rw [rmCells_size] at hi'
      have hout := ((mem_rmCells hi').mp hmem).2
      -- the removal does not move the cells it leaves
      have hcell := pass_cell (acts_seqRm_onSeq d 0 llamaPosMax) kv (c.seqToStream d)
        (c.seqToStream d) i
      rw [if_pos ⟨rfl, hi'⟩, if_neg fun hon => hout hon.1] at hcell
      have hpos := congrArg KvCell.pos hcell
      change ((kv.rmCells c (some d) 0 llamaPosMax).vCells (c.seqToStream d)).pos i = _ at hpos
      rw [hpos] at hin
      exact hout hin
  · exact fun hno hhold => absurd hhold hno

theorem quiet_takeI32 : Readers.Quiet (takeI32 : Reader σ Int) :=
  (Readers.quiet_takeLE 4).bind fun _ => Readers.quiet_pure _

theorem quiet_takeCellExt : Readers.Quiet (takeCellExt c : Reader σ KvCellExt) :=
  .ite (quiet_takeI32.bind fun _ => quiet_takeI32.bind fun _ => quiet_takeI32.bind fun _ =>
    Readers.quiet_pure _) (Readers.quiet_pure _)

/-- Reading the cells of a sequence does not touch the cache. -/
theorem quiet_readSeqCells (n : Nat) :
    Readers.Quiet (readSeqCells c n : Reader σ (Option (List (Int × KvCellExt)))) := by
  induction n with
  | zero => exact Readers.quiet_pure _
  | succ n ih =>
    exact quiet_takeI32.bind fun _ => (Readers.quiet_takeLE 4).bind fun _ =>
      .ite (Readers.quiet_pure _) (quiet_takeCellExt.bind fun _ => quiet_takeI32.bind fun _ =>
        ih.bind fun _ => Readers.quiet_pure _)

/-- Metadata that throws or is rejected has only removed the sequence. -/
theorem readMetaSeq_fail {strm n : Nat} (hsh : c.shared = false) (hd : d.val < c.seqToStreamSize)
    {s : Input KvCache} (h : readMetaSeq c strm n d ⟨bytes, kv⟩ = .error .thrown s ∨
      readMetaSeq c strm n d ⟨bytes, kv⟩ = .ok none s) : s.st = dropped c kv d := by
  unfold readMetaSeq at h
  rw [bind_ok (dropSeq_run hsh hd _)] at h
  cases hcells : readSeqCells c n ⟨bytes, dropped c kv d⟩ with
  | error e s₁ =>
    obtain ⟨rfl, hst⟩ := (quiet_readSeqCells n).error hcells
    rw [bind_error hcells] at h
    obtain rfl : s₁ = s := by simpa using h
    exact hst
  | ok cells s₁ =>
    have hst : s₁.st = dropped c kv d := (quiet_readSeqCells n).ok hcells
    rw [bind_ok hcells] at h
    cases cells with
    | none =>
      obtain rfl : s₁ = s := by simpa using h
      exact hst
    | some cells =>
      dsimp only at h
      rw [bind_ok (Readers.getSt_run s₁)] at h
      cases hfind : s₁.st.findSlot c (restoreUbatch c d cells) false with
      | none => simp [hfind] at h
      | some sinfo =>
        cases hne : sinfo.isEmpty with
        | true =>
          obtain rfl : s₁ = s := by simpa [hfind, hne] using h
          exact hst
        | false =>
          -- from here on the call returns a slot or aborts
          cases happly : s₁.st.applyUbatch c sinfo (restoreUbatch c d cells) with
          | none => simp [hfind, hne, happly] at h
          | some kv' =>
            simp only [hfind, hne, happly, Bool.false_eq_true, if_false] at h
            rw [bind_ok (Readers.setSt_run kv' s₁)] at h
            split at h <;> simp at h

theorem giveUp_some (hsh : c.shared = false) (hd : d.val < c.seqToStreamSize) (s : Input KvState) :
    giveUp c (some d) s = .error .thrown ⟨s.bytes, { s.st with cache := dropped c s.st.cache d }⟩ := by
  unfold giveUp cleanup
  rw [bind_ok (onCache_ok (dropSeq_run hsh hd ⟨s.bytes, s.st.cache⟩))]
  rfl

variable (c L) in
/-- The streams `ts` of the input, behind the state `s`: an input that is too short for
the number of cells finds no cell of `d`, and when a stream is given up the removal
reaches every cell of `d`. -/
def CleanRun (d : SeqId) : List Nat → Input KvState → Prop
  | [], _ => True
  | _ :: ts, s =>
    match takeLE 4 s with
    | .error _ _ => ¬Holds c s.st.cache d
    | .ok n s₁ =>
      if n = 0 then CleanRun d ts s₁
      else
        match readMetaSeq c (c.seqToStream d) n d ⟨s₁.bytes, s₁.st.cache⟩ with
        | .ok (some sinfo) s₂ =>
          match readData c L (c.seqToStream d) n sinfo ⟨s₂.bytes, s₁.st.data⟩ with
          | .ok true s₃ => CleanRun d ts ⟨s₃.bytes, ⟨s₂.st, s₃.st⟩⟩
          | _ => Drops c s₂.st d
        | _ => Drops c s₁.st.cache d

theorem readStreams_some (hsh : c.shared = false) (hd : d.val < c.seqToStreamSize) {ts : List Nat}
    {σ : KvState} {s : Input KvState}
    (hrun : ts.forM (readStream c L (some d)) ⟨bytes, σ⟩ = .error .thrown s) :
    ¬Holds c s.st.cache d ↔ CleanRun c L d ts ⟨bytes, σ⟩ := by
  induction ts generalizing bytes σ with
  | nil => simp at hrun
  | cons t ts ih =>
    unfold CleanRun
    rcases Nat.lt_or_ge bytes.length 4 with hlt | hle
    · rw [takeLE_of_lt hlt]
      rcases bind_eq_error.mp hrun with hone | ⟨⟨⟩, s₁, hone, -⟩ <;>
        rw [readStream_of_lt hlt] at hone
      · obtain rfl : _ = s := by simpa using hone
        rfl
      · simp at hone
    rw [takeLE_of_le hle]
    dsimp only
    generalize hn : getLE (bytes.take 4) = n
    by_cases hzero : n = 0
    · rw [if_pos hzero]
      rcases bind_eq_error.mp hrun with hone | ⟨⟨⟩, s₁, hone, hrest⟩ <;>
        rw [readStream_zero hle (hn.trans hzero)] at hone
      · simp at hone
      · obtain rfl : _ = s₁ := by simpa using hone
        exact ih hrest
    rw [if_neg hzero]
    cases hmeta : readMetaSeq c (c.seqToStream d) n d ⟨bytes.drop 4, σ.cache⟩ with
    | error e s₁ =>
      have hstep := readStream_meta_error (d := some d) (t := t) (L := L) (σ := σ) hle hn hzero hmeta
      rcases bind_eq_error.mp hrun with hone | ⟨⟨⟩, s₂, hone, -⟩ <;> rw [hstep] at hone
      · obtain ⟨rfl, rfl⟩ : e = .thrown ∧ _ = s := by simpa using hone
        rw [readMetaSeq_fail hsh hd (.inl hmeta)]
        exact holds_dropped
      · simp at hone
    | ok sinfo? s₁ =>
      cases sinfo? with
      | none =>
        have hstep := readStream_meta_none (d := some d) (t := t) (L := L) (σ := σ) hle hn hzero hmeta
        rw [giveUp_some hsh hd] at hstep
        rcases bind_eq_error.mp hrun with hone | ⟨⟨⟩, s₂, hone, -⟩ <;> rw [hstep] at hone
        · obtain rfl : _ = s := by simpa using hone
          rw [readMetaSeq_fail hsh hd (.inr hmeta), holds_dropped]
          exact drops_dropped
        · simp at hone
      | some sinfo =>
        dsimp only
        -- data that is rejected or cut leaves what the removal does not reach
        have hfail : ∀ {s' : Input KvData},
            (readData c L (c.seqToStream d) n sinfo ⟨s₁.bytes, σ.data⟩ = .ok false s' ∨
              readData c L (c.seqToStream d) n sinfo ⟨s₁.bytes, σ.data⟩ = .error .thrown s') →
            (¬Holds c s.st.cache d ↔ Drops c s₁.st d) := by
          intro s' hdata
          have hstep := readStream_data_fail (d := some d) (t := t) (σ := σ) hle hn hzero hmeta hdata
          rw [giveUp_some hsh hd] at hstep
          rcases bind_eq_error.mp hrun with hone | ⟨⟨⟩, s₂, hone, -⟩ <;> rw [hstep] at hone
          · obtain rfl : _ = s := by simpa using hone
            exact holds_dropped
          · simp at hone
        cases hdata : readData c L (c.seqToStream d) n sinfo ⟨s₁.bytes, σ.data⟩ with
        | ok b s' =>
          cases b with
          | false => exact hfail (.inl hdata)
          | true =>
            have hstep := readStream_data_ok (d := some d) (t := t) (σ := σ) hle hn hzero hmeta hdata
            rcases bind_eq_error.mp hrun with hone | ⟨⟨⟩, s₂, hone, hrest⟩ <;>
              rw [hstep] at hone
            · simp at hone
            · obtain rfl : _ = s₂ := by simpa using hone
              exact ih hrest
        | error e s' =>
          cases e with
          | thrown => exact hfail (.inr hdata)
          | abort =>
            have hstep := readStream_data_abort (d := some d) (t := t) (σ := σ) hle hn hzero hmeta hdata
            rcases bind_eq_error.mp hrun with hone | ⟨⟨⟩, s₂, hone, -⟩ <;>
              rw [hstep] at hone <;> simp at hone

/-! ## The whole cache -/

variable (c) in
/-- No stream has a cell. -/
def AllEmpty (kv : KvCache) : Prop := ∀ t < c.nStream, ∀ i < c.kvSize, (kv.vCells t).isEmpty i

variable (c L) in
/-- The streams `ts` of the input, behind records with the positions `ps`: the input does
not end in the number of cells or in the metadata of a stream, unless every position so
far is that of an empty cell. -/
def notCut : List Nat → List Int → Input KvData → Bool
  | [], _, _ => true
  | t :: ts, ps, s =>
    match takeLE 4 s with
    | .error _ _ => ps.all fun p => decide (p = -1)
    | .ok n s₁ =>
      if n = 0 then notCut ts ps s₁
      else if c.kvSize < n then true
      else
        match takeRecords c n ⟨s₁.bytes, ()⟩ with
        | .error _ _ => (ps ++ headerPositions c n s₁.bytes).all fun p => decide (p = -1)
        | .ok none _ => true
        | .ok (some rs) s₂ =>
          match readData c L t n (wholeSlot t n) ⟨s₂.bytes, s₁.st⟩ with
          | .ok true s₃ => notCut ts (ps ++ rs.map CellRecord.pos) s₃
          | _ => true

theorem allEmpty_clear : AllEmpty c (kv.clear c) := by
  intro t ht i _
  rw [clear_vCells ht]
  rfl

theorem allEmpty_setCells (kv : KvCache) {t : Nat} {cells cells' : KvCells} {ps : List Int} (ht : t < c.nStream)
    (hreset : kv.vCells t = cells.reset) (hlen : ps.length ≤ c.kvSize)
    (hpos : cells'.pos = writePos 0 ps (kv.vCells t).pos) :
    AllEmpty c (kv.setCells t cells') ↔ AllEmpty c kv ∧ ∀ p ∈ ps, p = -1 := by
  have hread : ∀ i, cells'.pos i = if i < ps.length then ps.getD i 0 else -1 := by
    intro i
    simp only [hpos, hreset, writePos, KvCells.reset_pos, Nat.zero_le, Nat.sub_zero, true_and]
  constructor
  · intro h
    constructor
    · intro u hu i hi
      by_cases hut : u = t
      · rw [hut, hreset]
        rfl
      · simpa [hut] using h u hu i hi
    · intro p hp
      obtain ⟨i, hi, rfl⟩ := mem_iff_getElem.mp hp
      have hempty := h t ht i (Nat.lt_of_lt_of_le hi hlen)
      rw [setCells_vCells, update_self] at hempty
      have hcell : cells'.pos i = -1 := of_decide_eq_true hempty
      rw [hread, if_pos hi, getD_eq_getElem _ _ hi] at hcell
      exact hcell
  · rintro ⟨h, hps⟩ u hu i hi
    by_cases hut : u = t
    · subst hut
      rw [setCells_vCells, update_self]
      refine decide_eq_true ?_
      rw [hread]
      split
      · rename_i hlt
        rw [getD_eq_getElem _ _ hlt]
        exact hps _ (getElem_mem hlt)
      · rfl
    · simpa [hut] using h u hu i hi

theorem installAll_pos (rs : List CellRecord) (cells : KvCells) :
    (installAll c rs cells).pos = writePos 0 (rs.map CellRecord.pos) cells.pos := by
  suffices hgen : ∀ (rs : List CellRecord) (k : Nat) (cells : KvCells),
      ((rs.zipIdx k).foldl (fun cells x => install c x.2 x.1 cells) cells).pos =
        writePos k (rs.map CellRecord.pos) cells.pos from hgen rs 0 cells
  intro rs
  induction rs with
  | nil => exact fun k cells => (writePos_nil k _).symm
  | cons r rs ih =>
    intro k cells
    rw [map_cons, writePos_cons, ← install_pos (c := c)]
    exact ih (k + 1) (install c k r cells)

theorem headerPositions_length_le (n : Nat) (bytes : List UInt8) : (headerPositions c n bytes).length ≤ n := by
  induction n generalizing bytes with
  | zero => exact le_rfl
  | succ n ih =>
    unfold headerPositions
    split
    · exact Nat.zero_le _
    · rw [length_cons]
      split
      · exact Nat.succ_le_succ (ih _)
      · exact Nat.succ_le_succ (Nat.zero_le n)

theorem readStreams_none {ts : List Nat} (hnd : ts.Nodup) (hts : ∀ t ∈ ts, t < c.nStream)
    (ps : List Int) {σ : KvState} {s : Input KvState}
    (hreset : ∀ t ∈ ts, ∃ cells : KvCells, cells.size = c.kvSize ∧ σ.cache.vCells t = cells.reset)
    (hps : AllEmpty c σ.cache ↔ ∀ p ∈ ps, p = -1)
    (hrun : ts.forM (readStream c L none) ⟨bytes, σ⟩ = .error .thrown s) :
    AllEmpty c s.st.cache ↔ notCut c L ts ps ⟨bytes, σ.data⟩ = true := by
  induction ts generalizing bytes σ ps with
  | nil => simp at hrun
  | cons t ts ih =>
    rw [nodup_cons] at hnd
    obtain ⟨cells, hcells, hcleared⟩ := hreset t mem_cons_self
    have ht := hts t mem_cons_self
    have hsize : (σ.cache.vCells t).size = c.kvSize := by
      rw [hcleared]
      exact hcells
    -- the first stream throws, or it returns and a later one throws
    have hstep : ∀ {r}, readStream c L none t ⟨bytes, σ⟩ = r →
        r = .error .thrown s ∨ ∃ s₁, r = .ok () s₁ ∧ ts.forM (readStream c L none) s₁ = .error .thrown s := by
      rintro r rfl
      rcases bind_eq_error.mp hrun with hone | ⟨⟨⟩, s₁, hone, hrest⟩
      · exact .inl hone
      · exact .inr ⟨s₁, hone, hrest⟩
    have hgiven : ∀ {s₁}, readStream c L none t ⟨bytes, σ⟩ = giveUp c none s₁ → AllEmpty c s.st.cache := by
      intro s₁ hone
      rw [giveUp_none] at hone
      rcases hstep hone with heq | ⟨s₂, heq, -⟩
      · obtain rfl : _ = s := by simpa using heq
        exact allEmpty_clear
      · simp at heq
    unfold notCut
    rcases Nat.lt_or_ge bytes.length 4 with hlt | hle
    · rw [takeLE_of_lt hlt]
      rcases hstep (readStream_of_lt hlt) with heq | ⟨s₁, heq, -⟩
      · obtain rfl : _ = s := by simpa using heq
        simpa using hps
      · simp at heq
    rw [takeLE_of_le hle]
    dsimp only
    generalize hn : getLE (bytes.take 4) = n
    by_cases hzero : n = 0
    · rw [if_pos hzero]
      rcases hstep (readStream_zero hle (hn.trans hzero)) with heq | ⟨s₁, heq, hrest⟩
      · simp at heq
      · obtain rfl : _ = s₁ := by simpa using heq
        exact ih hnd.2 (fun u hu => hts u (mem_cons_of_mem _ hu)) ps
          (fun u hu => hreset u (mem_cons_of_mem _ hu)) hps hrest
    rw [if_neg hzero]
    by_cases hfull : c.kvSize < n
    · rw [if_pos hfull]
      exact iff_of_true (hgiven (readStream_meta_none (d := none) hle hn hzero
        (readMetaAll_of_lt σ.cache t (hsize.symm ▸ hfull)))) rfl
    rw [if_neg hfull]
    have hfits : n ≤ (σ.cache.vCells t).size := hsize.symm ▸ Nat.le_of_not_lt hfull
    cases hrecs : takeRecords c n ⟨bytes.drop 4, ()⟩ with
    | error e s₁ =>
      obtain ⟨cells', rest, hmeta, hpos⟩ := readMetaAll_error σ.cache t hfits hrecs
      rcases hstep (readStream_meta_error (d := none) hle hn hzero hmeta) with heq | ⟨s₂, heq, -⟩
      · obtain rfl : _ = s := by simpa using heq
        have hlen := (headerPositions_length_le (c := c) n (bytes.drop 4)).trans
          (Nat.le_of_not_lt hfull)
        rw [allEmpty_setCells σ.cache ht hcleared hlen hpos, hps]
        simp [all_append]
      · simp at heq
    | ok rs? s₁ =>
      cases rs? with
      | none =>
        obtain ⟨s', hmeta⟩ := readMetaAll_none σ.cache t hfits hrecs
        exact iff_of_true (hgiven (readStream_meta_none (d := none) hle hn hzero hmeta)) rfl
      | some rs =>
        obtain ⟨rest, ⟨⟩⟩ := s₁
        have hmeta := readMetaAll_ok σ.cache t hfits hrecs
        dsimp only
        cases hdata : readData c L t n (wholeSlot t n) ⟨rest, σ.data⟩ with
        | error e s' =>
          cases e with
          | thrown =>
            exact iff_of_true (hgiven (readStream_data_fail (d := none) hle hn hzero hmeta
              (.inr hdata))) rfl
          | abort =>
            rcases hstep (readStream_data_abort (d := none) hle hn hzero hmeta hdata) with
              heq | ⟨s₂, heq, -⟩ <;> simp at heq
        | ok b s' =>
          cases b with
          | false =>
            exact iff_of_true (hgiven (readStream_data_fail (d := none) hle hn hzero hmeta
              (.inl hdata))) rfl
          | true =>
            rcases hstep (readStream_data_ok (d := none) hle hn hzero hmeta hdata) with
              heq | ⟨s₂, heq, hrest⟩
            · simp at heq
            · obtain rfl : _ = s₂ := by simpa using heq
              have hne : ∀ u ∈ ts, u ≠ t := fun u hu h => hnd.1 (h ▸ hu)
              refine ih hnd.2 (fun u hu => hts u (mem_cons_of_mem _ hu)) _
                (fun u hu => ?_) ?_ hrest
              · obtain ⟨cells', hsize', hcleared'⟩ := hreset u (mem_cons_of_mem _ hu)
                exact ⟨cells', hsize', by simp [hne u hu, hcleared']⟩
              · have hlen : (rs.map CellRecord.pos).length ≤ c.kvSize := by
                  rw [length_map, (readCells_ok (k := 0) hrecs cells).1]
                  exact Nat.le_of_not_lt hfull
                have hset := allEmpty_setCells σ.cache ht hcleared hlen
                  (installAll_pos (c := c) rs (σ.cache.vCells t))
                rw [forall_mem_append, ← hps]
                exact hset

/-! ## Every input -/

variable (c) in
/-- The number of streams is that of the cache. -/
def HeaderMatches (bytes : List UInt8) : Prop :=
  4 ≤ bytes.length ∧ getLE (bytes.take 4) = c.nStream

variable (c) in
/-- A failed restore left nothing: no cell of the destination, or no cell at all once the
header of a whole-cache restore matched. -/
def LeavesNothing (d : Option SeqId) (bytes : List UInt8) (kv : KvCache) : Prop :=
  match d with
  | some d => ¬Holds c kv d
  | none => HeaderMatches c bytes → AllEmpty c kv

variable (c L) in
/-- Where the input is cut and what the removal reaches. -/
def CutSafe (d : Option SeqId) (bytes : List UInt8) (σ : KvState) : Prop :=
  match d with
  | some d =>
    (¬HeaderMatches c bytes → ¬Holds c σ.cache d) ∧
      (HeaderMatches c bytes → CleanRun c L d (List.range c.nStream) ⟨bytes.drop 4, σ⟩)
  | none =>
    HeaderMatches c bytes →
      notCut c L (List.range c.nStream) [] ⟨bytes.drop 4, fun _ _ => 0⟩ = true

/-- A restore that throws leaves nothing behind exactly if the input is cut in a safe
place and the cleanup reaches all cells. -/
theorem stateRead_leavesNothing_iff (hsh : c.shared = false) {d : Option SeqId}
    (hd : ∀ s ∈ d, s.val < c.seqToStreamSize) {σ : KvState}
    (hsize : ∀ t < c.nStream, (σ.cache.vCells t).size = c.kvSize) {s : Input KvState}
    (hrun : stateRead c L d ⟨bytes, σ⟩ = .error .thrown s) :
    LeavesNothing c d bytes s.st.cache ↔ CutSafe c L d bytes σ := by
  by_cases hhead : HeaderMatches c bytes
  · rw [stateRead_eq hsh hd hhead.1 hhead.2] at hrun
    cases d with
    | some d =>
      rw [if_neg (by simp)] at hrun
      have h := readStreams_some hsh (hd d rfl) hrun
      exact h.trans ⟨fun h => ⟨fun hno => absurd hhead hno, fun _ => h⟩, fun h => h.2 hhead⟩
    | none =>
      rw [if_pos rfl] at hrun
      have h := readStreams_none (L := L) (σ := clearAll c σ) nodup_range
        (fun t ht => mem_range.mp ht) []
        (fun t ht => ⟨σ.cache.vCells t, hsize t (mem_range.mp ht),
          clear_vCells (mem_range.mp ht)⟩)
        (iff_of_true allEmpty_clear (by simp)) hrun
      exact ⟨fun hall hhead => h.mp (hall hhead), fun hcut hhead => h.mpr (hcut hhead)⟩
  · have hno : bytes.length < 4 ∨ getLE (bytes.take 4) ≠ c.nStream := by
      by_contra hcon
      rw [not_or, Nat.not_lt, not_not] at hcon
      exact hhead hcon
    have hst := stateRead_header hsh hd hno hrun
    cases d with
    | some d =>
      unfold LeavesNothing CutSafe
      rw [hst]
      exact ⟨fun h => ⟨fun _ => h, fun h' => absurd h' hhead⟩, fun h => h.1 hhead⟩
    | none => exact ⟨fun _ h => absurd h hhead, fun _ h => absurd h hhead⟩

/-- The data of the only stream is cut: the cell is removed again. -/
theorem stateRead_leavesNothing_data : ∃ s, stateRead (unifiedConfig 1 .none) noLayers none
      ⟨(oneCellState 7).take 24, ⟨init (unifiedConfig 1 .none), fun _ _ => 0⟩⟩ =
        .error .thrown s ∧
    LeavesNothing (unifiedConfig 1 .none) none ((oneCellState 7).take 24) s.st.cache := by
  have hthrown : (Readers.thrownAt (stateRead (unifiedConfig 1 .none) noLayers none
      ⟨(oneCellState 7).take 24, ⟨init (unifiedConfig 1 .none), fun _ _ => 0⟩⟩)).isSome = true := by
    decide +kernel
  obtain ⟨s, hs⟩ := Option.isSome_iff_exists.mp hthrown
  have hrun := Readers.eq_thrown_of_thrownAt hs
  exact ⟨s, hrun, (stateRead_leavesNothing_iff rfl (by simp) (fun _ _ => rfl) hrun).mpr fun _ => by
    decide +kernel⟩

/-- The metadata of the only stream is cut behind the position of its cell. -/
theorem stateRead_cut_metadata :
    ¬∀ (c : KvConfig) (L : KvLayout) (d : Option SeqId) (bytes : List UInt8) (σ : KvState)
      (s : Input KvState), c.shared = false → (∀ s ∈ d, s.val < c.seqToStreamSize) →
      σ.cache.Inv c → stateRead c L d ⟨bytes, σ⟩ = .error .thrown s →
      LeavesNothing c d bytes s.st.cache := by
  intro h
  have hthrown : ((Readers.thrownAt (stateRead (unifiedConfig 1 .none) noLayers none
      ⟨(oneCellState 7).take 16, ⟨init (unifiedConfig 1 .none), fun _ _ => 0⟩⟩)).any
        fun s => (s.st.cache.vCells 0).isEmpty 0 = false) = true := by
    decide +kernel
  obtain ⟨s, hs, hcell⟩ := (Option.any_eq_true _ _).mp hthrown
  have hrun := Readers.eq_thrown_of_thrownAt hs
  have hall := h _ _ none _ _ s rfl (by simp) inv_init hrun ⟨by decide, by decide +kernel⟩
  have hempty : (s.st.cache.vCells 0).isEmpty 0 = true := hall 0 (by decide) 0 (by decide)
  rw [of_decide_eq_true hcell] at hempty
  cases hempty

end LlamaCpp.KvCache
