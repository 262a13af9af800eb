import LlamaCpp.Dsv4.Windows

/-!
# Runs of the compressor

A plan for the next micro-batch writes the completed blocks to their rows and leaves the other rows of
completed blocks alone (`Good.planOk`), and the state that it leads to is good again (`Good.apply`).
-/

namespace LlamaCpp.Dsv4

open List Option

variable {V : Type}

/-! ## The rows that are written -/

section Rows

variable {p : CompParams} {st : CompState V} {h : History V} {x : CompInput V} {plan : CompPlan}
  {b s : Nat}

/-- The rows of two streams differ. -/
theorem row_inj {size s' b' : Nat} (hb : b < size) (hb' : b' < size)
    (heq : s * size + b = s' * size + b') : s = s' ∧ b = b' := by
  have hs : s = s' := by
    have hdiv := congrArg (· / size) heq
    simpa [Nat.mul_comm _ size, Nat.mul_add_div (Nat.zero_lt_of_lt hb), Nat.div_eq_of_lt hb, Nat.div_eq_of_lt hb'] using hdiv
  subst hs
  exact ⟨rfl, Nat.add_left_cancel heq⟩

/-- A pair at the end of a block, and the block. -/
theorem block_range (hfit : Fits p h x) (hfacts : PlanFacts p x.ubatch plan) {e : Nat × SeqId} (he : e ∈ blocks p x.ubatch) :
    streamOf p e.2 < p.nStream ∧
      h.count (streamOf p e.2) < (entryPos x.ubatch e / p.ratio + 1) * p.ratio ∧
      (entryPos x.ubatch e / p.ratio + 1) * p.ratio ≤ (h.push p x).count (streamOf p e.2) := by
  obtain ⟨hmem, hend⟩ := mem_blocks.mp he
  have hs := streamOf_lt (hfacts.streams e hmem)
  have hrange := hfit.entry_range hs (mem_streamEntries.mpr ⟨hmem, rfl⟩)
  rw [← atEnd_pos hend]
  exact ⟨hs, Nat.lt_succ_of_le hrange.1, hrange.2⟩

/-- A completed block has a pair. -/
theorem block_exists (hfit : Fits p h x) (hs : s < p.nStream) (hnew : h.count s < (b + 1) * p.ratio)
    (hdone : (b + 1) * p.ratio ≤ (h.push p x).count s) :
    ∃ e ∈ blocks p x.ubatch, streamOf p e.2 = s ∧ entryPos x.ubatch e / p.ratio = b := by
  have hpos : 0 < (b + 1) * p.ratio := Nat.mul_pos (Nat.succ_pos b) p.ratio_pos
  obtain ⟨e, he, hentry⟩ :=
    hfit.entry_exists hs (Nat.le_sub_one_of_lt hnew) (Nat.lt_of_lt_of_le (Nat.sub_one_lt_of_lt hpos) hdone)
  obtain ⟨hmem, hstream⟩ := mem_streamEntries.mp he
  have hsucc : entryPos x.ubatch e + 1 = (b + 1) * p.ratio := by omega
  have hend : AtEnd p x.ubatch e := by
    unfold AtEnd
    rw [hsucc, Nat.mul_mod_left]
  refine ⟨e, mem_blocks.mpr ⟨hmem, hend⟩, hstream, ?_⟩
  have hsame := (atEnd_pos hend).symm.trans hsucc
  exact Nat.succ.inj (Nat.eq_of_mul_eq_mul_right p.ratio_pos hsame)

theorem blocks_rows_nodup (hfit : Fits p h x) (hfacts : PlanFacts p x.ubatch plan) :
    ((blocks p x.ubatch).map (entryRow p x.ubatch)).Nodup := by
  refine List.Nodup.map_on ?_ ((hfit.entries_nodup hfacts.streams).filter _)
  intro e he e' he' heq
  obtain ⟨hs, -, hdone⟩ := block_range hfit hfacts he
  obtain ⟨hs', -, hdone'⟩ := block_range hfit hfacts he'
  obtain ⟨hstream, hblock⟩ := row_inj (hfit.row_lt hs hdone) (hfit.row_lt hs' hdone') heq
  obtain ⟨hmem, hend⟩ := mem_blocks.mp he
  obtain ⟨hmem', hend'⟩ := mem_blocks.mp he'
  refine hfit.entry_unique hs (mem_streamEntries.mpr ⟨hmem, rfl⟩) (mem_streamEntries.mpr ⟨hmem', hstream.symm⟩) ?_
  exact Nat.succ.inj ((atEnd_pos hend).trans (hblock ▸ (atEnd_pos hend').symm))

/-- The last row is not that of a completed block while no block is completed. -/
theorem filler_hidden (hfit : Fits p h x) (hfacts : PlanFacts p x.ubatch plan)
    (hnone : blocks p x.ubatch = []) {e : Nat × SeqId} (he : e ∈ entries x.ubatch) (hs : s < p.nStream)
    (hdone : (b + 1) * p.ratio ≤ (h.push p x).count s) :
    streamOf p e.2 * p.kvSize + p.kvSize - 1 ≠ s * p.kvSize + b := by
  intro heq
  have hb := hfit.row_lt hs hdone
  have hse := streamOf_lt (hfacts.streams e he)
  have hrange := hfit.entry_range hse (mem_streamEntries.mpr ⟨he, rfl⟩)
  obtain ⟨hstream, hlast⟩ := @row_inj (p.kvSize - 1) (streamOf p e.2) p.kvSize s b (by omega) hb (by omega)
  -- the last block is complete, so its last token is in the micro-batch
  have hcells : (b + 1) * p.ratio = (h.push p x).count s := by
    refine Nat.le_antisymm hdone (Nat.le_trans (Nat.le_trans (hfit.capacity s hs) p.rows_le) ?_)
    rw [Nat.mul_comm, ← hlast]
    exact Nat.mul_le_mul_right _ (by omega)
  have hnew : h.count s < (b + 1) * p.ratio := by
    rw [hcells, ← hstream]
    omega
  obtain ⟨e', he', -⟩ := block_exists hfit hs hnew hdone
  exact absurd (hnone ▸ he') not_mem_nil

/-- What the plan for the next micro-batch does. -/
theorem Good.planOk (hgood : Good p st h) (hfit : Fits p h x) (hfacts : PlanFacts p x.ubatch plan) :
    PlanOk p st h x plan := by
  rcases hfacts.writes with ⟨hwrites, hreads⟩ | ⟨hnone, e, he, hwrites⟩
  · constructor
    · exact hwrites ▸ blocks_rows_nodup hfit hfacts
    · intro s hs b hnew hdone
      obtain ⟨e, he, rfl, rfl⟩ := block_exists hfit hs hnew hdone
      obtain ⟨k, hk⟩ := getElem?_of_mem he
      refine ⟨k, ?_, window_resolves hgood hfit hfacts hwrites hreads hk⟩
      rw [hwrites, getElem?_map, hk]
      rfl
    · intro row hrow
      rw [hwrites] at hrow
      obtain ⟨e, he, rfl⟩ := List.mem_map.mp hrow
      obtain ⟨hs, hnew, hdone⟩ := block_range hfit hfacts he
      exact .inl ⟨_, hs, _, hnew, hdone, rfl⟩
  · constructor
    · exact hwrites ▸ nodup_cons.mpr ⟨not_mem_nil, .nil⟩
    · intro s hs b hnew hdone
      obtain ⟨e', he', -⟩ := block_exists hfit hs hnew hdone
      exact absurd (hnone ▸ he') not_mem_nil
    · intro row hrow
      rw [hwrites] at hrow
      obtain rfl := mem_singleton.mp hrow
      exact .inr fun s hs b hdone => filler_hidden hfit hfacts hnone he hs hdone

/-! ## The state after a step -/

theorem Good.ring_apply (hgood : Good p st h) (hfit : Fits p h x) (hfacts : PlanFacts p x.ubatch plan)
    (hs : s < p.nStream) {pos : Nat} (hlt : pos < (h.push p x).count s)
    (hkept : (h.push p x).count s ≤ pos + p.stateSize) :
    (st.apply p x plan).ring (s * p.stateSize + pos % p.stateSize) = (h.push p x).value s pos := by
  obtain ⟨rows, hrows, hdsts, hsrcs⟩ := hfacts.persisted
  have hsize : 0 < p.stateSize := by
    have hlast := Nat.lt_of_lt_of_le hlt hkept
    omega
  -- a persisted row of the position is the position itself
  have hsame : ∀ row ∈ rows, row.dst = s * p.stateSize + pos % p.stateSize →
      ∃ e ∈ streamEntries p x.ubatch s, row.src = e.1 ∧ row.pos = entryPos x.ubatch e ∧
        entryPos x.ubatch e % p.stateSize = pos % p.stateSize := by
    intro row hrow hdst
    obtain ⟨e, he, rfl⟩ := hrows.source row hrow
    obtain ⟨hstream, hmod⟩ := row_inj (Nat.mod_lt _ hsize) (Nat.mod_lt _ hsize) hdst
    exact ⟨e, mem_streamEntries.mpr ⟨he, hstream⟩, rfl, rfl, hmod⟩
  have hclose : ∀ pos', pos ≤ pos' → pos' < (h.push p x).count s → pos' % p.stateSize = pos % p.stateSize → pos' = pos := by
    intro pos' hle hlt' hmod
    have hdvd := Nat.dvd_of_mod_eq_zero (Nat.sub_mod_eq_zero_of_mod_eq hmod)
    exact Nat.le_antisymm (Nat.sub_eq_zero_iff_le.mp (Nat.eq_zero_of_dvd_of_lt hdvd (by omega))) hle
  have hloop : (st.apply p x plan).ring =
      rows.foldl (fun (ring : Nat → Option V) (row : PersistRow) =>
        Function.update ring row.dst (some (x.rows row.src))) st.ring := by
    unfold CompState.apply
    rw [hdsts, hsrcs, zip_map', foldl_map]
  rw [hloop]
  rcases Nat.lt_or_ge pos (h.count s) with hold | hnew
  · have hnot : s * p.stateSize + pos % p.stateSize ∉ rows.map (·.dst) := by
      intro hmem
      obtain ⟨row, hrow, hdst⟩ := List.mem_map.mp hmem
      obtain ⟨e, he, -, -, hmod⟩ := hsame row hrow hdst
      obtain ⟨hge, hlt'⟩ := hfit.entry_range hs he
      have heq := hclose _ (Nat.le_trans (Nat.le_of_lt hold) hge) hlt' hmod
      omega
    have hcount : h.count s ≤ (h.push p x).count s := Nat.le_add_right ..
    rw [Loops.foldl_update_of_notMem _ _ hnot, hfit.value_old hs hold]
    exact hgood.ring s hs pos hold (Nat.le_trans hcount hkept)
  · obtain ⟨e, he, hpos⟩ := hfit.entry_exists hs hnew hlt
    obtain ⟨hmem, hstream⟩ := mem_streamEntries.mp he
    obtain ⟨row, hrow, hdst, hle⟩ := hrows.last e hmem
    have hdst' : row.dst = s * p.stateSize + pos % p.stateSize := by
      rw [hdst, ← hpos, ← hstream]
      rfl
    obtain ⟨e', he', hsrc, hrowPos, hmod⟩ := hsame row hrow hdst'
    have heq := hclose _ (hpos ▸ hrowPos ▸ hle) (hfit.entry_range hs he').2 hmod
    have hupdate := Loops.foldl_update_of_mem PersistRow.dst (fun row => some (x.rows row.src)) hrows.nodup hrow st.ring
    rw [← hdst', hupdate, ← heq, hfit.value_entry hs he', hsrc]

/-- The window of a block that was complete before. -/
theorem window_old (hfit : Fits p h x) (hs : s < p.nStream) (hold : (b + 1) * p.ratio ≤ h.count s) :
    (h.push p x).window p s b = h.window p s b := by
  have hvalue : ∀ c ≤ b, ∀ j ∈ List.range p.ratio,
      (h.push p x).value s (c * p.ratio + j) = h.value s (c * p.ratio + j) := by
    intro c hc j hj
    have hmul : c * p.ratio ≤ b * p.ratio := Nat.mul_le_mul_right _ hc
    rw [Nat.succ_mul] at hold
    exact hfit.value_old hs (by rw [mem_range] at hj; omega)
  unfold History.window
  rw [map_congr_left (hvalue b (Nat.le_refl b))]
  congr 1
  split
  · refine map_congr_left fun j hj => ?_
    rw [hvalue (b - 1) (Nat.sub_le b 1) j hj]
  · rfl

theorem Good.cache_apply (hgood : Good p st h) (hfit : Fits p h x) (hfacts : PlanFacts p x.ubatch plan)
    (hs : s < p.nStream) (hdone : (b + 1) * p.ratio ≤ (h.push p x).count s) :
    (st.apply p x plan).cache (s * p.kvSize + b) = some ((h.push p x).window p s b) := by
  have hok := hgood.planOk hfit hfacts
  have hkeys : plan.stateWriteIdxs.zipIdx.map Prod.fst = plan.stateWriteIdxs := zipIdx_map_fst 0 _
  unfold CompState.apply
  rcases Nat.lt_or_ge (h.count s) ((b + 1) * p.ratio) with hnew | hold
  · obtain ⟨k, hk, hwindow⟩ := hok.blocks s hs b hnew hdone
    have hmem : (s * p.kvSize + b, k) ∈ plan.stateWriteIdxs.zipIdx := mem_zipIdx_iff_getElem?.mpr hk
    rw [← hwindow]
    exact Loops.foldl_update_of_mem Prod.fst (fun rk => some (plan.window p (sourceRow p st.ring x) rk.2))
      (hkeys.symm ▸ hok.nodup) hmem st.cache
  · have hnot : s * p.kvSize + b ∉ plan.stateWriteIdxs := by
      intro hmem
      rcases hok.others _ hmem with ⟨s', hs', b', hnew', hdone', heq⟩ | hhidden
      · obtain ⟨rfl, rfl⟩ := row_inj (hfit.row_lt hs hdone) (hfit.row_lt hs' hdone') heq
        omega
      · exact hhidden s hs b hdone rfl
    have hkeep := Loops.foldl_update_of_notMem Prod.fst
      (fun rk => some (plan.window p (sourceRow p st.ring x) rk.2)) (hkeys.symm ▸ hnot) st.cache
    rw [window_old hfit hs hold, ← hgood.cache s hs b hold]
    exact hkeep

/-- A step keeps what the state has of what was processed. -/
theorem Good.apply (hgood : Good p st h) (hfit : Fits p h x) (hfacts : PlanFacts p x.ubatch plan) :
    Good p (st.apply p x plan) (h.push p x) where
  known s hs pos hlt := by
    rcases Nat.lt_or_ge pos (h.count s) with hold | hnew
    · rw [hfit.value_old hs hold]
      exact hgood.known s hs pos hold
    · obtain ⟨e, he, rfl⟩ := hfit.entry_exists hs hnew hlt
      rw [hfit.value_entry hs he]
      rfl
  ring _ hs _ hlt hkept := hgood.ring_apply hfit hfacts hs hlt hkept
  cache _ hs _ hdone := hgood.cache_apply hfit hfacts hs hdone

end Rows

/-! ## Runs -/

structure CompRun (V : Type) where
  state : CompState V := {}
  history : History V := {}

/-- One micro-batch; `none` if the plan throws. -/
def CompRun.step (p : CompParams) (r : CompRun V) (x : CompInput V) : Option (CompRun V) :=
  (buildCompPlan p x.ubatch).map fun plan => ⟨r.state.apply p x plan, r.history.push p x⟩

/-- The micro-batches that go on where the streams have stopped. -/
abbrev Consecutive (p : CompParams) (r : CompRun V) (x : CompInput V) : Prop := Fits p r.history x

theorem good_init (p : CompParams) : Good p ({} : CompRun V).state ({} : CompRun V).history where
  known _ _ _ hlt := absurd hlt (Nat.not_lt_zero _)
  ring _ _ _ hlt := absurd hlt (Nat.not_lt_zero _)
  cache _ _ _ hdone := absurd hdone (Nat.not_le_of_gt (Nat.mul_pos (Nat.succ_pos _) p.ratio_pos))

theorem good_of_reaches {p : CompParams} {r : CompRun V} (h : Runs.Reaches (CompRun.step p) (Consecutive p) {} r) :
    Good p r.state r.history := by
  have hstep : ∀ (r : CompRun V) (x : CompInput V) (r' : CompRun V), Good p r.state r.history → Consecutive p r x →
      r.step p x = some r' → Good p r'.state r'.history := by
    intro r x r' hgood hfit hstep
    obtain ⟨plan, hplan, rfl⟩ := map_eq_some_iff.mp hstep
    exact hgood.apply hfit (planFacts hplan)
  exact Runs.Reaches.inv hstep (good_init p) h

/-- A row that a token sees is that of a completed block. -/
theorem visible_done {p : CompParams} {h : History V} {x : CompInput V} (hfit : Fits p h x) {plan : CompPlan}
    (hplan : buildCompPlan p x.ubatch = some plan) {i : Nat} (hi : i < x.ubatch.nTokens) {seqId : SeqId}
    (hseq : seqId ∈ x.ubatch.seqId i) {b : Nat} (hb : b < plan.nVisible.getD i 0) :
    (b + 1) * p.ratio ≤ (h.push p x).count (streamOf p seqId) := by
  have hentry : (i, seqId) ∈ entries x.ubatch := mem_entries.mpr ⟨hi, hfit.pos_nonneg i hi, hseq⟩
  have hstream := (planFacts hplan).streams _ hentry
  have hrange := hfit.entry_range (streamOf_lt hstream) (mem_streamEntries.mpr ⟨hentry, rfl⟩)
  have hvisible : plan.nVisible = visibleRows p x.ubatch := by
    unfold buildCompPlan at hplan
    split at hplan
    · cases hplan
    · obtain ⟨c, -, hplan⟩ := bind_eq_some_iff.mp hplan
      obtain ⟨c', -, hplan⟩ := bind_eq_some_iff.mp hplan
      exact some.inj hplan ▸ rfl
  have hrow : plan.nVisible.getD i 0 = (entryPos x.ubatch (i, seqId) + 1) / p.ratio := by
    rw [hvisible]
    unfold visibleRows
    rw [getD_eq_getElem?_getD, getElem?_map, getElem?_range hi, map_some, getD_some,
      if_neg (Int.not_lt.mpr (hfit.pos_nonneg i hi))]
    rfl
  rw [hrow] at hb
  exact Nat.le_trans (Nat.mul_le_of_le_div _ _ _ hb) hrange.2

/-- In every state that is reached, the plan for the next micro-batch gathers the window of every block that
is completed and writes it to the row of the block, and no other row that it writes is visible.  After it,
every visible row has the window of its block. -/
theorem windows_along_run {p : CompParams} {r : CompRun V} (hr : Runs.Reaches (CompRun.step p) (Consecutive p) {} r)
    {x : CompInput V} (hfit : Fits p r.history x) {plan : CompPlan} (hplan : buildCompPlan p x.ubatch = some plan) :
    PlanOk p r.state r.history x plan ∧
      ∀ i < x.ubatch.nTokens, ∀ seqId ∈ x.ubatch.seqId i, ∀ b < plan.nVisible.getD i 0,
        (r.state.apply p x plan).cache (streamOf p seqId * p.kvSize + b) =
          some ((r.history.push p x).window p (streamOf p seqId) b) := by
  have hgood := good_of_reaches hr
  have hfacts := planFacts hplan
  refine ⟨hgood.planOk hfit hfacts, fun i hi seqId hseq b hb => ?_⟩
  have hstream := hfacts.streams (i, seqId) (mem_entries.mpr ⟨hi, hfit.pos_nonneg i hi, hseq⟩)
  exact hgood.cache_apply hfit hfacts (streamOf_lt hstream) (visible_done hfit hplan hi hseq hb)

/-- Tokens of sequence 0 at the positions from `start` on. -/
def exampleInput (start n : Nat) : CompInput Nat where
  ubatch := { LlamaUbatch.empty with
    nTokens := n
    nSeqsUnq := 1
    pos := fun i => start + i
    seqId := fun _ => [0]
    seqIdUnq := [0] }
  rows := fun i => start + i

/-- Five tokens in two micro-batches. -/
theorem windows_three_then_two :
    let p := csa 8 1 (by decide)
    ∃ r : CompRun Nat, CompRun.step p {} (exampleInput 0 3) = some r ∧
      ∃ plan, buildCompPlan p (exampleInput 3 2).ubatch = some plan ∧ PlanOk p r.state r.history (exampleInput 3 2) plan := by
  intro p
  have hfirst : Consecutive p {} (exampleInput 0 3) := by
    constructor <;> decide +kernel
  have hsecond : Fits p (({} : History Nat).push p (exampleInput 0 3)) (exampleInput 3 2) := by
    constructor <;> decide +kernel
  obtain ⟨plan, hplan⟩ : ∃ plan, buildCompPlan p (exampleInput 0 3).ubatch = some plan :=
    isSome_iff_exists.mp (by decide +kernel)
  obtain ⟨next, hnext⟩ : ∃ plan, buildCompPlan p (exampleInput 3 2).ubatch = some plan :=
    isSome_iff_exists.mp (by decide +kernel)
  have hstep : CompRun.step p {} (exampleInput 0 3) =
      some ⟨({} : CompState Nat).apply p (exampleInput 0 3) plan, ({} : History Nat).push p (exampleInput 0 3)⟩ := by
    unfold CompRun.step
    rw [hplan]
    rfl
  exact ⟨_, hstep, next, hnext, (windows_along_run (.step .refl hfirst hstep) hsecond hnext).1⟩

end LlamaCpp.Dsv4
