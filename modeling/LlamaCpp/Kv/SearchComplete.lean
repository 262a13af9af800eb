import LlamaCpp.Kv.Placement

/-!
# The searches end, and miss nothing

Every iteration of the ring search lowers `searchMeasure`, so that the bound on the iterations is never reached
(`searchEnds_of_measure`).

Searching for single cells, the loop has taken all usable cells that it has seen (`Taken`).  Searching for a run of cells,
no run starts where the loop has been (`Passed`).  A search that fails has been everywhere.

`findSlot_iff` puts the streams together.
-/

namespace LlamaCpp.KvCache

open List

variable {c : KvConfig} {cells : KvCells} {cont : Bool} {start nTokens : Nat} {σ : Search}

/-! ## The loop ends -/

/-- The loop returns within the given number of iterations. -/
def SearchEnds (c : KvConfig) (cells : KvCells) (cont : Bool) (nTokens : Nat) : Nat → Search → Prop
  | 0, _ => False
  | fuel + 1, σ =>
    let nTest := if cont then nTokens else 1
    if cells.size < σ.headCur + nTest then
      SearchEnds c cells cont nTokens fuel { σ with headCur := 0, nTested := σ.nTested + (cells.size - σ.headCur) }
    else
      let σ' := testCells c cells cont nTest σ
      if σ'.idxs.length = nTokens then True
      else if cells.size ≤ σ'.nTested then True
      else SearchEnds c cells cont nTokens fuel (if cont then { σ' with idxs := [] } else σ')

theorem ite_one_le (p : Prop) [Decidable p] : (if p then 1 else 0) ≤ 1 := by
  split
  · exact Nat.le_refl 1
  · exact Nat.zero_le 1

/-- Two iterations for a cell that is left to be tested, and one more where the search wraps around. -/
def searchMeasure (cells : KvCells) (nTest : Nat) (σ : Search) : Nat :=
  2 * (cells.size - σ.nTested) + 1 + if cells.size < σ.headCur + nTest then 1 else 0

theorem testCells_nTested (n : Nat) (σ : Search) : σ.nTested ≤ (testCells c cells cont n σ).nTested := by
  induction n generalizing σ with
  | zero => exact Nat.le_refl _
  | succ n ih =>
    unfold testCells
    dsimp only
    split
    · exact Nat.le_trans (Nat.le_succ σ.nTested) (ih ⟨σ.headCur + 1, σ.nTested + 1, σ.idxs ++ [σ.headCur]⟩)
    · split
      · exact Nat.le_succ σ.nTested
      · exact Nat.le_trans (Nat.le_succ σ.nTested) (ih ⟨σ.headCur + 1, σ.nTested + 1, σ.idxs⟩)

theorem testCells_nTested_lt {n : Nat} (hn : 0 < n) (σ : Search) : σ.nTested < (testCells c cells cont n σ).nTested := by
  obtain ⟨n, rfl⟩ := Nat.exists_eq_succ_of_ne_zero hn.ne'
  unfold testCells
  dsimp only
  split
  · exact testCells_nTested n ⟨σ.headCur + 1, σ.nTested + 1, σ.idxs ++ [σ.headCur]⟩
  · split
    · exact Nat.lt_succ_self σ.nTested
    · exact testCells_nTested n ⟨σ.headCur + 1, σ.nTested + 1, σ.idxs⟩

theorem searchMeasure_wrap {nTest : Nat} (hle : nTest ≤ cells.size)
    (hwrap : cells.size < σ.headCur + nTest) :
    searchMeasure cells nTest { σ with headCur := 0, nTested := σ.nTested + (cells.size - σ.headCur) } <
      searchMeasure cells nTest σ := by
  have hnot : ¬cells.size < 0 + nTest := by omega
  unfold searchMeasure
  rw [if_pos hwrap, if_neg hnot]
  dsimp only
  omega

theorem searchMeasure_test {nTest : Nat} {σ' : Search} (hlt : σ.nTested < σ'.nTested)
    (hmore : σ'.nTested < cells.size) : searchMeasure cells nTest σ' < searchMeasure cells nTest σ := by
  have hflag := ite_one_le (cells.size < σ'.headCur + nTest)
  unfold searchMeasure
  omega

/-- The loop returns before it runs out of iterations. -/
theorem searchEnds_of_measure (hpos : 0 < nTokens) (hfits : nTokens ≤ cells.size) :
    ∀ {fuel : Nat} {σ : Search}, searchMeasure cells (if cont then nTokens else 1) σ ≤ fuel →
      SearchEnds c cells cont nTokens fuel σ
  | 0, σ, h => by
      unfold searchMeasure at h
      omega
  | fuel + 1, σ, h => by
      have htest : 0 < (if cont then nTokens else 1) := by
        split
        · exact hpos
        · exact Nat.one_pos
      have hle : (if cont then nTokens else 1) ≤ cells.size := by
        split
        · exact hfits
        · exact Nat.le_trans hpos hfits
      obtain ⟨nTest, hnTest⟩ : ∃ n, n = if cont then nTokens else 1 := ⟨_, rfl⟩
      unfold SearchEnds
      rw [← hnTest] at h htest hle ⊢
      dsimp only
      split
      · rename_i hwrap
        refine searchEnds_of_measure hpos hfits ?_
        rw [← hnTest]
        exact Nat.le_of_lt_succ (Nat.lt_of_lt_of_le (searchMeasure_wrap hle hwrap) h)
      · split
        · trivial
        · split
          · trivial
          · rename_i hmore
            have hlt := @testCells_nTested_lt c cells cont nTest htest σ
            refine searchEnds_of_measure hpos hfits ?_
            rw [← hnTest]
            refine Nat.le_of_lt_succ (Nat.lt_of_lt_of_le (searchMeasure_test ?_ ?_) h)
            · split <;> exact hlt
            · split <;> exact Nat.not_le.mp hmore

/-! ## Single cells -/

/-- The usable cells among those that were seen are taken, and they are too few. -/
structure Taken (c : KvConfig) (cells : KvCells) (start nTokens : Nat) (σ : Search) : Prop where
  inv : SearchInv c cells start σ
  taken : ∀ idx < cells.size, canUse c cells idx = true → Seen cells.size start σ.nTested idx → idx ∈ σ.idxs
  few : σ.idxs.length < nTokens

/-- A search that fails has too few usable cells to choose from. -/
theorem few_of_searchLoop_none : ∀ {fuel : Nat} {σ : Search}, Taken c cells start nTokens σ → σ.nTested < cells.size →
    SearchEnds c cells false nTokens fuel σ → searchLoop c cells false nTokens fuel σ = none →
      (List.range cells.size).countP (canUse c cells) < nTokens
  | 0, _, _, _, hends, _ => hends.elim
  | fuel + 1, σ, h, htested, hends, hrun => by
      simp only [searchLoop, SearchEnds, Bool.false_eq_true, if_false] at hrun hends
      split at hrun
      · rename_i hend
        rw [if_pos hend] at hends
        have hzero : cells.size - σ.headCur = 0 := by
          omega
        refine few_of_searchLoop_none ⟨h.inv.wrap hend htested, ?_, h.few⟩ ?_ hends hrun
        · rw [hzero]
          exact h.taken
        · dsimp only
          omega
      · rename_i hend
        rw [if_neg hend] at hends
        have hinv := h.inv.test hend htested
        have hhead := h.inv.head
        -- the cell at the head is the only one that is seen for the first time
        have hnew (idx : Nat) (hidx : idx < cells.size) (hseen : Seen cells.size start (σ.nTested + 1) idx) :
            idx = σ.headCur ∨ Seen cells.size start σ.nTested idx := by
          unfold Seen at hseen ⊢
          omega
        have htaken : ∀ idx < cells.size, canUse c cells idx = true →
            Seen cells.size start (testCells c cells false 1 σ).nTested idx → idx ∈ (testCells c cells false 1 σ).idxs := by
          intro idx hidx huse hseen
          simp only [testCells, Bool.false_eq_true, if_false] at hseen ⊢
          split
          · rename_i hcan
            rw [if_pos hcan] at hseen
            rcases hnew idx hidx hseen with rfl | hold
            · exact mem_append_right _ (mem_singleton_self _)
            · exact mem_append_left _ (h.taken idx hidx huse hold)
          · rename_i hcan
            rw [if_neg hcan] at hseen
            rcases hnew idx hidx hseen with rfl | hold
            · exact absurd huse hcan
            · exact h.taken idx hidx huse hold
        have hlength : (testCells c cells false 1 σ).idxs.length ≤ σ.idxs.length + 1 := by
          simp only [testCells, Bool.false_eq_true, if_false]
          split
          · simp
          · exact Nat.le_succ _
        split at hrun
        · exact absurd hrun (Option.some_ne_none _)
        · rename_i hne
          rw [if_neg hne] at hends
          have hfew : (testCells c cells false 1 σ).idxs.length < nTokens := by
            have := h.few
            omega
          split at hrun
          · rename_i hall
            -- every cell was seen
            refine Nat.lt_of_le_of_lt ?_ hfew
            rw [countP_eq_length_filter]
            refine (subperm_of_subset (nodup_range.filter _) fun idx hidx => ?_).length_le
            obtain ⟨hidx, huse⟩ := mem_filter.mp hidx
            have hlt := mem_range.mp hidx
            refine htaken idx hlt huse ?_
            unfold Seen
            omega
          · rename_i hmore
            rw [if_neg hmore] at hends
            exact few_of_searchLoop_none ⟨hinv, htaken, hfew⟩ (Nat.not_le.mp hmore) hends hrun

/-! ## A run of cells -/

/-- From cell `r` on there are enough usable cells in a row. -/
def RunAt (c : KvConfig) (cells : KvCells) (nTokens r : Nat) : Prop :=
  r + nTokens ≤ cells.size ∧ ∀ i < nTokens, canUse c cells (r + i) = true

/-- A contiguous test takes all its cells, or stops behind the first that cannot be used. -/
theorem testCells_cont (n : Nat) (σ : Search) :
    (∃ j < n, canUse c cells (σ.headCur + j) = false ∧
      testCells c cells true n σ = ⟨σ.headCur + j + 1, σ.nTested + j + 1, σ.idxs ++ List.range' σ.headCur j⟩) ∨
    ((∀ i < n, canUse c cells (σ.headCur + i) = true) ∧
      testCells c cells true n σ = ⟨σ.headCur + n, σ.nTested + n, σ.idxs ++ List.range' σ.headCur n⟩) := by
  induction n generalizing σ with
  | zero =>
    refine .inr ⟨nofun, ?_⟩
    rw [range'_zero, append_nil]
    rfl
  | succ n ih =>
    unfold testCells
    dsimp only
    cases huse : canUse c cells σ.headCur with
    | false =>
      refine .inl ⟨0, Nat.succ_pos n, huse, ?_⟩
      rw [range'_zero, append_nil]
      rfl
    | true =>
      have hrange (k : Nat) : σ.idxs ++ [σ.headCur] ++ List.range' (σ.headCur + 1) k = σ.idxs ++ List.range' σ.headCur (k + 1) := by
        rw [append_assoc]
        rfl
      rw [if_pos rfl]
      rcases ih ⟨σ.headCur + 1, σ.nTested + 1, σ.idxs ++ [σ.headCur]⟩ with ⟨j, hj, hnot, heq⟩ | ⟨hall, heq⟩
      · refine .inl ⟨j + 1, Nat.succ_lt_succ hj, ?_, ?_⟩
        · rw [Nat.add_comm j 1, ← Nat.add_assoc]
          exact hnot
        · rw [heq, ← hrange]
          dsimp only
          congr 1 <;> omega
      · refine .inr ⟨fun i hi => ?_, ?_⟩
        · cases i with
          | zero => exact huse
          | succ i =>
            rw [Nat.add_comm i 1, ← Nat.add_assoc]
            exact hall i (Nat.lt_of_succ_lt_succ hi)
        · rw [heq, ← hrange]
          dsimp only
          congr 1 <;> omega

/-- Where the search for a run has been: behind `start`, at the beginning after it wrapped around, or everywhere. -/
inductive Passed (c : KvConfig) (cells : KvCells) (start nTokens : Nat) (σ : Search) : Prop
  | behind (hhead : σ.headCur = start + σ.nTested) (hnone : ∀ r, start ≤ r → r < σ.headCur → ¬RunAt c cells nTokens r)
  | around (hhead : cells.size + σ.headCur = start + σ.nTested)
      (hnone : ∀ r, start ≤ r ∨ r < σ.headCur → ¬RunAt c cells nTokens r)
  | everywhere (hnone : ∀ r, ¬RunAt c cells nTokens r)

theorem not_runAt_of_late {h r : Nat} (hlate : cells.size < h + nTokens) (hr : h ≤ r) : ¬RunAt c cells nTokens r := by
  rintro ⟨hfits, -⟩
  omega

theorem Passed.wrap (h : Passed c cells start nTokens σ) (hle : σ.headCur ≤ cells.size)
    (hlate : cells.size < σ.headCur + nTokens) :
    Passed c cells start nTokens { σ with headCur := 0, nTested := σ.nTested + (cells.size - σ.headCur) } := by
  cases h with
  | behind hhead hnone =>
    refine .around ?_ fun r hr => ?_
    · dsimp only
      omega
    · have hstart : start ≤ r := hr.resolve_right (Nat.not_lt_zero r)
      rcases Nat.lt_or_ge r σ.headCur with hlt | hge
      · exact hnone r hstart hlt
      · exact not_runAt_of_late hlate hge
  | around hhead hnone =>
    refine .everywhere fun r => ?_
    rcases Nat.lt_or_ge r σ.headCur with hlt | hge
    · exact hnone r (.inr hlt)
    · exact not_runAt_of_late hlate hge
  | everywhere hnone => exact .everywhere hnone

/-- A test that stops behind an unusable cell rules out the runs that start in front of it. -/
theorem Passed.test {σ' : Search} (h : Passed c cells start nTokens σ) {j : Nat} (hj : j < nTokens)
    (hnot : canUse c cells (σ.headCur + j) = false) (hhead' : σ'.headCur = σ.headCur + j + 1)
    (htested' : σ'.nTested = σ.nTested + j + 1) : Passed c cells start nTokens σ' := by
  have hskip (r : Nat) (hlo : σ.headCur ≤ r) (hhi : r < σ'.headCur) : ¬RunAt c cells nTokens r := by
    rintro ⟨-, hall⟩
    have huse := hall (σ.headCur + j - r) (by omega)
    have hidx : r + (σ.headCur + j - r) = σ.headCur + j := by omega
    rw [hidx, hnot] at huse
    nomatch huse
  cases h with
  | behind hhead hnone =>
    refine .behind (by omega) fun r hr hlt => ?_
    rcases Nat.lt_or_ge r σ.headCur with hold | hnew
    · exact hnone r hr hold
    · exact hskip r hnew hlt
  | around hhead hnone =>
    refine .around (by omega) fun r hr => ?_
    rcases hr with hr | hlt
    · exact hnone r (.inl hr)
    · rcases Nat.lt_or_ge r σ.headCur with hold | hnew
      · exact hnone r (.inr hold)
      · exact hskip r hnew hlt
  | everywhere hnone => exact .everywhere hnone

/-- A search that has tested as many cells as there are has been everywhere. -/
theorem Passed.all (h : Passed c cells start nTokens σ) (hle : σ.headCur ≤ cells.size)
    (hpos : 0 < nTokens) (htested : cells.size ≤ σ.nTested) (r : Nat) : ¬RunAt c cells nTokens r := by
  cases h with
  | behind hhead hnone =>
    rcases Nat.lt_or_ge r σ.headCur with hlt | hge
    · exact hnone r (by omega) hlt
    · rintro ⟨hfits, -⟩
      omega
  | around hhead hnone =>
    refine hnone r ?_
    omega
  | everywhere hnone => exact hnone r

/-- The result of a search for a run: a run, or nothing because there is none. -/
def RunFound (c : KvConfig) (cells : KvCells) (nTokens : Nat) : Option (List Nat) → Prop
  | some idxs => ∃ r, RunAt c cells nTokens r ∧ idxs = List.range' r nTokens
  | none => ∀ r, ¬RunAt c cells nTokens r

theorem searchLoop_cont (hpos : 0 < nTokens) : ∀ {fuel : Nat} {σ : Search}, σ.idxs = [] → σ.headCur ≤ cells.size →
    Passed c cells start nTokens σ → SearchEnds c cells true nTokens fuel σ →
      RunFound c cells nTokens (searchLoop c cells true nTokens fuel σ)
  | 0, _, _, _, _, hends => hends.elim
  | fuel + 1, σ, hidxs, hle, hpassed, hends => by
      simp only [searchLoop, SearchEnds, if_true] at hends ⊢
      by_cases hlate : cells.size < σ.headCur + nTokens
      · rw [if_pos hlate] at hends ⊢
        exact searchLoop_cont hpos hidxs (Nat.zero_le _) (hpassed.wrap hle hlate) hends
      · rw [if_neg hlate] at hends ⊢
        rcases @testCells_cont c cells nTokens σ with ⟨j, hj, hnot, heq⟩ | ⟨hall, heq⟩
        · rw [hidxs, List.nil_append] at heq
          rw [heq] at hends ⊢
          dsimp only at hends ⊢
          have hlen : ¬(List.range' σ.headCur j).length = nTokens := by
            rw [length_range']
            omega
          rw [if_neg hlen] at hends ⊢
          have hpassed' : Passed c cells start nTokens ⟨σ.headCur + j + 1, σ.nTested + j + 1, []⟩ :=
            hpassed.test hj hnot rfl rfl
          have hle' : σ.headCur + j + 1 ≤ cells.size := by omega
          by_cases hdone : cells.size ≤ σ.nTested + j + 1
          · rw [if_pos hdone]
            exact hpassed'.all hle' hpos hdone
          · rw [if_neg hdone] at hends ⊢
            exact searchLoop_cont hpos rfl hle' hpassed' hends
        · rw [hidxs, nil_append] at heq
          rw [heq]
          rw [if_pos length_range']
          exact ⟨σ.headCur, ⟨Nat.not_lt.mp hlate, hall⟩, rfl⟩

/-! ## One stream -/

/-- The cell is empty, or its only sequence does not attend to it any more. -/
def Usable (c : KvConfig) (cells : KvCells) (idx : Nat) : Prop :=
  cells.pos idx = -1 ∨ ∃ s, cells.seq idx = {s} ∧ c.isMasked (cells.pos idx) (cells.seqPosMax s + 1) = true

theorem canUse_iff {idx : Nat} : canUse c cells idx = true ↔ Usable c cells idx := by
  constructor
  · intro h
    cases hempty : cells.isEmpty idx with
    | true => exact .inl (of_decide_eq_true hempty)
    | false => exact .inr (singleton_of_canUse h hempty)
  · rintro (hempty | ⟨s, hs, hmasked⟩)
    · exact canUse_of_isEmpty (decide_eq_true hempty)
    · have hcount : cells.seqCount idx = 1 := by
        unfold KvCells.seqCount
        rw [hs, Finset.card_singleton]
      simp [canUse, hcount, seqGet_of_singleton hs, hmasked]

/-- There are as many usable cells as asked for, for a contiguous search in a row. -/
def CanFit (c : KvConfig) (cells : KvCells) (nTokens : Nat) : Bool → Prop
  | true => ∃ r, r + nTokens ≤ cells.size ∧ ∀ i < nTokens, Usable c cells (r + i)
  | false => ∃ idxs : Finset Nat, nTokens ≤ idxs.card ∧ ∀ idx ∈ idxs, idx < cells.size ∧ Usable c cells idx

/-- What the cells of a slot promise. -/
structure Found (c : KvConfig) (cells : KvCells) (nTokens : Nat) (cont : Bool) (idxs : List Nat) : Prop where
  length : idxs.length = nTokens
  nodup : idxs.Nodup
  usable : ∀ idx ∈ idxs, idx < cells.size ∧ Usable c cells idx
  run : cont = true → ∃ r, idxs = List.range' r nTokens

theorem Found.canFit {idxs : List Nat} (hpos : 0 < nTokens) (h : Found c cells nTokens cont idxs) : CanFit c cells nTokens cont := by
  cases cont with
  | false =>
    refine ⟨idxs.toFinset, ?_, fun idx hidx => h.usable idx (List.mem_toFinset.mp hidx)⟩
    rw [toFinset_card_of_nodup h.nodup, h.length]
  | true =>
    obtain ⟨r, hr⟩ := h.run rfl
    have husable (i : Nat) (hi : i < nTokens) : r + i < cells.size ∧ Usable c cells (r + i) := by
      refine h.usable (r + i) ?_
      rw [hr, mem_range'_1]
      omega
    refine ⟨r, ?_, fun i hi => (husable i hi).2⟩
    have := (husable (nTokens - 1) (Nat.sub_one_lt_of_lt hpos)).1
    omega

/-- There is no room in a stream that is too small. -/
theorem CanFit.le_size (h : CanFit c cells nTokens cont) : nTokens ≤ cells.size := by
  cases cont with
  | true =>
    obtain ⟨r, hr, -⟩ := h
    omega
  | false =>
    obtain ⟨idxs, hcard, hidxs⟩ := h
    have hsub : idxs ⊆ Finset.range cells.size := fun idx hidx => Finset.mem_range.mpr (hidxs idx hidx).1
    have hle := Finset.card_le_card hsub
    rw [Finset.card_range] at hle
    omega

variable {kv : KvCache} {t : Nat} {ps : List Int}

def searchStart (kv : KvCache) (t nTokens : Nat) : Search :=
  ⟨if (kv.vCells t).getUsed + 2 * nTokens < kv.vHeads t then 0 else kv.vHeads t, 0, []⟩

theorem searchStart_le (hhead : kv.vHeads t ≤ (kv.vCells t).size) :
    (searchStart kv t nTokens).headCur ≤ (kv.vCells t).size := by
  unfold searchStart
  split
  · exact Nat.zero_le _
  · exact hhead

theorem searchStart_ends (hpos : 0 < nTokens) (hfits : nTokens ≤ (kv.vCells t).size) :
    SearchEnds c (kv.vCells t) cont nTokens (2 * (kv.vCells t).size + 2) (searchStart kv t nTokens) := by
  refine searchEnds_of_measure hpos hfits ?_
  have hflag := ite_one_le ((kv.vCells t).size < (searchStart kv t nTokens).headCur + if cont then nTokens else 1)
  have hzero : (searchStart kv t nTokens).nTested = 0 := rfl
  unfold searchMeasure
  rw [hzero]
  omega

theorem streamSlot_eq (hmsa : c.msaStrictSlots = false) (hfits : ps.length ≤ (kv.vCells t).size) :
    kv.streamSlot c t cont ps =
      searchLoop c (kv.vCells t) cont ps.length (2 * (kv.vCells t).size + 2) (searchStart kv t ps.length) := by
  unfold streamSlot
  rw [if_neg (Nat.not_lt.mpr hfits), hmsa]
  rfl

theorem streamSlot_found (hmsa : c.msaStrictSlots = false) (hhead : kv.vHeads t ≤ (kv.vCells t).size) (hps : 0 < ps.length)
    {idxs : List Nat} (h : kv.streamSlot c t cont ps = some idxs) : Found c (kv.vCells t) ps.length cont idxs := by
  cases cont with
  | false =>
    have hoffers := streamSlot_offers hhead (length_pos_iff.mp hps) h
    exact ⟨hoffers.length, hoffers.nodup, fun idx hidx => (hoffers.usable idx hidx).imp_right canUse_iff.mp, nofun⟩
  | true =>
    have hfits : ps.length ≤ (kv.vCells t).size := by
      by_contra hsmall
      unfold streamSlot at h
      rw [if_pos (Nat.not_le.mp hsmall)] at h
      nomatch h
    have hrun := searchLoop_cont hps rfl (searchStart_le hhead) (.behind rfl fun r hlo hhi => absurd hhi (Nat.not_lt.mpr hlo))
      (@searchStart_ends c true ps.length kv t hps hfits)
    rw [← streamSlot_eq hmsa hfits, h] at hrun
    obtain ⟨r, ⟨hr, hall⟩, rfl⟩ := hrun
    refine ⟨length_range', nodup_range', fun idx hidx => ?_, fun _ => ⟨r, rfl⟩⟩
    obtain ⟨hlo, hhi⟩ := mem_range'_1.mp hidx
    refine ⟨by omega, canUse_iff.mp ?_⟩
    have huse := hall (idx - r) (by omega)
    rwa [Nat.add_sub_cancel' hlo] at huse

/-- The search of a stream returns cells exactly if they fit. -/
theorem streamSlot_iff (hmsa : c.msaStrictSlots = false) (hhead : kv.vHeads t ≤ (kv.vCells t).size) (hps : 0 < ps.length) :
    (∃ idxs, kv.streamSlot c t cont ps = some idxs) ↔ CanFit c (kv.vCells t) ps.length cont := by
  constructor
  · rintro ⟨idxs, h⟩
    exact (streamSlot_found hmsa hhead hps h).canFit hps
  · intro hfit
    have hfits := hfit.le_size
    have hends := @searchStart_ends c cont ps.length kv t hps hfits
    rw [streamSlot_eq hmsa hfits]
    by_contra hnone
    have hnone := Option.eq_none_iff_forall_ne_some.mpr fun idxs h => hnone ⟨idxs, h⟩
    cases cont with
    | false =>
      obtain ⟨idxs, hcard, hidxs⟩ := hfit
      have hstart : Taken c (kv.vCells t) (searchStart kv t ps.length).headCur ps.length (searchStart kv t ps.length) := by
        refine ⟨⟨searchStart_le hhead, .inl rfl, searchStart_le hhead, nodup_nil, nofun⟩, fun idx hidx _ hseen => ?_, hps⟩
        have hzero : (searchStart kv t ps.length).nTested = 0 := rfl
        have hle := @searchStart_le ps.length kv t hhead
        unfold Seen at hseen
        omega
      have hfew := few_of_searchLoop_none hstart (Nat.lt_of_lt_of_le hps hfits) hends hnone
      have hsub : idxs ⊆ ((List.range (kv.vCells t).size).filter (canUse c (kv.vCells t))).toFinset := fun idx hidx =>
        List.mem_toFinset.mpr (mem_filter.mpr
          ⟨mem_range.mpr (hidxs idx hidx).1, canUse_iff.mpr (hidxs idx hidx).2⟩)
      have hle := (Finset.card_le_card hsub).trans (toFinset_card_le _)
      rw [← countP_eq_length_filter] at hle
      omega
    | true =>
      obtain ⟨r, hr, hall⟩ := hfit
      have hrun := searchLoop_cont hps rfl (searchStart_le hhead)
        (.behind rfl fun r hlo hhi => absurd hhi (Nat.not_lt.mpr hlo)) hends
      rw [hnone] at hrun
      exact hrun r ⟨hr, fun i hi => canUse_iff.mpr (hall i hi)⟩

/-! ## All streams -/

variable {ubatch : LlamaUbatch}

/-- The groups have the sequence that the ubatch names for them. -/
def GroupsOk (c : KvConfig) (ubatch : LlamaUbatch) : Prop :=
  1 < c.nStream → ubatch.nSeqsUnq ∣ ubatch.nTokens ∧
    ∀ g < nSeqs c ubatch, ubatch.seqId (g * tokensPerStream c ubatch) = [ubatch.seqIdUnq.getD g 0]

/-- The loop over the groups returns a slot for all of them, or the empty one. -/
theorem findStreams_cases (hmsa : c.msaStrictSlots = false) (hpos : 0 < tokensPerStream c ubatch) :
    ∀ {gs : List Nat} {res : SlotInfo},
    (∀ g ∈ gs, kv.vHeads (groupStrm c ubatch g) ≤ (kv.vCells (groupStrm c ubatch g)).size) →
    (∀ g ∈ gs, 1 < c.nStream → ubatch.seqId (g * tokensPerStream c ubatch) = [ubatch.seqIdUnq.getD g 0]) →
      (kv.findStreams c ubatch cont gs res = some .none ∧
        ∃ g ∈ gs, ¬CanFit c (kv.vCells (groupStrm c ubatch g)) (tokensPerStream c ubatch) cont) ∨
      ((∃ sinfo, kv.findStreams c ubatch cont gs res = some sinfo ∧ sinfo.idxs.length = res.idxs.length + gs.length) ∧
        ∀ g ∈ gs, CanFit c (kv.vCells (groupStrm c ubatch g)) (tokensPerStream c ubatch) cont) := by
  intro gs res hhead hgroups
  induction gs generalizing res with
  | nil => exact .inr ⟨⟨res, rfl, rfl⟩, by simp⟩
  | cons g gs ih =>
    have hlen := groupPos_length c ubatch g
    have hiff := @streamSlot_iff c cont kv (groupStrm c ubatch g) (groupPos c ubatch g) hmsa (hhead g mem_cons_self)
      (hlen ▸ hpos)
    rw [hlen] at hiff
    have hassert : ¬(1 < c.nStream ∧ ubatch.seqId (g * tokensPerStream c ubatch) ≠ [ubatch.seqIdUnq.getD g 0]) :=
      fun h => h.2 (hgroups g mem_cons_self h.1)
    simp only [findStreams]
    rw [if_neg hassert]
    cases hslot : kv.streamSlot c (groupStrm c ubatch g) cont (groupPos c ubatch g) with
    | none =>
      have hnot : ¬CanFit c (kv.vCells (groupStrm c ubatch g)) (tokensPerStream c ubatch) cont := fun hfit => by
        obtain ⟨idxs, hidxs⟩ := hiff.mpr hfit
        cases hslot.symm.trans hidxs
      rw [groupStrm] at hslot
      rw [hslot]
      exact .inl ⟨rfl, g, mem_cons_self, hnot⟩
    | some idxs =>
      have hfit := hiff.mp ⟨idxs, hslot⟩
      have hpush : (res.push (c.seqToStream (ubatch.seqIdUnq.getD g 0)) idxs).idxs.length = res.idxs.length + 1 := length_append
      have hslot' := hslot
      rw [groupStrm] at hslot'
      rw [hslot']
      rcases @ih (res.push (c.seqToStream (ubatch.seqIdUnq.getD g 0)) idxs) (fun g' hg' => hhead g' (mem_cons_of_mem g hg'))
        (fun g' hg' => hgroups g' (mem_cons_of_mem g hg')) with ⟨hnone, g', hg', hnot⟩ | ⟨⟨sinfo, hrun, hlength⟩, hall⟩
      · exact .inl ⟨hnone, g', mem_cons_of_mem g hg', hnot⟩
      · refine .inr ⟨⟨sinfo, hrun, ?_⟩, fun g' hg' => ?_⟩
        · rw [hlength, hpush, length_cons]
          omega
        · rcases mem_cons.mp hg' with rfl | hg'
          · exact hfit
          · exact hall g' hg'

/-- `find_slot` outside MSA.  The search of every stream that is large enough ends; a slot is returned exactly if the tokens
of every group fit in its stream; and the cells of a slot are distinct, usable and as many as the tokens. -/
theorem findSlot_iff (hmsa : c.msaStrictSlots = false)
    (hhead : ∀ g < nSeqs c ubatch, kv.vHeads (groupStrm c ubatch g) ≤ (kv.vCells (groupStrm c ubatch g)).size)
    (hpos : 0 < tokensPerStream c ubatch) (hgroups : GroupsOk c ubatch) (cont : Bool) :
    (∀ t, tokensPerStream c ubatch ≤ (kv.vCells t).size →
      SearchEnds c (kv.vCells t) cont (tokensPerStream c ubatch) (2 * (kv.vCells t).size + 2)
        (searchStart kv t (tokensPerStream c ubatch))) ∧
      ∃ sinfo, kv.findSlot c ubatch cont = some sinfo ∧
        (sinfo.isEmpty = false ↔
          ∀ g < nSeqs c ubatch, CanFit c (kv.vCells (groupStrm c ubatch g)) (tokensPerStream c ubatch) cont) ∧
        (sinfo.isEmpty = false →
          sinfo.strm = (List.range (nSeqs c ubatch)).map (groupStrm c ubatch) ∧ sinfo.idxs.length = nSeqs c ubatch ∧
            ∀ g < nSeqs c ubatch,
              Found c (kv.vCells (groupStrm c ubatch g)) (tokensPerStream c ubatch) cont (sinfo.idxs.getD g [])) := by
  refine ⟨fun t hfits => searchStart_ends hpos hfits, ?_⟩
  have hseqs : 0 < nSeqs c ubatch := by
    rcases Nat.eq_zero_or_pos (nSeqs c ubatch) with hzero | hpos'
    · unfold tokensPerStream at hpos
      rw [hzero, Nat.div_zero] at hpos
      exact absurd hpos (Nat.lt_irrefl 0)
    · exact hpos'
  have hassert : ¬(1 < c.nStream ∧ ubatch.nTokens % ubatch.nSeqsUnq ≠ 0) :=
    fun h => h.2 (Nat.mod_eq_zero_of_dvd (hgroups h.1).1)
  have hrun : kv.findSlot c ubatch cont =
      kv.findStreams c ubatch cont (List.range (nSeqs c ubatch)) ⟨llamaMaxSeq, 0, [], []⟩ := if_neg hassert
  have hfound {sinfo : SlotInfo} (h : kv.findSlot c ubatch cont = some sinfo) (hne : sinfo.isEmpty = false) :
      sinfo.strm = (List.range (nSeqs c ubatch)).map (groupStrm c ubatch) ∧ sinfo.idxs.length = nSeqs c ubatch ∧
        ∀ g < nSeqs c ubatch,
          Found c (kv.vCells (groupStrm c ubatch g)) (tokensPerStream c ubatch) cont (sinfo.idxs.getD g []) := by
    obtain ⟨hall, hstrm⟩ := findSlot_spec h hne
    have hlength := hall.length_eq
    rw [length_range] at hlength
    refine ⟨hstrm, hlength.symm, fun g hg => ?_⟩
    have hg' : g < sinfo.idxs.length := hlength ▸ hg
    have hslot := (forall₂_iff_get.mp hall).2 g (by simpa using hg) hg'
    rw [getD_eq_getElem _ _ hg', ← groupPos_length c ubatch g]
    exact streamSlot_found hmsa (hhead g hg) (groupPos_length c ubatch g ▸ hpos) (by simpa using hslot)
  rcases @findStreams_cases c cont kv ubatch hmsa hpos (List.range (nSeqs c ubatch)) ⟨llamaMaxSeq, 0, [], []⟩
    (fun g hg => hhead g (mem_range.mp hg)) (fun g hg hn => (hgroups hn).2 g (mem_range.mp hg)) with ⟨hnone, g, hg, hnot⟩ | ⟨⟨sinfo, hsome, hlength⟩, hall⟩
  · rw [← hrun] at hnone
    refine ⟨.none, hnone, iff_of_false (fun h => nomatch h) fun h => hnot (h g (mem_range.mp hg)), hfound hnone⟩
  · rw [← hrun] at hsome
    have hne : sinfo.isEmpty = false := by
      rw [length_range] at hlength
      unfold SlotInfo.isEmpty
      refine isEmpty_eq_false_iff.mpr (ne_nil_of_length_pos ?_)
      rw [hlength]
      exact Nat.lt_of_lt_of_le hseqs (Nat.le_add_left _ _)
    exact ⟨sinfo, hsome, iff_of_true hne fun g hg => hall g (mem_range.mpr hg), hfound hsome⟩

/-- A slot for two tokens in an empty cache of three cells. -/
def threeCells : KvConfig where
  nSeqMax := 1
  nStream := 1
  kvSize := 3
  nSwa := 0
  swaType := .none
  msaStrictSlots := false
  nPosPerEmbd := 1
  pleNHeads := 0
  pleImageTokenId := 0
  pleEosTokenId := 0
  canShift := true
  shared := false

theorem findSlot_iff_threeCells : ∃ sinfo, (init threeCells).findSlot threeCells (textUbatch [(0, 0), (0, 1)]) true = some sinfo ∧
    sinfo.isEmpty = false := by
  obtain ⟨-, sinfo, hrun, hiff, -⟩ := @findSlot_iff threeCells (init threeCells) (textUbatch [(0, 0), (0, 1)]) rfl
    (fun _ _ => Nat.zero_le _) (by decide) (fun h => absurd h (by decide)) true
  exact ⟨sinfo, hrun, hiff.mpr fun g _ => ⟨0, show 2 ≤ 3 by decide, fun i _ => .inl rfl⟩⟩

end LlamaCpp.KvCache
