import Mathlib.Data.Int.ConditionallyCompleteOrder
import Mathlib.Data.Int.SuccPred
import LlamaCpp.Kv.CacheRuns
import LlamaCpp.Lib.Intervals

/-!
# No holes

The purge of `apply_ubatch` is there to keep the cached positions of every sequence
without gaps.  A placement takes from a sequence the positions up to the largest one it
overwrites, and adds the positions of its tokens (`mem_positions_applyUbatch`); if the
tokens continue the sequence, what is left is an interval again
(`applyUbatch_gapless`).  The window masks a position together with all smaller ones
(`isMaskedSwa_mono`), so nothing that a next token could attend to is lost.
-/

namespace LlamaCpp

open List

/-- What is masked stays masked further back. -/
theorem isMaskedSwa_mono {nSwa : Nat} {swaType : LlamaSwaType} {p q p1 : Int} (hpq : p ≤ q)
    (hq : q ≤ p1) (h : isMaskedSwa nSwa swaType q p1 = true) :
    isMaskedSwa nSwa swaType p p1 = true := by
  cases swaType with
  | none => exact h
  | standard | chunked | symmetric =>
    simp only [isMaskedSwa, decide_eq_true_eq] at h ⊢
    omega

namespace KvCache

variable {c : KvConfig} {kv kv' : KvCache} {ubatch : LlamaUbatch} {sinfo : SlotInfo}

/-! ## Positions -/

def positions (c : KvConfig) (kv : KvCache) (s : SeqId) : Set Int :=
  {p | ∃ i < c.kvSize, s ∈ (kv.cell (c.seqToStream s) i).seq ∧
    (kv.cell (c.seqToStream s) i).pos = p}

def tokenPositions (ubatch : LlamaUbatch) (s : SeqId) : Set Int :=
  {p | ∃ i < ubatch.nTokens, s ∈ ubatch.seqId i ∧ ubatch.pos i = p}

/-- The cached positions of a sequence form an interval. -/
def Gapless (c : KvConfig) (kv : KvCache) (s : SeqId) : Prop := (positions c kv s).OrdConnected

/-- The tokens of `s` have consecutive positions, the first right behind the cached
ones. -/
structure Continues (c : KvConfig) (kv : KvCache) (ubatch : LlamaUbatch) (s : SeqId) : Prop where
  interval : (tokenPositions ubatch s).OrdConnected
  next : (positions c kv s).Nonempty → (tokenPositions ubatch s).Nonempty →
    IsLeast (tokenPositions ubatch s) (kv.seqPosMax c s + 1)

theorem positions_nonneg (hinv : kv.Inv c) {s : SeqId} {p : Int} (hp : p ∈ positions c kv s) : 0 ≤ p := by
  obtain ⟨i, hi, hs, rfl⟩ := hp
  have hi : i < (kv.vCells (c.seqToStream s)).size := hinv.size _ ▸ hi
  exact (hinv.rep _).pos_nonneg hi ((hinv.rep _).pos_ne_of_mem hi hs)

/-- `seq_pos_max` is the greatest cached position. -/
theorem isGreatest_seqPosMax (hinv : kv.Inv c) {s : SeqId} (hne : (positions c kv s).Nonempty) :
    IsGreatest (positions c kv s) (kv.seqPosMax c s) := by
  have hup : kv.seqPosMax c s ∈ upperBounds (positions c kv s) := by
    rintro p ⟨i, hi, hs, rfl⟩
    exact ((hinv.rep _).pos_mem_Icc (hinv.size _ ▸ hi) hs).2
  refine ⟨?_, hup⟩
  obtain ⟨p, hp⟩ := hne
  have hmax : kv.seqPosMax c s ≠ -1 := by
    have := hup hp
    have := positions_nonneg hinv hp
    omega
  obtain ⟨i, hi, hs, heq⟩ := (hinv.rep (c.seqToStream s)).seqPosMax_attained hmax
  exact ⟨i, hinv.size _ ▸ hi, hs, heq⟩

/-! ## What a placement does to the positions -/

section Placed

variable {m : SeqId → Int} (hinv : kv.Inv c) (hu : UbatchOk c ubatch)
  (hslot : Slot c kv ubatch sinfo) (hplaced : Placed c kv ubatch sinfo m kv') {p : Int} {s : SeqId}

include hinv hu hslot hplaced

omit hplaced in
/-- The cell of a token holds the sequences of the token. -/
theorem placedCell_seq {τ : Target} (hτ : τ ∈ sinfo.targets) :
    (placedCell c ubatch τ.i (kv.cell τ.strm τ.idx)).seq = (ubatch.seqId τ.i).toFinset := by
  have hi : τ.idx < (kv.vCells τ.strm).size :=
    hinv.size _ ▸ (hslot.targetOk hu hinv hτ).idx_lt
  have hempty : (kv.cell τ.strm τ.idx).evicted.seq = ∅ := by
    unfold KvCell.evicted
    split
    · rename_i hp
      exact (hinv.rep τ.strm).seq_empty _ hi hp
    · rfl
  change (kv.cell τ.strm τ.idx).evicted.seq ∪ _ = _
  rw [hempty, Finset.empty_union]

/-- A placement keeps the positions above the largest overwritten one and adds those of
the tokens. -/
theorem mem_positions_placed : p ∈ positions c kv' s ↔
    (p ∈ positions c kv s ∨ p ∈ tokenPositions ubatch s) ∧ m s < p := by
  constructor
  · rintro ⟨i, hi, hs, rfl⟩
    by_cases hkey : (c.seqToStream s, i) ∈ sinfo.targets.map Target.key
    · obtain ⟨τ, hτ, heq⟩ := List.mem_map.mp hkey
      obtain ⟨hstrm, rfl⟩ := Prod.mk.inj heq
      have hcell := hplaced.target τ hτ
      rw [hstrm] at hcell
      rw [hcell] at hs ⊢
      rw [KvCell.purge_pos_of_mem hs]
      rw [KvCell.purge_seq, Finset.mem_filter, ← hstrm, placedCell_seq hinv hu hslot hτ, List.mem_toFinset] at hs
      obtain ⟨g, hg, ii, hii, rfl⟩ := (hslot.mem_targets hu).mp hτ
      exact ⟨.inr ⟨_, hu.index_lt hg hii, hs.1, rfl⟩, hstrm ▸ hs.2⟩
    · rw [hplaced.other _ i hi hkey] at hs ⊢
      rw [KvCell.purge_pos_of_mem hs]
      rw [KvCell.purge_seq, Finset.mem_filter] at hs
      exact ⟨.inl ⟨i, hi, hs.1, rfl⟩, hs.2⟩
  · rintro ⟨⟨i, hi, hs, rfl⟩ | ⟨i, hi, hs, rfl⟩, hm⟩
    · have hkey : (c.seqToStream s, i) ∉ sinfo.targets.map Target.key := by
        intro hkey
        -- the cell would have been overwritten, so its position would be noted
        obtain ⟨τ, hτ, heq⟩ := List.mem_map.mp hkey
        obtain ⟨hstrm, rfl⟩ := Prod.mk.inj heq
        rw [← hstrm] at hs hm
        have hpos : (kv.cell τ.strm τ.idx).pos ≠ -1 := (hinv.rep τ.strm).pos_ne_of_mem
          (hinv.size _ ▸ hi) hs
        obtain ⟨s', hs'⟩ := (hslot.atMostOne hu hτ).resolve_left hpos
        obtain rfl : s = s' := Finset.mem_singleton.mp (hs' ▸ hs)
        have := hplaced.maxRm.le s _ ⟨τ, hτ, rfl, hpos, hs'⟩
        omega
      have hmem : s ∈ (kv'.cell (c.seqToStream s) i).seq := by
        rw [hplaced.other _ i hi hkey, KvCell.purge_seq]
        exact Finset.mem_filter.mpr ⟨hs, hm⟩
      refine ⟨i, hi, hmem, ?_⟩
      rw [hplaced.other _ i hi hkey] at hmem ⊢
      exact KvCell.purge_pos_of_mem hmem
    · obtain ⟨τ, hτ, rfl⟩ := hslot.exists_target hu hi
      have hok := hslot.targetOk hu hinv hτ
      have hmem : s ∈ (kv'.cell τ.strm τ.idx).seq := by
        rw [hplaced.target τ hτ, KvCell.purge_seq, placedCell_seq hinv hu hslot hτ]
        exact Finset.mem_filter.mpr ⟨List.mem_toFinset.mpr hs, hm⟩
      have hpos : (kv'.cell τ.strm τ.idx).pos = ubatch.pos τ.i := by
        rw [hplaced.target τ hτ] at hmem ⊢
        exact KvCell.purge_pos_of_mem hmem
      rw [← hok.owner s hs] at hmem hpos
      exact ⟨τ.idx, hok.idx_lt, hmem, hpos⟩

/-- What is overwritten is cached. -/
theorem maxRm_mem_positions (hs : m s ≠ -1) : m s ∈ positions c kv s := by
  obtain ⟨⟨τ, hτ, hstrm, hp, hseq⟩, -⟩ :=
    hslot.overwrites_masked hu hinv (hplaced.maxRm.attained s hs)
  rw [hstrm] at hp hseq
  exact ⟨τ.idx, (hslot.targetOk hu hinv hτ).idx_lt, hseq ▸ Finset.mem_singleton_self s, hp⟩

/-- If the tokens continue the sequence, they are all kept. -/
theorem tokenPositions_above (hcont : Continues c kv ubatch s) (hp : p ∈ tokenPositions ubatch s) : m s < p := by
  by_cases hs : m s = -1
  · obtain ⟨i, hi, -, rfl⟩ := hp
    have := hu.pos_nonneg i hi
    omega
  · have hmem := maxRm_mem_positions hinv hu hslot hplaced hs
    have hmax := (isGreatest_seqPosMax hinv ⟨_, hmem⟩).2 hmem
    have hleast := (hcont.next ⟨_, hmem⟩ ⟨p, hp⟩).2 hp
    omega

theorem positions_placed (hcont : Continues c kv ubatch s) :
    positions c kv' s = {p ∈ positions c kv s | m s < p} ∪ tokenPositions ubatch s := by
  ext p
  rw [mem_positions_placed hinv hu hslot hplaced, Set.mem_union, Set.mem_sep_iff]
  constructor
  · rintro ⟨hp | hp, hm⟩
    · exact .inl ⟨hp, hm⟩
    · exact .inr hp
  · rintro (⟨hp, hm⟩ | hp)
    · exact ⟨.inl hp, hm⟩
    · exact ⟨.inr hp, tokenPositions_above hinv hu hslot hplaced hcont hp⟩

theorem gapless_placed (hgap : Gapless c kv s) (hcont : Continues c kv ubatch s) : Gapless c kv' s := by
  unfold Gapless
  rw [positions_placed hinv hu hslot hplaced hcont]
  refine Intervals.ordConnected_slide hgap hcont.interval (m s) fun p hp hne => ?_
  exact ⟨_, _, isGreatest_seqPosMax hinv ⟨p, hp⟩, hcont.next ⟨p, hp⟩ hne, Order.covBy_add_one _⟩

/-- What a placement removes is masked for the next token. -/
theorem masked_of_removed (hp : p ∈ positions c kv s) (hno : p ∉ positions c kv' s) :
    c.isMasked p (kv.seqPosMax c s + 1) = true := by
  have hle : p ≤ m s := by
    by_contra hlt
    exact hno ((mem_positions_placed hinv hu hslot hplaced).mpr ⟨.inl hp, by omega⟩)
  have hs : m s ≠ -1 := by
    have := positions_nonneg hinv hp
    omega
  have hmem := maxRm_mem_positions hinv hu hslot hplaced hs
  have hmax := (isGreatest_seqPosMax hinv ⟨p, hp⟩).2 hmem
  exact isMaskedSwa_mono hle (by omega)
    (hslot.overwrites_masked hu hinv (hplaced.maxRm.attained s hs)).2.2

end Placed

/-! ## No holes -/

/-- A ubatch that continues sequences without gaps is placed, leaves no gap in any
sequence, and removes only what is masked for the next token of its sequence. -/
theorem applyUbatch_gapless (hinv : kv.Inv c) (hu : UbatchOk c ubatch)
    (hgap : ∀ s, Gapless c kv s) (hcont : ∀ s, Continues c kv ubatch s)
    (hfind : kv.findSlot c ubatch false = some sinfo) (hne : sinfo.isEmpty = false) :
    ∃ kv', kv.applyUbatch c sinfo ubatch = some kv' ∧ (∀ s, Gapless c kv' s) ∧
      ∀ s, ∀ p ∈ positions c kv s, p ∉ positions c kv' s →
        c.isMasked p (kv.seqPosMax c s + 1) = true := by
  have hslot := slot_of_findSlot hinv hu hfind hne
  cases hsh : c.shared with
  | true =>
    -- the cells belong to another cache and are left alone
    refine ⟨kv, ?_, hgap, fun s p hp hno => absurd hp hno⟩
    unfold applyUbatch
    exact if_pos hsh
  | false =>
    obtain ⟨kv', m, hrun, hplaced⟩ := applyUbatch_spec hinv hu hslot hsh
    exact ⟨kv', hrun, fun s => gapless_placed hinv hu hslot hplaced (hgap s) (hcont s),
      fun s p hp hno => masked_of_removed hinv hu hslot hplaced hp hno⟩

/-- The positions of the tokens, read off a list of tokens. -/
theorem tokenPositions_textUbatch (tokens : List (SeqId × Int)) (s : SeqId) :
    tokenPositions (textUbatch tokens) s = {p | (s, p) ∈ tokens} := by
  ext p
  constructor
  · rintro ⟨i, hi, hs, rfl⟩
    have hi : i < tokens.length := hi
    have hget : tokens.getD i (0, 0) = tokens[i] := getD_eq_getElem _ _ hi
    have hs : s = (tokens.getD i (0, 0)).1 := mem_singleton.mp hs
    change (s, (tokens.getD i (0, 0)).2) ∈ tokens
    rw [hs, hget]
    exact getElem_mem hi
  · intro hp
    obtain ⟨i, hi, heq⟩ := mem_iff_getElem.mp hp
    have hget : tokens.getD i (0, 0) = (s, p) := (getD_eq_getElem _ _ hi).trans heq
    exact ⟨i, hi, mem_singleton.mpr (by rw [hget]), by simp only [textUbatch, hget]⟩

/-- A full cache with a window of one: the next token overwrites position `0`. -/
theorem applyUbatch_gapless_window : ∃ kv kv',
    (init (unifiedConfig 2 .standard)).applyUbatch (unifiedConfig 2 .standard)
      ⟨0, 0, [0], [[0, 1]]⟩ (textUbatch [(0, 0), (0, 1)]) = some kv ∧
    kv.applyUbatch (unifiedConfig 2 .standard) ⟨0, 0, [0], [[0]]⟩ (textUbatch [(0, 2)]) = some kv' ∧
    ∀ s, Gapless (unifiedConfig 2 .standard) kv' s := by
  have hu₁ : UbatchOk (unifiedConfig 2 .standard) (textUbatch [(0, 0), (0, 1)]) :=
    textUbatch_ok (by decide) (by decide) (by decide)
  have hu₂ : UbatchOk (unifiedConfig 2 .standard) (textUbatch [(0, 2)]) :=
    textUbatch_ok (by decide) (by decide) (by decide)
  have hnone : ∀ s, positions (unifiedConfig 2 .standard) (init (unifiedConfig 2 .standard)) s = ∅ :=
    fun s => Set.eq_empty_of_forall_notMem fun p ⟨_, _, hs, _⟩ => Finset.notMem_empty s hs
  have hfind₁ : (init (unifiedConfig 2 .standard)).findSlot (unifiedConfig 2 .standard)
      (textUbatch [(0, 0), (0, 1)]) false = some ⟨0, 0, [0], [[0, 1]]⟩ := by decide +kernel
  obtain ⟨kv, hrun, hgap, -⟩ := applyUbatch_gapless inv_init hu₁
    (fun s => by
      unfold Gapless
      rw [hnone s]
      exact Set.ordConnected_empty)
    (fun s => ⟨by
      rw [tokenPositions_textUbatch]
      refine ⟨fun p hp q hq z hz => ?_⟩
      simp only [mem_cons, Prod.mk.injEq, not_mem_nil, or_false, Set.mem_ofPred_eq,
        Set.mem_Icc] at hp hq hz ⊢
      rcases hp with ⟨rfl, rfl⟩ | ⟨rfl, rfl⟩ <;> rcases hq with ⟨-, rfl⟩ | ⟨-, rfl⟩ <;>
        simp only [true_and] <;> omega, fun hne => absurd hne (by rw [hnone s]; exact Set.not_nonempty_empty)⟩) hfind₁ rfl
  have hnext : (((init (unifiedConfig 2 .standard)).applyUbatch (unifiedConfig 2 .standard)
      ⟨0, 0, [0], [[0, 1]]⟩ (textUbatch [(0, 0), (0, 1)])).bind fun kv =>
        (kv.findSlot (unifiedConfig 2 .standard) (textUbatch [(0, 2)]) false).map fun sinfo =>
          (sinfo, kv.seqPosMax (unifiedConfig 2 .standard) 0)) = some (⟨0, 0, [0], [[0]]⟩, 1) := by
    decide +kernel
  rw [hrun, Option.bind_some] at hnext
  obtain ⟨sinfo, hfind₂, heq⟩ := Option.map_eq_some_iff.mp hnext
  obtain ⟨rfl, hmax⟩ := Prod.mk.inj heq
  have hinv := (frame_applyUbatch inv_init hu₁ (slot_of_findSlot inv_init hu₁ hfind₁ rfl) hrun).inv
  obtain ⟨kv', hrun', hgap', -⟩ := applyUbatch_gapless hinv hu₂ hgap
    (fun s => ⟨by
      rw [tokenPositions_textUbatch]
      refine ⟨fun p hp q hq z hz => ?_⟩
      simp only [mem_singleton, Prod.mk.injEq, Set.mem_ofPred_eq, Set.mem_Icc] at hp hq hz ⊢
      obtain ⟨rfl, rfl⟩ := hp
      exact ⟨rfl, by omega⟩, fun _ ⟨p, hp⟩ => by
        rw [tokenPositions_textUbatch] at hp ⊢
        obtain ⟨rfl, -⟩ := Prod.mk.inj (mem_singleton.mp hp)
        rw [hmax]
        exact ⟨mem_singleton_self _, fun q hq =>
          le_of_eq (Prod.mk.inj (mem_singleton.mp hq)).2.symm⟩⟩) hfind₂ rfl
  exact ⟨kv, kv', hrun, hrun', hgap'⟩

end KvCache

end LlamaCpp
