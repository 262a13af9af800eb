import LlamaCpp.Lib.Checks
import LlamaCpp.Lib.Loops
import LlamaCpp.Moe.ExpertPlacement
import Mathlib

/-!
# The tables of a placement are a partition

The loader checks that the order of a layer is a bijection and that the counts of its members
are positive and add up (`ValidLayer`).  The counts are then a composition of the number of
experts, and a member owns the positions of its block.

The tables, the audit and the view of the owners each compute the blocks on their own.  All
of them give the expert at position `k` to the member of the block of `k`, so the audit
passes and the tables are a partition (`createTables_partition`).  Positions are counted in
32 bits: the number of experts has to be less than `2 ^ 31`.
-/

namespace LlamaCpp

open List Option

open Checks (bind_eq_ok mapM_eq_ok pure_eq_ok mapError_eq_ok)
open Scatter (scatter_getElem?_mem scatter_getElem?_other scatter_length scatter_map scatter_congr)

namespace ExpertPlacement

/-! ## What the loader accepts -/

/-- The order of a layer is a bijection, and the counts of its members add up. -/
structure ValidLayer (nExpert nMembers : Nat) (perm cnt : List Int) : Prop where
  permLength : perm.length = nExpert
  permRange : ∀ e ∈ perm, 0 ≤ e ∧ e < nExpert
  permNodup : perm.Nodup
  cntLength : cnt.length = nMembers
  cntPos : ∀ n ∈ cnt, 0 < n
  cntSum : cnt.sum = nExpert

theorem fail_ne_ok {α : Type} {what : String} {a : α} : fail what ≠ .ok a := fun h => nomatch h

theorem checkPerm_ok {il nExpert : Nat} {perm : List Int} {seen : List Bool}
    (hlen : seen.length = nExpert) (h : checkPerm il nExpert perm seen = .ok ()) :
    (∀ e ∈ perm, 0 ≤ e ∧ e < nExpert ∧ seen.getD e.toNat false = false) ∧ perm.Nodup := by
  induction perm generalizing seen with
  | nil => exact ⟨fun e he => absurd he not_mem_nil, nodup_nil⟩
  | cons e perm ih =>
    rw [checkPerm] at h
    split at h
    · exact absurd h fail_ne_ok
    · next hgood =>
      simp only [not_or, Int.not_lt, Bool.not_eq_true] at hgood
      obtain ⟨h0, hlt, hnew⟩ := hgood
      obtain ⟨hrest, hnodup⟩ := ih (by rw [length_set, hlen]) h
      have hother : ∀ x ∈ perm, x ≠ e ∧ seen.getD x.toNat false = false := by
        intro x hx
        obtain ⟨hx0, hxlt, hseen⟩ := hrest x hx
        have hne : x ≠ e := by
          rintro rfl
          rw [getD_eq_getElem?_getD, getElem?_set_self (by omega)] at hseen
          cases hseen
        have hidx : e.toNat ≠ x.toNat := by omega
        rw [getD_eq_getElem?_getD, getElem?_set_ne hidx] at hseen
        exact ⟨hne, by rw [getD_eq_getElem?_getD]; exact hseen⟩
      refine ⟨fun x hx => ?_, nodup_cons.mpr ⟨fun he => (hother e he).1 rfl, hnodup⟩⟩
      rcases mem_cons.mp hx with rfl | hx
      · exact ⟨h0, by omega, hnew⟩
      · obtain ⟨hx0, hxlt, -⟩ := hrest x hx
        exact ⟨hx0, hxlt, (hother x hx).2⟩

theorem sumCounts_ok {il j : Nat} {cnt : List Int} {start sum : Int}
    (h : sumCounts il cnt j start = .ok sum) : (∀ n ∈ cnt, 0 < n) ∧ sum = start + cnt.sum := by
  induction cnt generalizing j start with
  | nil =>
    obtain rfl := Except.ok.inj h
    exact ⟨fun n hn => absurd hn not_mem_nil, by simp⟩
  | cons n cnt ih =>
    rw [sumCounts] at h
    split at h
    · exact absurd h fail_ne_ok
    · split at h
      · exact absurd h fail_ne_ok
      · obtain ⟨hpos, hsum⟩ := ih h
        refine ⟨fun x hx => ?_, by rw [hsum, sum_cons]; omega⟩
        rcases mem_cons.mp hx with rfl | hx
        · omega
        · exact hpos x hx

theorem loadLayer_ok {nExpert nMembers : Nat}
    {layer : (JsonAccess PlacementEntry × JsonAccess PlacementEntry) × Nat} {perm cnt : List Int}
    (h : loadLayer nExpert nMembers layer = .ok (some (perm, cnt))) :
    ValidLayer nExpert nMembers perm cnt := by
  unfold loadLayer at h
  obtain ⟨jp, -, h⟩ := bind_eq_ok.mp h
  obtain ⟨jc, -, h⟩ := bind_eq_ok.mp h
  split at h
  · exact absurd h fail_ne_ok
  split at h
  · obtain ⟨perm', -, h⟩ := bind_eq_ok.mp h
    split at h
    · exact absurd h fail_ne_ok
    next hplen =>
    obtain ⟨_, hperm, h⟩ := bind_eq_ok.mp h
    obtain ⟨cnt', -, h⟩ := bind_eq_ok.mp h
    split at h
    · exact absurd h fail_ne_ok
    next hclen =>
    obtain ⟨sum, hsum, h⟩ := bind_eq_ok.mp h
    split at h
    · exact absurd h fail_ne_ok
    next htotal =>
    obtain ⟨rfl, rfl⟩ : perm' = perm ∧ cnt' = cnt := by simpa using pure_eq_ok.mp h
    obtain ⟨hrange, hnodup⟩ := checkPerm_ok length_replicate hperm
    obtain ⟨hpos, rfl⟩ := sumCounts_ok hsum
    exact ⟨not_not.mp hplen, fun e he => ⟨(hrange e he).1, (hrange e he).2.1⟩, hnodup,
      not_not.mp hclen, hpos, by simpa using htotal⟩
  · exact absurd (pure_eq_ok.mp h) (by simp)

/-- A loaded placement has the shape of the model, and its placed layers are valid. -/
theorem load_ok {path : String} {file : Option (JsonAccess PlacementJson)}
    {nLayer nExpert nMembers : Nat} {pl : LlamaExpertPlacement}
    (h : llamaExpertPlacementLoad path file nLayer nExpert nMembers = .ok pl) :
    pl.nLayer = nLayer ∧ pl.perm.length = nLayer ∧ ∀ il, pl.layerPlaced il →
      ValidLayer nExpert nMembers (pl.perm.getD il []) (pl.counts.getD il []) := by
  unfold llamaExpertPlacementLoad at h
  split at h
  · cases h
  · cases h
  have h := mapError_eq_ok.mp h
  unfold loadJson at h
  obtain ⟨modelName, -, h⟩ := bind_eq_ok.mp h
  obtain ⟨jLayer, -, h⟩ := bind_eq_ok.mp h
  obtain ⟨jExpert, -, h⟩ := bind_eq_ok.mp h
  split at h
  · exact absurd h fail_ne_ok
  split at h
  · exact absurd h fail_ne_ok
  obtain ⟨memberShares, -, h⟩ := bind_eq_ok.mp h
  obtain ⟨jPerm, -, h⟩ := bind_eq_ok.mp h
  obtain ⟨jCnt, -, h⟩ := bind_eq_ok.mp h
  split at h
  · exact absurd h fail_ne_ok
  next hlen =>
  obtain ⟨layers, hlayers, h⟩ := bind_eq_ok.mp h
  split at h
  · exact absurd h fail_ne_ok
  obtain rfl := pure_eq_ok.mp h
  have hall := mapM_eq_ok.mp hlayers
  have hcount : layers.length = nLayer := by
    rw [← hall.length_eq, length_zipIdx, length_zip]
    omega
  refine ⟨rfl, by rw [length_map, hcount], fun il hplaced => ?_⟩
  simp only [LlamaExpertPlacement.layerPlaced, length_map, Bool.and_eq_true, decide_eq_true_eq] at hplaced
  obtain ⟨hil, hne⟩ := hplaced
  simp only [getD_eq_getElem?_getD, getElem?_map, getElem?_eq_getElem hil, map_some, getD_some] at hne ⊢
  cases hlayer : layers[il] with
  | none =>
    rw [hlayer] at hne
    cases hne
  | some layer =>
    have hone := (forall₂_iff_get.mp hall).2 il (by rw [hall.length_eq]; exact hil) hil
    rw [get_eq_getElem, get_eq_getElem, hlayer] at hone
    exact loadLayer_ok hone

/-! ## The blocks of a layer -/

theorem int32Add_eq {a b : Nat} (hlt : a + b < 2 ^ 31) : int32Add a b = (a + b : Nat) := by
  unfold int32Add
  rw [← Nat.cast_add]
  exact Int.bmod_eq_of_le (by omega) (by omega)

theorem firstPos_succ {cnt : List Int} {j : Nat} (hj : j < cnt.length) :
    firstPos cnt (j + 1) = int32Add (firstPos cnt j) (cnt.getD j 0) := by
  unfold firstPos
  rw [take_add_one, getElem?_eq_getElem hj, toList_some, foldl_append,
    foldl_cons, foldl_nil, getD_eq_getElem?_getD, getElem?_eq_getElem hj,
    getD_some]

theorem positions_natCast (a b : Nat) : positions a b = List.range' a (b - a) := by
  have hsub : ((b : Int) - a).toNat = b - a := by omega
  unfold positions
  rw [hsub, range'_eq_map_range]
  refine map_congr_left fun i _ => ?_
  omega

theorem countP_interval (a b n : Nat) :
    (List.range n).countP (fun k => decide (a ≤ k ∧ k < b)) = min n b - min n a := by
  induction n with
  | zero => simp
  | succ n ih =>
    rw [range_succ, countP_append, ih, countP_singleton]
    by_cases hin : a ≤ n ∧ n < b
    · simp only [hin, and_self, decide_true, if_true]
      omega
    · simp only [hin, decide_false, Bool.false_eq_true, if_false]
      omega

section Valid

variable {nExpert nMembers : Nat} {perm cnt : List Int}

/-- The counts, as a composition of the number of experts. -/
def ValidLayer.blocks (h : ValidLayer nExpert nMembers perm cnt) : Composition nExpert where
  blocks := cnt.map Int.toNat
  blocks_pos := by
    intro n hn
    obtain ⟨x, hx, rfl⟩ := List.mem_map.mp hn
    have := h.cntPos x hx
    omega
  blocks_sum := by
    have hcast : ∀ l : List Int, (∀ n ∈ l, 0 < n) → ((l.map Int.toNat).sum : Int) = l.sum := by
      intro l hl
      induction l with
      | nil => rfl
      | cons n l ih =>
        have hn := hl n List.mem_cons_self
        rw [List.map_cons, List.sum_cons, List.sum_cons, Nat.cast_add,
          ih fun x hx => hl x (List.mem_cons_of_mem _ hx)]
        omega
    have hsum := hcast cnt h.cntPos
    rw [h.cntSum] at hsum
    exact Int.ofNat.inj hsum

variable (h : ValidLayer nExpert nMembers perm cnt) {j k : Nat}

include h

theorem ValidLayer.blocks_length : h.blocks.length = nMembers :=
  (length_map ..).trans h.cntLength

theorem ValidLayer.cnt_eq (hj : j < nMembers) :
    cnt.getD j 0 = (h.blocks.sizeUpTo (j + 1) : Int) - h.blocks.sizeUpTo j := by
  have hlen : j < cnt.length := h.cntLength ▸ hj
  have hpos := h.cntPos _ (getElem_mem hlen)
  rw [h.blocks.sizeUpTo_succ (by rw [h.blocks_length]; exact hj)]
  simp only [ValidLayer.blocks, getElem_map]
  rw [getD_eq_getElem?_getD, getElem?_eq_getElem hlen, getD_some]
  omega

/-- Position `k` is in the block of member `j`. -/
def ValidLayer.InBlock (h : ValidLayer nExpert nMembers perm cnt) (j k : Nat) : Prop :=
  h.blocks.sizeUpTo j ≤ k ∧ k < h.blocks.sizeUpTo (j + 1)

instance (j k : Nat) : Decidable (h.InBlock j k) := inferInstanceAs (Decidable (_ ∧ _))

theorem ValidLayer.exists_block (hk : k < nExpert) :
    ∃ j < nMembers, h.InBlock j k ∧ ∀ i < nMembers, h.InBlock i k → i = j := by
  refine ⟨h.blocks.index ⟨k, hk⟩, ?_, ⟨h.blocks.sizeUpTo_index_le ⟨k, hk⟩,
    h.blocks.lt_sizeUpTo_index_succ ⟨k, hk⟩⟩, fun i hi hin => ?_⟩
  · exact Nat.lt_of_lt_of_eq (h.blocks.index ⟨k, hk⟩).2 h.blocks_length
  · have hrange := (h.blocks.mem_range_embedding_iff (j := ⟨k, hk⟩)
      (i := ⟨i, by rw [h.blocks_length]; exact hi⟩)).mpr hin
    exact congrArg Fin.val (h.blocks.mem_range_embedding_iff'.mp hrange)

/-! ## The loops over the positions -/

theorem ValidLayer.int32Add_block (hn : nExpert < 2 ^ 31) (hj : j < nMembers) :
    int32Add (h.blocks.sizeUpTo j) (cnt.getD j 0) = h.blocks.sizeUpTo (j + 1) := by
  have hmono : h.blocks.sizeUpTo j ≤ h.blocks.sizeUpTo (j + 1) :=
    h.blocks.monotone_sizeUpTo (Nat.le_succ j)
  have hle := h.blocks.sizeUpTo_le (j + 1)
  rw [h.cnt_eq hj, ← Nat.cast_sub hmono, int32Add_eq (by omega), Nat.add_sub_cancel' hmono]

theorem ValidLayer.firstPos_eq (hn : nExpert < 2 ^ 31) (hj : j ≤ nMembers) :
    firstPos cnt j = h.blocks.sizeUpTo j := by
  induction j with
  | zero => simp [firstPos]
  | succ j ih =>
    rw [firstPos_succ (by rw [h.cntLength]; exact hj), ih (Nat.le_of_succ_le hj), h.int32Add_block hn hj]

/-- The loop of member `j` runs over its block. -/
theorem ValidLayer.mem_positions (hn : nExpert < 2 ^ 31) (hj : j < nMembers) :
    k ∈ positions (h.blocks.sizeUpTo j) (int32Add (h.blocks.sizeUpTo j) (cnt.getD j 0)) ↔ h.InBlock j k := by
  have hmono : h.blocks.sizeUpTo j ≤ h.blocks.sizeUpTo (j + 1) :=
    h.blocks.monotone_sizeUpTo (Nat.le_succ j)
  rw [h.int32Add_block hn hj, positions_natCast, mem_range'_1, ValidLayer.InBlock]
  omega

theorem ValidLayer.permAt_lt (hk : k < nExpert) : permAt perm k < nExpert := by
  have hlen : k < perm.length := h.permLength ▸ hk
  have hrange := h.permRange _ (getElem_mem hlen)
  unfold permAt
  rw [getD_eq_getElem?_getD, getElem?_eq_getElem hlen, getD_some]
  omega

theorem ValidLayer.permAt_inj {k' : Nat} (hk : k < nExpert) (hk' : k' < nExpert)
    (heq : permAt perm k = permAt perm k') : k = k' := by
  have hlen : k < perm.length := h.permLength ▸ hk
  have hlen' : k' < perm.length := h.permLength ▸ hk'
  have hrange := h.permRange _ (getElem_mem hlen)
  have hrange' := h.permRange _ (getElem_mem hlen')
  unfold permAt at heq
  simp only [getD_eq_getElem?_getD, getElem?_eq_getElem hlen, getElem?_eq_getElem hlen', getD_some] at heq
  exact (List.Nodup.getElem_inj_iff h.permNodup).mp (by omega)

theorem ValidLayer.perm_range : ((List.range nExpert).map (permAt perm)).Perm (List.range nExpert) := by
  have hnodup : ((List.range nExpert).map (permAt perm)).Nodup :=
    List.Nodup.map_on (fun k hk k' hk' => h.permAt_inj (mem_range.mp hk) (mem_range.mp hk'))
      nodup_range
  have hsub : (List.range nExpert).map (permAt perm) ⊆ List.range nExpert := by
    intro x hx
    obtain ⟨k, hk, rfl⟩ := List.mem_map.mp hx
    exact mem_range.mpr (h.permAt_lt (mem_range.mp hk))
  exact (subperm_of_subset hnodup hsub).perm_of_length_le (by simp)

theorem ValidLayer.exists_position {e : Nat} (he : e < nExpert) : ∃ k < nExpert, permAt perm k = e := by
  obtain ⟨k, hk, hke⟩ := List.mem_map.mp (h.perm_range.mem_iff.mpr (mem_range.mpr he))
  exact ⟨k, mem_range.mp hk, hke⟩

/-- A loop over the block of member `j` writes the experts of the block and no other. -/
theorem ValidLayer.scatter_block {α : Type} (hn : nExpert < 2 ^ 31) (val : Nat → α) {t : List α}
    (ht : t.length = nExpert) (hj : j < nMembers) (hk : k < nExpert) : (scatter (permAt perm) val
      (positions (h.blocks.sizeUpTo j) (int32Add (h.blocks.sizeUpTo j) (cnt.getD j 0))) t)[permAt perm k]? =
      if h.InBlock j k then some (val k) else t[permAt perm k]? := by
  have hlt : ∀ x, h.InBlock j x → x < nExpert := fun x hx =>
    Nat.lt_of_lt_of_le hx.2 (h.blocks.sizeUpTo_le _)
  by_cases hin : h.InBlock j k
  · rw [if_pos hin]
    refine scatter_getElem?_mem ((h.mem_positions hn hj).mpr hin) (fun x hx heq => ?_)
      (by rw [ht]; exact h.permAt_lt hk)
    exact h.permAt_inj (hlt x ((h.mem_positions hn hj).mp hx)) hk heq
  · rw [if_neg hin]
    refine scatter_getElem?_other fun x hx heq => hin ?_
    have hx := (h.mem_positions hn hj).mp hx
    rwa [← h.permAt_inj (hlt x hx) hk heq]

/-! ## The entries of the tables -/

/-- What member `j` has for the expert at position `k`. -/
theorem ValidLayer.remapOf_permAt (hn : nExpert < 2 ^ 31) (hj : j < nMembers) (hk : k < nExpert) :
    (remapOf perm cnt j)[permAt perm k]? =
      some (if h.InBlock j k then (k : Int) - h.blocks.sizeUpTo j else llamaExpertSlotSkip) := by
  have hlt : permAt perm k < perm.length := by
    rw [h.permLength]
    exact h.permAt_lt hk
  unfold remapOf
  rw [h.firstPos_eq hn (Nat.le_of_lt hj), h.scatter_block hn _ (by simp [h.permLength]) hj hk,
    getElem?_replicate_of_lt hlt]
  split <;> rfl

theorem ValidLayer.maskOf_permAt (hn : nExpert < 2 ^ 31) (hj : j < nMembers) (hk : k < nExpert) :
    (maskOf perm cnt j)[permAt perm k]? = some (if h.InBlock j k then 1 else 0) := by
  have hlt : permAt perm k < perm.length := by
    rw [h.permLength]
    exact h.permAt_lt hk
  unfold maskOf
  rw [h.firstPos_eq hn (Nat.le_of_lt hj), h.scatter_block hn _ (by simp [h.permLength]) hj hk,
    getElem?_replicate_of_lt hlt]
  split <;> rfl

/-! ## The owners -/

theorem ValidLayer.zipIdx_eq : cnt.zipIdx = (List.range nMembers).map fun i => (cnt.getD i 0, i) := by
  refine ext_getElem (by simp [h.cntLength]) fun i hi _ => ?_
  have hlt : i < cnt.length := by simpa using hi
  simp [hlt]

/-- A loop over the members that writes the experts of each block with the member. -/
theorem ValidLayer.owners (hn : nExpert < 2 ^ 31) {step : Int × List Int → Int × Nat → Int × List Int}
    (hstep : ∀ j < nMembers, ∀ t, step ((h.blocks.sizeUpTo j : Int), t) (cnt.getD j 0, j) =
      viewStep perm ((h.blocks.sizeUpTo j : Int), t) (cnt.getD j 0, j)) (hj : j < nMembers)
    (hk : k < nExpert) (hin : h.InBlock j k) :
    (cnt.zipIdx.foldl step (0, List.replicate perm.length (-1))).2[permAt perm k]? = some (j : Int) := by
  rw [h.zipIdx_eq, foldl_map]
  have hloop := @Loops.foldl_range_inv _ (fun σ i => step σ (cnt.getD i 0, i))
    (fun m σ => σ.1 = h.blocks.sizeUpTo m ∧ σ.2.length = nExpert ∧
      ∀ i < m, h.InBlock i k → σ.2[permAt perm k]? = some (i : Int))
    nMembers (0, List.replicate perm.length (-1))
    ⟨by simp, by simp [h.permLength], fun i hi => absurd hi (Nat.not_lt_zero i)⟩
    (fun m hm σ hσ => ?_)
  · exact hloop.2.2 j hj hin
  · obtain ⟨pos, t⟩ := σ
    obtain ⟨rfl, hlen, hown⟩ := hσ
    rw [hstep m hm]
    refine ⟨h.int32Add_block hn hm, by rw [viewStep, scatter_length]; exact hlen, fun i hi hik => ?_⟩
    rw [viewStep, h.scatter_block hn _ hlen hm hk]
    obtain ⟨owner, howner, -, honly⟩ := h.exists_block hk
    rcases Nat.lt_succ_iff_lt_or_eq.mp hi with hlt | rfl
    · have hne : ¬h.InBlock m k := by
        intro hmk
        have := (honly i (Nat.lt_trans hlt hm) hik).trans (honly m hm hmk).symm
        omega
      rw [if_neg hne]
      exact hown i hlt hik
    · rw [if_pos hik]

theorem ValidLayer.memberOf_permAt (hn : nExpert < 2 ^ 31) (hj : j < nMembers) (hk : k < nExpert)
    (hin : h.InBlock j k) : (memberOf perm cnt)[permAt perm k]? = some (j : Int) :=
  h.owners hn (fun _ _ _ => rfl) hj hk hin

/-- The audit counts from the start of the range, and comes to the same positions. -/
theorem ValidLayer.auditMemberOf_permAt (hn : nExpert < 2 ^ 31) (hj : j < nMembers) (hk : k < nExpert)
    (hin : h.InBlock j k) : (auditMemberOf perm cnt)[permAt perm k]? = some (j : Int) := by
  refine h.owners hn (fun m hm t => ?_) hj hk hin
  have hle := h.blocks.sizeUpTo_le (m + 1)
  have hcnt : (cnt.getD m 0).toNat = h.blocks.sizeUpTo (m + 1) - h.blocks.sizeUpTo m := by
    rw [h.cnt_eq hm]
    omega
  unfold auditStep viewStep
  rw [h.int32Add_block hn hm, positions_natCast, range'_eq_map_range, scatter_map, hcnt]
  refine congrArg (Prod.mk _) (scatter_congr fun i hi => ?_)
  have hi := mem_range.mp hi
  rw [int32Add_eq (by omega)]
  rfl

/-! ## The audit -/

theorem ValidLayer.count_block (hj : j < nMembers) {owned : Nat → Bool}
    (howned : ∀ k < nExpert, owned (permAt perm k) = decide (h.InBlock j k)) :
    ((List.range nExpert).countP owned : Int) = cnt.getD j 0 := by
  have hmono : h.blocks.sizeUpTo j ≤ h.blocks.sizeUpTo (j + 1) :=
    h.blocks.monotone_sizeUpTo (Nat.le_succ j)
  have hle := h.blocks.sizeUpTo_le (j + 1)
  have hblock : (List.range nExpert).countP owned = (List.range nExpert).countP fun k => decide (h.InBlock j k) := by
    rw [← h.perm_range.countP_eq, countP_map]
    exact countP_congr fun k hk => by rw [Function.comp_apply, howned k (mem_range.mp hk)]
  have hcount : (List.range nExpert).countP (fun k => decide (h.InBlock j k)) =
      min nExpert (h.blocks.sizeUpTo (j + 1)) - min nExpert (h.blocks.sizeUpTo j) :=
    countP_interval ..
  rw [hblock, hcount, h.cnt_eq hj]
  omega

theorem ValidLayer.auditExpert_ok (hn : nExpert < 2 ^ 31) (il : Nat) (hj : j < nMembers)
    (hk : k < nExpert) (nOwned : Nat) :
    auditExpert il j (cnt.getD j 0) (auditMemberOf perm cnt) (remapOf perm cnt j) (maskOf perm cnt j)
      nOwned (permAt perm k) = .ok (nOwned + (decide (h.InBlock j k)).toNat) := by
  obtain ⟨i, hi, hik, honly⟩ := h.exists_block hk
  have howner : (auditMemberOf perm cnt).getD (permAt perm k) 0 = i := by
    rw [getD_eq_getElem?_getD, h.auditMemberOf_permAt hn hi hk hik, getD_some]
  have hslot : (remapOf perm cnt j).getD (permAt perm k) 0 =
      if h.InBlock j k then (k : Int) - h.blocks.sizeUpTo j else llamaExpertSlotSkip := by
    rw [getD_eq_getElem?_getD, h.remapOf_permAt hn hj hk, getD_some]
  have hmask : (maskOf perm cnt j).getD (permAt perm k) 0 = if h.InBlock j k then 1 else 0 := by
    rw [getD_eq_getElem?_getD, h.maskOf_permAt hn hj hk, getD_some]
  have hcnt := h.cnt_eq hj
  have hpos : ¬(i : Int) < 0 := by omega
  unfold auditExpert
  simp only [howner, hslot, hmask, if_neg hpos]
  by_cases hin : h.InBlock j k
  · obtain rfl := honly j hj hin
    have hlo : h.blocks.sizeUpTo j ≤ k := hin.1
    have hhi : (k : Int) - h.blocks.sizeUpTo j < cnt.getD j 0 := by
      have hend := hin.2
      omega
    rw [getD_eq_getElem?_getD] at hhi
    simp [hin, hlo, hhi]
  · have hne : (i : Int) ≠ j := by
      intro heq
      rw [Int.ofNat.inj heq] at hik
      exact hin hik
    simp [hin, hne]

theorem ValidLayer.auditTables_ok (hn : nExpert < 2 ^ 31) (il : Nat) (hj : j < nMembers) :
    auditTables il j perm cnt (remapOf perm cnt j) (maskOf perm cnt j) = .ok () := by
  let owned (e : Nat) : Bool := decide ((auditMemberOf perm cnt)[e]? = some (j : Int))
  have howned : ∀ k < nExpert, owned (permAt perm k) = decide (h.InBlock j k) := by
    intro k hk
    obtain ⟨i, hi, hik, honly⟩ := h.exists_block hk
    refine decide_eq_decide.mpr ?_
    rw [h.auditMemberOf_permAt hn hi hk hik, some.injEq]
    constructor
    · intro heq
      rwa [← Int.ofNat.inj heq]
    · intro hin
      rw [honly j hj hin]
  have hloop : (List.range perm.length).foldlM (auditExpert il j (cnt.getD j 0)
      (auditMemberOf perm cnt) (remapOf perm cnt j) (maskOf perm cnt j)) 0 =
      .ok ((List.range nExpert).countP owned) := by
    rw [h.permLength]
    refine Checks.foldlM_range_ok (s := fun n => (List.range n).countP owned) fun e he => ?_
    obtain ⟨k, hk, rfl⟩ := h.exists_position he
    rw [h.auditExpert_ok hn il hj hk, range_succ, countP_append, howned k hk |>.symm]
    simp [countP_cons, Bool.toNat, Bool.cond_eq_ite]
  unfold auditTables
  rw [Checks.bind_ok hloop, if_neg (not_not.mpr (h.count_block hj howned))]
  rfl

theorem ValidLayer.layerTables_eq (hn : nExpert < 2 ^ 31) (il : Nat) :
    layerTables il perm cnt nMembers =
      .ok ⟨(List.range nMembers).map (remapOf perm cnt), (List.range nMembers).map (maskOf perm cnt),
        memberOf perm cnt⟩ := by
  have hmembers := @Checks.mapM_ok _ _ _ (fun j => do
      auditTables il j perm cnt (remapOf perm cnt j) (maskOf perm cnt j)
      return (remapOf perm cnt j, maskOf perm cnt j))
    (fun j => (remapOf perm cnt j, maskOf perm cnt j)) (List.range nMembers)
    fun j hj => Checks.bind_ok (h.auditTables_ok hn il (mem_range.mp hj))
  unfold layerTables
  rw [Checks.bind_ok hmembers, List.map_map, List.map_map]
  rfl

end Valid

end ExpertPlacement

/-! ## The tables are a partition -/

namespace LayerTables

/-- The slot of an expert in the tables of a member. -/
def slot (t : LayerTables) (j e : Nat) : Int := (t.remap.getD j []).getD e llamaExpertSlotSkip

/-- The mask of an expert in the tables of a member. -/
def maskAt (t : LayerTables) (j e : Nat) : Nat := (t.mask.getD j []).getD e 0

def owned (t : LayerTables) (nExpert j : Nat) : Set Nat :=
  {e | e < nExpert ∧ t.slot j e ≠ llamaExpertSlotSkip}

/-- The tables share the experts out among the members. -/
structure Partition (nExpert nMembers : Nat) (cnt : List Int) (t : LayerTables) : Prop where
  remap_length : t.remap.length = nMembers ∧ ∀ row ∈ t.remap, row.length = nExpert
  mask_length : t.mask.length = nMembers ∧ ∀ row ∈ t.mask, row.length = nExpert
  /-- One member has a slot and the mask, and all others skip the expert. -/
  owner : ∀ e < nExpert, ∃ j < nMembers, t.slot j e ≠ llamaExpertSlotSkip ∧ t.maskAt j e = 1 ∧
    ∀ i < nMembers, i ≠ j → t.slot i e = llamaExpertSlotSkip ∧ t.maskAt i e = 0
  /-- The slots of a member count its experts. -/
  slots : ∀ j < nMembers, Set.BijOn (t.slot j) (t.owned nExpert j) (Set.Ico 0 (cnt.getD j 0))
  view_length : t.memberOf.length = nExpert
  /-- The view of the owners agrees. -/
  view : ∀ e < nExpert, ∀ j < nMembers,
    t.memberOf.getD e (-1) = j ↔ t.slot j e ≠ llamaExpertSlotSkip

end LayerTables

namespace ExpertPlacement

section Valid

variable {nExpert nMembers : Nat} {perm cnt : List Int}

def builtTables (perm cnt : List Int) (nMembers : Nat) : LayerTables :=
  ⟨(List.range nMembers).map (remapOf perm cnt), (List.range nMembers).map (maskOf perm cnt),
    memberOf perm cnt⟩

theorem memberOf_length (perm cnt : List Int) : (memberOf perm cnt).length = perm.length := by
  have hfold : ∀ (l : List (Int × Nat)) (σ : Int × List Int), (l.foldl (viewStep perm) σ).2.length = σ.2.length := by
    intro l
    induction l with
    | nil => exact fun σ => rfl
    | cons x l ih => exact fun σ => (ih _).trans scatter_length
  rw [memberOf, hfold, length_replicate]

variable (h : ValidLayer nExpert nMembers perm cnt)

include h

theorem ValidLayer.slot_permAt (hn : nExpert < 2 ^ 31) {j k : Nat} (hj : j < nMembers)
    (hk : k < nExpert) : (builtTables perm cnt nMembers).slot j (permAt perm k) =
      if h.InBlock j k then (k : Int) - h.blocks.sizeUpTo j else llamaExpertSlotSkip := by
  have hrow : (builtTables perm cnt nMembers).remap.getD j [] = remapOf perm cnt j := by
    simp [builtTables, hj]
  rw [LayerTables.slot, hrow, getD_eq_getElem?_getD, h.remapOf_permAt hn hj hk, getD_some]

theorem ValidLayer.maskAt_permAt (hn : nExpert < 2 ^ 31) {j k : Nat} (hj : j < nMembers)
    (hk : k < nExpert) : (builtTables perm cnt nMembers).maskAt j (permAt perm k) =
      if h.InBlock j k then 1 else 0 := by
  have hrow : (builtTables perm cnt nMembers).mask.getD j [] = maskOf perm cnt j := by
    simp [builtTables, hj]
  rw [LayerTables.maskAt, hrow, getD_eq_getElem?_getD, h.maskOf_permAt hn hj hk, getD_some]

/-- A slot is skipped outside the block. -/
theorem ValidLayer.slot_ne_skip (hn : nExpert < 2 ^ 31) {j k : Nat} (hj : j < nMembers)
    (hk : k < nExpert) : (builtTables perm cnt nMembers).slot j (permAt perm k) ≠ llamaExpertSlotSkip ↔
      h.InBlock j k := by
  rw [h.slot_permAt hn hj hk]
  by_cases hin : h.InBlock j k
  · rw [if_pos hin]
    refine iff_of_true (fun heq => ?_) hin
    have hlo := hin.1
    unfold llamaExpertSlotSkip at heq
    omega
  · rw [if_neg hin]
    exact iff_of_false (not_not.mpr rfl) hin

theorem ValidLayer.slots_bijOn (hn : nExpert < 2 ^ 31) {j : Nat} (hj : j < nMembers) :
    Set.BijOn ((builtTables perm cnt nMembers).slot j)
      ((builtTables perm cnt nMembers).owned nExpert j) (Set.Ico 0 (cnt.getD j 0)) := by
  have hcnt := h.cnt_eq hj
  -- an expert of the member stands at a position of its block
  have hposition : ∀ e ∈ (builtTables perm cnt nMembers).owned nExpert j,
      ∃ k < nExpert, permAt perm k = e ∧ h.InBlock j k ∧
        (builtTables perm cnt nMembers).slot j e = (k : Int) - h.blocks.sizeUpTo j := by
    rintro e ⟨he, hslot⟩
    obtain ⟨k, hk, rfl⟩ := h.exists_position he
    have hin := (h.slot_ne_skip hn hj hk).mp hslot
    exact ⟨k, hk, rfl, hin, by rw [h.slot_permAt hn hj hk, if_pos hin]⟩
  refine ⟨fun e he => ?_, fun e he e' he' heq => ?_, fun x hx => ?_⟩
  · obtain ⟨k, hk, -, hin, hslot⟩ := hposition e he
    obtain ⟨hlo, hhi⟩ := hin
    rw [Set.mem_Ico, hslot]
    omega
  · obtain ⟨k, hk, rfl, -, hslot⟩ := hposition e he
    obtain ⟨k', hk', rfl, -, hslot'⟩ := hposition e' he'
    have hsame : k = k' := by omega
    rw [hsame]
  · obtain ⟨h0, hlt⟩ := Set.mem_Ico.mp hx
    have hle := h.blocks.sizeUpTo_le (j + 1)
    have hk : h.blocks.sizeUpTo j + x.toNat < nExpert := by omega
    have hin : h.InBlock j (h.blocks.sizeUpTo j + x.toNat) := ⟨by omega, by omega⟩
    refine ⟨permAt perm (h.blocks.sizeUpTo j + x.toNat), ⟨h.permAt_lt hk, (h.slot_ne_skip hn hj hk).mpr hin⟩, ?_⟩
    rw [h.slot_permAt hn hj hk, if_pos hin]
    omega

theorem ValidLayer.partition (hn : nExpert < 2 ^ 31) :
    (builtTables perm cnt nMembers).Partition nExpert nMembers cnt where
  remap_length := by
    refine ⟨by simp [builtTables], fun row hrow => ?_⟩
    obtain ⟨j, -, rfl⟩ := List.mem_map.mp hrow
    simp [remapOf, h.permLength]
  mask_length := by
    refine ⟨by simp [builtTables], fun row hrow => ?_⟩
    obtain ⟨j, -, rfl⟩ := List.mem_map.mp hrow
    simp [maskOf, h.permLength]
  owner e he := by
    obtain ⟨k, hk, rfl⟩ := h.exists_position he
    obtain ⟨j, hj, hin, honly⟩ := h.exists_block hk
    refine ⟨j, hj, (h.slot_ne_skip hn hj hk).mpr hin, ?_, fun i hi hne => ?_⟩
    · rw [h.maskAt_permAt hn hj hk, if_pos hin]
    · have hout : ¬h.InBlock i k := fun hik => hne (honly i hi hik)
      rw [h.slot_permAt hn hi hk, h.maskAt_permAt hn hi hk, if_neg hout, if_neg hout]
      exact ⟨rfl, rfl⟩
  slots j hj := h.slots_bijOn hn hj
  view_length := (memberOf_length perm cnt).trans h.permLength
  view e he j hj := by
    obtain ⟨k, hk, rfl⟩ := h.exists_position he
    obtain ⟨i, hi, hik, honly⟩ := h.exists_block hk
    rw [h.slot_ne_skip hn hj hk]
    have hview : (builtTables perm cnt nMembers).memberOf.getD (permAt perm k) (-1) = i := by
      rw [getD_eq_getElem?_getD]
      change ((memberOf perm cnt)[permAt perm k]?).getD (-1) = i
      rw [h.memberOf_permAt hn hi hk hik, getD_some]
    rw [hview]
    constructor
    · intro heq
      rwa [← Int.ofNat.inj heq]
    · intro hin
      rw [honly j hj hin]

end Valid

/-- **Placement tables.**  For an artifact that the loader accepts the tables are created, and
those of every placed layer are a partition. -/
theorem createTables_partition {path : String} {file : Option (JsonAccess PlacementJson)}
    {nLayer nExpert nMembers : Nat} {pl : LlamaExpertPlacement} (hn : nExpert < 2 ^ 31)
    (hload : llamaExpertPlacementLoad path file nLayer nExpert nMembers = .ok pl) {il : Nat}
    (hplaced : pl.layerPlaced il) :
    ∃ tables t, llamaExpertPlacementCreateTables pl nMembers = .ok tables ∧
      tables[il]? = some (some t) ∧ t.Partition nExpert nMembers (pl.counts.getD il []) := by
  obtain ⟨hlayer, hlen, hvalid⟩ := load_ok hload
  have hil : il < pl.nLayer := by
    have hlt : il < pl.perm.length := by
      simp only [LlamaExpertPlacement.layerPlaced, Bool.and_eq_true, decide_eq_true_eq] at hplaced
      exact hplaced.1
    omega
  have hsome : ¬((List.range pl.nLayer).all fun il => !pl.layerPlaced il) = true := by
    intro hall
    have hnone := List.all_eq_true.mp hall il (mem_range.mpr hil)
    rw [hplaced] at hnone
    cases hnone
  have hmap := @Checks.mapM_ok _ _ _ (fun il => if pl.layerPlaced il then
      some <$> layerTables il (pl.perm.getD il []) (pl.counts.getD il []) nMembers else pure none)
    (fun il => if pl.layerPlaced il then
      some (builtTables (pl.perm.getD il []) (pl.counts.getD il []) nMembers) else none)
    (List.range pl.nLayer) fun i _ => by
      by_cases hi : pl.layerPlaced i = true
      · rw [if_pos hi, if_pos hi, (hvalid i hi).layerTables_eq hn i]
        rfl
      · rw [if_neg hi, if_neg hi]
        rfl
  refine ⟨_, builtTables (pl.perm.getD il []) (pl.counts.getD il []) nMembers,
    (if_neg hsome).trans (mapError_eq_ok.mpr hmap), ?_, (hvalid il hplaced).partition hn⟩
  rw [getElem?_map, getElem?_range hil, map_some, if_pos hplaced]

/-- Two layers of three experts on two members; the second layer is dense. -/
def twoLayers : PlacementJson where
  model := .ok "m"
  nLayer := .ok 2
  nExpert := .ok 3
  memberShares := none
  perm := .ok [.ok (some (.ok [2, 0, 1])), .ok none]
  countsPerLayer := .ok [.ok (some (.ok [1, 2])), .ok none]

theorem createTables_partition_twoLayers :
    ∃ pl, llamaExpertPlacementLoad "p.json" (some (.ok twoLayers)) 2 3 2 = .ok pl ∧
      ∃ tables t, llamaExpertPlacementCreateTables pl 2 = .ok tables ∧ tables[0]? = some (some t) ∧
        t.Partition 3 2 (pl.counts.getD 0 []) :=
  ⟨_, rfl, @createTables_partition "p.json" (some (.ok twoLayers)) 2 3 2 _ (by decide) rfl 0 rfl⟩

end ExpertPlacement

end LlamaCpp
