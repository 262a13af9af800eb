import LlamaCpp.Kv.Cache

/-!
# What `find_slot` finds

The searches are followed for single cells (`cont = false`), the only way the cache
calls them.  A search that started at `start` and has tested `k` cells has seen the
cells `start`, `start + 1`, ..., wrapping around at the end of the stream (`Seen`).  It
stops before it sees a cell twice, so the cells it returns are distinct
(`searchLoop_spec`).

`Offers` is what a slot of one stream promises, `streamSlot_offers` says that both ways
of searching keep the promise, and `findSlot_spec` collects the streams.
-/

namespace LlamaCpp.KvCache

open List

variable {c : KvConfig} {cells : KvCells}

/-! ## The ring search -/

/-- Cell `idx` is among the first `k` cells from `start` on, in a ring of `n`. -/
def Seen (n start k idx : Nat) : Prop := (start ≤ idx ∧ idx < start + k) ∨ idx + n < start + k

/-- What holds whenever the search is about to test a cell. -/
structure SearchInv (c : KvConfig) (cells : KvCells) (start : Nat) (σ : Search) : Prop where
  start_le : start ≤ cells.size
  head : σ.headCur = start + σ.nTested ∨ σ.headCur + cells.size = start + σ.nTested
  head_le : σ.headCur ≤ cells.size
  nodup : σ.idxs.Nodup
  found : ∀ idx ∈ σ.idxs,
    idx < cells.size ∧ canUse c cells idx = true ∧ Seen cells.size start σ.nTested idx

theorem SearchInv.wrap {start : Nat} {σ : Search} (h : SearchInv c cells start σ)
    (hend : cells.size < σ.headCur + 1) (htested : σ.nTested < cells.size) :
    SearchInv c cells start
      { σ with headCur := 0, nTested := σ.nTested + (cells.size - σ.headCur) } := by
  have hhead := h.head
  have hstart := h.start_le
  have hz : cells.size - σ.headCur = 0 := by omega
  rw [hz]
  exact ⟨hstart, .inr (by have := h.head_le; dsimp only; omega), Nat.zero_le _, h.nodup, h.found⟩

/-- Testing one cell keeps the invariant, whether the cell is taken or not. -/
theorem SearchInv.test {start : Nat} {σ : Search} (h : SearchInv c cells start σ)
    (hend : ¬cells.size < σ.headCur + 1) (htested : σ.nTested < cells.size) :
    SearchInv c cells start (testCells c cells false 1 σ) := by
  have hhead := h.head
  have hlater : ∀ idx ∈ σ.idxs, idx < cells.size ∧ canUse c cells idx = true ∧
      Seen cells.size start (σ.nTested + 1) idx := by
    intro idx hidx
    obtain ⟨hlt, huse, hseen⟩ := h.found idx hidx
    refine ⟨hlt, huse, ?_⟩
    unfold Seen at hseen ⊢
    omega
  simp only [testCells]
  split
  · rename_i huse
    have hnew : Seen cells.size start (σ.nTested + 1) σ.headCur := by
      unfold Seen
      omega
    have hnot : σ.headCur ∉ σ.idxs := by
      intro hmem
      have hseen := (h.found _ hmem).2.2
      unfold Seen at hseen
      omega
    refine ⟨h.start_le, ?_, ?_, ?_, fun idx hidx => ?_⟩
    · dsimp only
      omega
    · dsimp only
      omega
    · rw [nodup_append]
      refine ⟨h.nodup, nodup_singleton _, fun a ha b hb => ?_⟩
      rw [mem_singleton.mp hb]
      rintro rfl
      exact hnot ha
    · rcases List.mem_append.mp hidx with hidx | hidx
      · exact hlater idx hidx
      · rw [mem_singleton.mp hidx]
        exact ⟨by omega, huse, hnew⟩
  · simp only [Bool.false_eq_true, if_false]
    exact ⟨h.start_le, by dsimp only; omega, by dsimp only; omega, h.nodup, hlater⟩

/-- The cells a search returns are as many as asked for, distinct and usable. -/
theorem searchLoop_spec {start nTokens : Nat} :
    ∀ {fuel : Nat} {σ : Search} {idxs : List Nat}, SearchInv c cells start σ →
      σ.nTested < cells.size → searchLoop c cells false nTokens fuel σ = some idxs →
      idxs.length = nTokens ∧ idxs.Nodup ∧ ∀ idx ∈ idxs, idx < cells.size ∧ canUse c cells idx = true
  | 0, _, _, _, _, hrun => by simp [searchLoop] at hrun
  | fuel + 1, σ, idxs, hinv, htested, hrun => by
      simp only [searchLoop, Bool.false_eq_true, if_false] at hrun
      split at hrun
      · rename_i hend
        have hzero : cells.size - σ.headCur = 0 := by
          have := hinv.head_le
          omega
        refine searchLoop_spec (hinv.wrap hend htested) ?_ hrun
        dsimp only
        omega
      · rename_i hend
        have hinv' := hinv.test hend htested
        split at hrun
        · rename_i hlen
          obtain rfl := Option.some.inj hrun
          exact ⟨hlen, hinv'.nodup, fun idx hidx =>
            ⟨(hinv'.found idx hidx).1, (hinv'.found idx hidx).2.1⟩⟩
        · split at hrun
          · exact absurd hrun (by simp)
          · rename_i hlt
            exact searchLoop_spec hinv' (by omega) hrun

/-! ## The slot of one stream -/

/-- What the cells `idxs` promise for tokens at the positions `ps`: one each, distinct
and usable; under MSA every token gets the empty cell of its position. -/
structure Offers (c : KvConfig) (cells : KvCells) (ps : List Int) (idxs : List Nat) : Prop where
  length : idxs.length = ps.length
  nodup : idxs.Nodup
  usable : ∀ idx ∈ idxs, idx < cells.size ∧ canUse c cells idx = true
  msa : c.msaStrictSlots = true → idxs.map Int.ofNat = ps ∧ ∀ idx ∈ idxs, cells.isEmpty idx = true

theorem canUse_of_isEmpty {idx : Nat} (h : cells.isEmpty idx = true) : canUse c cells idx = true := by
  simp [canUse, h]

/-- The MSA placement continues a strictly increasing list of empty cells. -/
theorem msaPlace_spec : ∀ {ps : List Int} {acc idxs : List Nat}, acc.Pairwise (· < ·) →
    (∀ idx ∈ acc, idx < cells.size ∧ cells.isEmpty idx = true) →
    msaPlace cells false ps acc = some idxs →
    idxs.map Int.ofNat = acc.map Int.ofNat ++ ps ∧ idxs.Pairwise (· < ·) ∧
      ∀ idx ∈ idxs, idx < cells.size ∧ cells.isEmpty idx = true
  | [], acc, idxs, hsorted, hacc, hrun => by
      obtain rfl : acc = idxs := by simpa [msaPlace] using hrun
      exact ⟨(append_nil _).symm, hsorted, hacc⟩
  | p :: ps, acc, idxs, hsorted, hacc, hrun => by
      simp only [msaPlace, Bool.false_eq_true, if_false] at hrun
      split at hrun
      · exact absurd hrun (by simp)
      rename_i hrange
      split at hrun
      · exact absurd hrun (by simp)
      rename_i hempty
      split at hrun
      · exact absurd hrun (by simp)
      rename_i hlast
      have hp : Int.ofNat p.toNat = p := Int.toNat_of_nonneg (by omega)
      have hlt : p.toNat < cells.size := by omega
      -- the last cell is the largest, so the new one is larger than all
      have habove : ∀ a ∈ acc, a < p.toNat := by
        intro a ha
        have hne : acc ≠ [] := ne_nil_of_mem ha
        have hmax : a ≤ acc.getLast hne := by
          rcases acc.eq_nil_or_concat with rfl | ⟨l, b, rfl⟩
          · exact absurd rfl hne
          · rw [concat_eq_append, pairwise_append] at hsorted
            simp only [concat_eq_append, getLast_append_singleton]
            rcases List.mem_append.mp (concat_eq_append ▸ ha) with ha | ha
            · exact Nat.le_of_lt (hsorted.2.2 a ha b (mem_singleton_self b))
            · exact le_of_eq (mem_singleton.mp ha)
        have hgt : ¬p.toNat ≤ acc.getLast hne := fun hle =>
          hlast ⟨_, getLast?_eq_some_getLast hne, by simpa using hle⟩
        omega
      have hsorted' : (acc ++ [p.toNat]).Pairwise (· < ·) :=
        pairwise_append.mpr ⟨hsorted, pairwise_singleton _ _, fun a ha b hb =>
          mem_singleton.mp hb ▸ habove a ha⟩
      obtain ⟨hmap, hrest⟩ := msaPlace_spec hsorted' (fun idx hidx => by
        rcases List.mem_append.mp hidx with hidx | hidx
        · exact hacc idx hidx
        · rw [mem_singleton.mp hidx]
          exact ⟨hlt, by simpa using hempty⟩) hrun
      refine ⟨?_, hrest⟩
      rw [hmap, map_append, map_singleton, hp, append_assoc]
      rfl

/-- Both ways of searching a stream keep the promise, if the head is not past its end. -/
theorem streamSlot_offers {kv : KvCache} {t : Nat} {ps : List Int} {idxs : List Nat}
    (hhead : kv.vHeads t ≤ (kv.vCells t).size) (hps : ps ≠ [])
    (hrun : kv.streamSlot c t false ps = some idxs) : Offers c (kv.vCells t) ps idxs := by
  have hpos : 0 < ps.length := length_pos_iff.mpr hps
  simp only [streamSlot] at hrun
  split at hrun
  · exact absurd hrun (by simp)
  rename_i hfits
  split at hrun
  · obtain ⟨hmap, hsorted, hidxs⟩ := msaPlace_spec .nil (by simp) hrun
    refine ⟨?_, hsorted.imp Nat.ne_of_lt, fun idx hidx =>
      ⟨(hidxs idx hidx).1, canUse_of_isEmpty (hidxs idx hidx).2⟩, fun _ =>
      ⟨by simpa using hmap, fun idx hidx => (hidxs idx hidx).2⟩⟩
    simpa using congrArg List.length hmap
  · rename_i hmsa
    have hstart : (if (kv.vCells t).getUsed + 2 * ps.length < kv.vHeads t then 0
        else kv.vHeads t) ≤ (kv.vCells t).size := by
      split <;> omega
    generalize (if (kv.vCells t).getUsed + 2 * ps.length < kv.vHeads t then 0
        else kv.vHeads t) = start at hrun hstart
    have hinv : SearchInv c (kv.vCells t) start ⟨start, 0, []⟩ :=
      ⟨hstart, .inl rfl, hstart, nodup_nil, by simp⟩
    obtain ⟨hlen, hnd, huse⟩ := searchLoop_spec hinv (by dsimp only; omega) hrun
    exact ⟨hlen, hnd, huse, fun h => absurd h hmsa⟩

/-! ## All streams -/

/-- The stream of group `g`. -/
def groupStrm (c : KvConfig) (ubatch : LlamaUbatch) (g : Nat) : Nat :=
  c.seqToStream (ubatch.seqIdUnq.getD g 0)

/-- The loop over the groups returns the empty slot, or extends the slot by one stream
per group. -/
theorem findStreams_spec {kv : KvCache} {ubatch : LlamaUbatch} {cont : Bool} :
    ∀ {gs : List Nat} {res sinfo : SlotInfo}, kv.findStreams c ubatch cont gs res = some sinfo →
      sinfo = .none ∨ ∃ idxss : List (List Nat),
        List.Forall₂ (fun g idxs => kv.streamSlot c (groupStrm c ubatch g) cont
          (groupPos c ubatch g) = some idxs) gs idxss ∧
        sinfo.strm = res.strm ++ gs.map (groupStrm c ubatch) ∧ sinfo.idxs = res.idxs ++ idxss
  | [], res, sinfo, hrun => by
      obtain rfl : res = sinfo := by simpa [findStreams] using hrun
      exact .inr ⟨[], .nil, by simp, by simp⟩
  | g :: gs, res, sinfo, hrun => by
      simp only [findStreams] at hrun
      split at hrun
      · exact absurd hrun (by simp)
      cases hslot : kv.streamSlot c (groupStrm c ubatch g) cont (groupPos c ubatch g) with
      | none =>
        rw [groupStrm] at hslot
        rw [hslot] at hrun
        exact .inl (Option.some.inj hrun).symm
      | some idxs =>
        have hslot' := hslot
        rw [groupStrm] at hslot'
        rw [hslot'] at hrun
        rcases findStreams_spec hrun with hnone | ⟨idxss, hall, hstrm, hidxs⟩
        · exact .inl hnone
        · refine .inr ⟨idxs :: idxss, .cons hslot hall, ?_, ?_⟩
          · rw [hstrm]
            simp [SlotInfo.push, groupStrm]
          · rw [hidxs]
            simp [SlotInfo.push]

/-- A slot that is not empty names one stream per group, and every stream made an
offer. -/
theorem findSlot_spec {kv : KvCache} {ubatch : LlamaUbatch} {cont : Bool} {sinfo : SlotInfo}
    (hrun : kv.findSlot c ubatch cont = some sinfo) (hne : sinfo.isEmpty = false) :
    List.Forall₂ (fun g idxs => kv.streamSlot c (groupStrm c ubatch g) cont
        (groupPos c ubatch g) = some idxs) (List.range (nSeqs c ubatch)) sinfo.idxs ∧
      sinfo.strm = (List.range (nSeqs c ubatch)).map (groupStrm c ubatch) := by
  unfold findSlot at hrun
  split at hrun
  · exact absurd hrun (by simp)
  rcases findStreams_spec hrun with rfl | ⟨idxss, hall, hstrm, hidxs⟩
  · exact absurd hne (by simp [SlotInfo.isEmpty, SlotInfo.none])
  · rw [nil_append] at hstrm hidxs
    exact ⟨hidxs ▸ hall, hstrm⟩

end LlamaCpp.KvCache
