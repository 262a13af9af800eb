import LlamaCpp.Kv.StateFailure

/-!
# The frame of a restore of one sequence

A restore of `d` works in the stream of `d`: it empties and fills cells there, and it
overwrites rows there.  The one way out of the stream is the purge of `apply_ubatch`,
which follows the sequences of the cells that were overwritten; if the stream holds no
sequence but `d` (`Alone`), it stays inside as well.

`Within` says that the cells of the other streams are those of the state before.  Every
part of the reader keeps it, whatever the bytes are (`keeps_stateRead`).
-/

namespace LlamaCpp.KvCache

open List Option

open Readers (Reader Input Fault Keeps Ends takeLE bind_ok bind_error bind_eq_ok)
open KvCells (Rep Acts)

variable {c : KvConfig} {L : KvLayout} {d : SeqId} {kv₀ kv kv' : KvCache} {ubatch : LlamaUbatch}
  {sinfo : SlotInfo}

/-! ## Cells -/

variable (c d) in
/-- The stream of `d` holds no other sequence. -/
structure Alone (kv : KvCache) : Prop where
  size : (kv.vCells (c.seqToStream d)).size = c.kvSize
  head_le : kv.vHeads (c.seqToStream d) ≤ c.kvSize
  only : ∀ i < c.kvSize, ∀ s ∈ (kv.vCells (c.seqToStream d)).seq i, s = d

/-- With one stream for every sequence no two share one. -/
theorem Inv.alone (h : kv.Inv c) (hn : 1 < c.nStream) : Alone c d kv where
  size := h.size _
  head_le := h.head_le _
  only := by
    intro i hi s hs
    have hstrm := h.owner _ i hi s hs
    simp only [KvConfig.seqToStream, if_pos hn] at hstrm
    exact Fin.ext hstrm

variable (c d kv₀) in
/-- Only the stream of `d` may differ from `kv₀`. -/
structure Within (kv : KvCache) : Prop extends Alone c d kv where
  cells : ∀ u ≠ c.seqToStream d, kv.vCells u = kv₀.vCells u

theorem Within.setCells (h : Within c d kv₀ kv) {cells : KvCells} (hsize : cells.size = c.kvSize)
    (honly : ∀ i < c.kvSize, ∀ s ∈ cells.seq i, s = d) :
    Within c d kv₀ (kv.setCells (c.seqToStream d) cells) where
  size := by simpa using hsize
  head_le := h.head_le
  only := by simpa using honly
  cells := fun u hu => by simpa [hu] using h.cells u hu

theorem Within.setHead (h : Within c d kv₀ kv) {head : Nat} (hle : head ≤ c.kvSize) :
    Within c d kv₀ (kv.setHead (c.seqToStream d) head) :=
  { h with
    head_le := by simpa using hle }

theorem Within.pass (h : Within c d kv₀ kv) {P : KvCell → Prop}
    {act : KvCells → Nat → KvCells × Bool} {f : KvCell → KvCell} (hact : Acts P act f)
    (hf : ∀ x, (f x).seq ⊆ x.seq) : Within c d kv₀ (kv.pass (c.seqToStream d) act) := by
  have hset := h.setCells ((KvCells.sweep_size hact (kv.vCells (c.seqToStream d))).trans h.size)
    fun i hi s hs => by
      have hcell := KvCells.sweep_cell hact (kv.vCells (c.seqToStream d)) i
      rw [if_pos (h.size.symm ▸ hi)] at hcell
      rw [← KvCells.cell_seq, hcell] at hs
      exact h.only i hi s (hf _ hs)
  unfold KvCache.pass KvCache.lowerHead
  dsimp only
  split
  · rename_i hlt
    exact hset.setHead (Nat.le_trans (Nat.le_of_lt hlt.2) hset.head_le)
  · exact hset

theorem Within.seqRm (h : Within c d kv₀ kv) {p0 p1 : Int} {ok : Bool}
    (hrun : kv.seqRm c (some d) p0 p1 = some (kv', ok)) : Within c d kv₀ kv' := by
  rcases seqRm_cases hrun with ⟨rfl, -⟩ | ⟨-, -, -, rfl⟩
  · exact h
  · exact h.pass (acts_seqRm_onSeq d (rangeLo p0) (rangeHi p1)) (guarded_subset fun x => seqRm_subset d x)

/-! ## Placing -/

theorem mem_of_seqGet {cells : KvCells} {i : Nat} {s : SeqId} (h : cells.seqGet i = some s) : s ∈ cells.seq i := by
  unfold KvCells.seqGet at h
  simpa using find?_some h

variable {n : Nat}

variable (c d kv₀) in
/-- While the tokens are placed: no position of another sequence is noted. -/
structure PlacingWithin (σ : Placing) : Prop where
  within : Within c d kv₀ σ.kv
  maxRm : ∀ s ≠ d, σ.maxRm s = -1

theorem PlacingWithin.evict {σ : Placing} (h : PlacingWithin c d kv₀ σ) {idx : Nat}
    (hidx : idx < c.kvSize) : PlacingWithin c d kv₀ (evict σ (c.seqToStream d) idx) := by
  unfold KvCache.evict
  dsimp only
  split
  · exact h
  refine ⟨h.within.setCells h.within.size fun i hi s hs => ?_, fun s hs => ?_⟩
  · rw [KvCells.rm_seq] at hs
    split at hs
    · exact absurd hs (Finset.notMem_empty s)
    · exact h.within.only i hi s hs
  · dsimp only
    cases hget : (σ.kv.vCells (c.seqToStream d)).seqGet idx with
    | none => exact h.maxRm s hs
    | some s' =>
      obtain rfl : s' = d := h.within.only idx hidx s' (mem_of_seqGet hget)
      exact (Function.update_of_ne hs _ _).trans (h.maxRm s hs)

theorem PlacingWithin.placeToken {σ : Placing} (h : PlacingWithin c d kv₀ σ) {τ : Target}
    (hstrm : τ.strm = c.seqToStream d) (hidx : τ.idx < c.kvSize)
    (hids : ∀ s ∈ ubatch.seqId τ.i, s = d) : PlacingWithin c d kv₀ (placeToken c ubatch σ τ) := by
  have hev := h.evict hidx
  unfold KvCache.placeToken
  rw [hstrm]
  refine ⟨hev.within.setCells ((writeToken_size ..).trans hev.within.size) fun i hi s hs => ?_, hev.maxRm⟩
  have hrw := rewrites_writeToken c ubatch τ.i
    ((KvCache.evict σ (c.seqToStream d) τ.idx).kv.vCells (c.seqToStream d)) τ.idx
  by_cases hi' : i = τ.idx
  · subst hi'
    rw [← KvCells.cell_seq, hrw.here] at hs
    rcases Finset.mem_union.mp hs with hs | hs
    · exact hev.within.only _ hi s hs
    · exact hids s (List.mem_toFinset.mp hs)
  · rw [← KvCells.cell_seq, hrw.elsewhere i hi'] at hs
    exact hev.within.only i hi s hs

theorem PlacingWithin.placeTokens {σ : Placing} (h : PlacingWithin c d kv₀ σ) {τs : List Target}
    (hτs : ∀ τ ∈ τs, τ.strm = c.seqToStream d ∧ τ.idx < c.kvSize ∧ ∀ s ∈ ubatch.seqId τ.i, s = d) :
    PlacingWithin c d kv₀ (τs.foldl (KvCache.placeToken c ubatch) σ) := by
  induction τs generalizing σ with
  | nil => exact h
  | cons τ τs ih =>
    obtain ⟨hstrm, hidx, hids⟩ := hτs τ mem_cons_self
    exact ih (h.placeToken hstrm hidx hids) fun τ' hτ' => hτs τ' (mem_cons_of_mem _ hτ')

theorem Within.purgeSeq (h : Within c d kv₀ kv) {m : SeqId → Int} (hm : ∀ s ≠ d, m s = -1) {s : SeqId}
    (hrun : purgeSeq c m kv s = some kv') : Within c d kv₀ kv' := by
  unfold KvCache.purgeSeq at hrun
  split_ifs at hrun with hnone hstrm hmin
  · exact some.inj hrun ▸ h
  · obtain rfl : s = d := by
      by_contra hs
      exact hnone (hm s hs)
    split at hrun
    · rename_i kv'' hrm
      obtain rfl := some.inj hrun
      exact h.seqRm hrm
    · exact absurd hrun (by simp)
  · exact some.inj hrun ▸ h

/-! ## The slot of a restored sequence -/

/-- A slot in the stream of `d` alone. -/
structure OneStream (c : KvConfig) (d : SeqId) (n : Nat) (sinfo : SlotInfo) (idxs : List Nat) : Prop where
  strm : sinfo.strm = [c.seqToStream d]
  idxs_eq : sinfo.idxs = [idxs]
  length : idxs.length = n
  lt : ∀ idx ∈ idxs, idx < c.kvSize

namespace OneStream

variable {n : Nat} {idxs : List Nat} (h : OneStream c d n sinfo idxs)

include h

theorem targets_eq : sinfo.targets = (List.range n).map fun ii => ⟨c.seqToStream d, ii, idxs.getD ii 0⟩ := by
  simp [SlotInfo.targets, SlotInfo.slots, SlotInfo.size, h.strm, h.idxs_eq, h.length]

theorem mem_targets {τ : Target} (hτ : τ ∈ sinfo.targets) :
    τ.strm = c.seqToStream d ∧ τ.idx < c.kvSize ∧ τ.i < n := by
  rw [h.targets_eq] at hτ
  obtain ⟨ii, hii, rfl⟩ := List.mem_map.mp hτ
  have hii := mem_range.mp hii
  have hlt : ii < idxs.length := h.length.symm ▸ hii
  refine ⟨rfl, h.lt _ ?_, hii⟩
  rw [getD_eq_getElem _ _ hlt]
  exact getElem_mem hlt

end OneStream

theorem restoreUbatch_seqIdUnq (cells : List (Int × KvCellExt)) : (restoreUbatch c d cells).seqIdUnq = [d] := rfl

theorem nSeqs_restoreUbatch (cells : List (Int × KvCellExt)) : nSeqs c (restoreUbatch c d cells) = 1 := by
  simp [nSeqs, restoreUbatch, LlamaUbatch.reserve]

theorem tokensPerStream_restoreUbatch (cells : List (Int × KvCellExt)) :
    tokensPerStream c (restoreUbatch c d cells) = cells.length := by
  unfold tokensPerStream
  rw [nSeqs_restoreUbatch]
  simp [restoreUbatch, LlamaUbatch.reserve]

theorem oneStream_of_findSlot (h : Alone c d kv) {cells : List (Int × KvCellExt)} (hne : cells ≠ [])
    (hrun : kv.findSlot c (restoreUbatch c d cells) false = some sinfo)
    (hsome : sinfo.isEmpty = false) :
    ∃ idxs, OneStream c d cells.length sinfo idxs ∧ Offers c (kv.vCells (c.seqToStream d))
      (groupPos c (restoreUbatch c d cells) 0) idxs := by
  obtain ⟨hall, hstrm⟩ := findSlot_spec hrun hsome
  have hgroup : groupStrm c (restoreUbatch c d cells) 0 = c.seqToStream d := by
    simp [groupStrm, restoreUbatch_seqIdUnq]
  rw [nSeqs_restoreUbatch] at hall hstrm
  rw [range_one, map_singleton, hgroup] at hstrm
  rw [range_one] at hall
  obtain ⟨idxs, rest, hslot, hrest, hidxs⟩ := forall₂_cons_left_iff.mp hall
  obtain rfl := forall₂_nil_left_iff.mp hrest
  rw [hgroup] at hslot
  have hlen : (groupPos c (restoreUbatch c d cells) 0).length = cells.length := by
    rw [groupPos_length, tokensPerStream_restoreUbatch]
  have hoffers := streamSlot_offers (h.size.symm ▸ h.head_le) (fun hnil => ?_) hslot
  · exact ⟨idxs, ⟨hstrm, hidxs, hoffers.length.trans hlen, fun idx hidx =>
      h.size ▸ (hoffers.usable idx hidx).1⟩, hoffers⟩
  · rw [hnil] at hlen
    exact hne (length_eq_zero_iff.mp hlen.symm)

theorem Within.applyUbatch (h : Within c d kv₀ kv) {idxs : List Nat} (hslot : OneStream c d n sinfo idxs)
    (hids : ∀ i < n, ∀ s ∈ ubatch.seqId i, s = d) (hn : n ≠ 0)
    (hrun : kv.applyUbatch c sinfo ubatch = some kv') : Within c d kv₀ kv' := by
  unfold KvCache.applyUbatch at hrun
  split_ifs at hrun
  · exact some.inj hrun ▸ h
  obtain ⟨kv₂, hpurge, rfl⟩ := map_eq_some_iff.mp hrun
  have hplaced : PlacingWithin c d kv₀ (sinfo.targets.foldl (placeToken c ubatch) ⟨kv, fun _ => -1⟩) :=
    PlacingWithin.placeTokens ⟨h, fun _ _ => rfl⟩ fun τ hτ => by
      obtain ⟨hstrm, hidx, hi⟩ := hslot.mem_targets hτ
      exact ⟨hstrm, hidx, hids τ.i hi⟩
  have hpurged : Within c d kv₀ kv₂ := Loops.foldlM_inv hplaced.within
    (fun s _ kv kv' hkv hone => hkv.purgeSeq hplaced.maxRm hone) hpurge
  -- the head of the stream moves behind the last cell
  have hlast : idxs.getLastD 0 + 1 ≤ c.kvSize := by
    have hne : idxs ≠ [] := by
      rintro rfl
      exact hn hslot.length.symm
    rw [getLastD_eq_getLast?, getLast?_eq_some_getLast hne]
    exact hslot.lt _ (getLast_mem hne)
  have hheads : advanceHeads sinfo kv₂ = kv₂.setHead (c.seqToStream d) (idxs.getLastD 0 + 1) := by
    simp [advanceHeads, SlotInfo.slots, hslot.strm, hslot.idxs_eq]
  rw [hheads]
  exact hpurged.setHead hlast

/-! ## The metadata -/

theorem length_of_readSeqCells {σ : Type} {s s' : Input σ} {cells : List (Int × KvCellExt)}
    (h : readSeqCells c n s = .ok (some cells) s') : cells.length = n := by
  induction n generalizing s s' cells with
  | zero =>
    obtain ⟨rfl, -⟩ : [] = cells ∧ s = s' := by simpa [readSeqCells] using h
    rfl
  | succ n ih =>
    unfold readSeqCells at h
    obtain ⟨pos, s₁, -, h⟩ := bind_eq_ok.mp h
    obtain ⟨nSeqId, s₂, -, h⟩ := bind_eq_ok.mp h
    split at h
    · simp at h
    obtain ⟨e, s₃, -, h⟩ := bind_eq_ok.mp h
    obtain ⟨_, s₄, -, h⟩ := bind_eq_ok.mp h
    obtain ⟨rest, s₅, hrest, h⟩ := bind_eq_ok.mp h
    cases rest with
    | none => simp at h
    | some rest =>
      obtain ⟨rfl, -⟩ : (pos, e) :: rest = cells ∧ s₅ = s' := by simpa using h
      rw [length_cons, ih hrest]

theorem keeps_dropSeq : Keeps (Within c d kv₀) (dropSeq c d) := by
  refine Readers.keeps_getSt.bind fun s a s' hs hrun _ => ?_
  obtain ⟨rfl, rfl⟩ : s.st = a ∧ s = s' := by simpa using hrun
  cases hrm : s.st.seqRm c (some d) (-1) (-1) with
  | none => exact hs
  | some r => exact Within.seqRm hs hrm

theorem keeps_readMetaSeq (strm : Nat) (hn : n ≠ 0) : Keeps (Within c d kv₀) (readMetaSeq c strm n d) := by
  refine keeps_dropSeq.seq fun _ => (quiet_readSeqCells n).keeps.bind fun s cells? s' hs hread hs' => ?_
  cases cells? with
  | none => exact hs'
  | some cells =>
    have hlen := length_of_readSeqCells hread
    have hne : cells ≠ [] := by
      rintro rfl
      exact hn hlen.symm
    -- the placement depends on the cache alone
    refine Readers.keeps_getSt.bind (P := Within c d kv₀) (fun s₁ kv s₂ hs₁ hget _ => ?_) s' hs'
    obtain ⟨rfl, rfl⟩ : s₁.st = kv ∧ s₁ = s₂ := by simpa using hget
    cases hfind : s₁.st.findSlot c (restoreUbatch c d cells) false with
    | none => exact hs₁
    | some sinfo =>
      dsimp only
      cases hsome : sinfo.isEmpty with
      | true => exact hs₁
      | false =>
        cases happly : s₁.st.applyUbatch c sinfo (restoreUbatch c d cells) with
        | none => exact hs₁
        | some kv' =>
          obtain ⟨idxs, hslot, -⟩ := oneStream_of_findSlot hs₁.toAlone hne hfind hsome
          have hkv' : Within c d kv₀ kv' := hs₁.applyUbatch hslot (fun i hi s hs => by
            simpa [restoreUbatch, hi] using hs) (hlen ▸ hn) happly
          exact (Readers.keeps_setSt hkv').seq
            (fun _ => Keeps.ite (Readers.keeps_pure _) Readers.keeps_aborting) s₁ hs₁

/-! ## The tensors -/

/-- Only tensors of stream `t` may differ from `data₀`. -/
def DataWithin (t : Nat) (data₀ data : KvData) : Prop := ∀ tensor, tensor.strm ≠ t → data tensor = data₀ tensor

section Data

variable {t : Nat} {data₀ : KvData}

theorem keeps_readTensor (kind : KvTensorKind) (layer offset size : Nat) :
    Keeps (DataWithin t data₀) (readTensor ⟨kind, layer, t⟩ offset size) :=
  (Readers.keeps_take size).seq fun bytes => Readers.keeps_modifySt fun data h tensor ht => by
    rw [← h tensor ht]
    funext j
    refine if_neg fun hj => ht ?_
    rw [hj.1]

theorem keeps_readRows (n : Nat) (sinfo : SlotInfo) (kind : KvTensorKind) (layer size : Nat) :
    Keeps (DataWithin t data₀) (readRows n sinfo ⟨kind, layer, t⟩ size) :=
  .ite (keeps_readTensor _ _ _ _) (.forM _ fun _ _ => keeps_readTensor _ _ _ _)

theorem keeps_expectLE (k v : Nat) {x : Reader KvData Bool} (hx : Keeps (DataWithin t data₀) x) :
    Keeps (DataWithin t data₀) (Readers.expectLE k v x) :=
  (Readers.keeps_takeLE k).seq fun _ => .ite (Readers.keeps_pure _) hx

theorem keeps_readRow (n : Nat) (sinfo : SlotInfo) (kind : KvTensorKind) (layer : Nat) (row : KvRow) :
    Keeps (DataWithin t data₀) (readRow n sinfo ⟨kind, layer, t⟩ row) :=
  keeps_expectLE _ _ (keeps_expectLE _ _ ((keeps_readRows _ _ _ _ _).seq fun _ => Readers.keeps_pure _))

theorem keeps_readKeyIdx (n : Nat) (sinfo : SlotInfo) (layer : KvLayer × Nat) :
    Keeps (DataWithin t data₀) (readKeyIdx t n sinfo layer) := by
  unfold readKeyIdx
  split
  · exact keeps_expectLE _ _ (Readers.keeps_pure _)
  · exact keeps_expectLE _ _ (keeps_readRow _ _ _ _ _)

theorem keeps_readValue (n : Nat) (sinfo : SlotInfo) (layer : KvLayer × Nat) :
    Keeps (DataWithin t data₀) (readValue t n sinfo layer) := by
  unfold readValue
  split
  · exact Readers.keeps_pure _
  · exact keeps_readRow _ _ _ _ _

theorem keeps_readValueTrans (kvSize n : Nat) (sinfo : SlotInfo) (layer : KvLayer × Nat) :
    Keeps (DataWithin t data₀) (readValueTrans kvSize t n sinfo layer) := by
  unfold readValueTrans
  split
  · exact Readers.keeps_pure _
  · refine keeps_expectLE _ _ (keeps_expectLE _ _ (keeps_expectLE _ _ ?_))
    exact (Keeps.forM _ fun _ _ => .ite (keeps_readTensor _ _ _ _) (.forM _ fun _ _ => keeps_readTensor _ _ _ _)).seq
      fun _ => Readers.keeps_pure _

theorem keeps_readData (n : Nat) (sinfo : SlotInfo) : Keeps (DataWithin t data₀) (readData c L t n sinfo) := by
  refine (Readers.keeps_takeLE 4).seq fun _ => (Readers.keeps_takeLE 4).seq fun _ =>
    .ite (Readers.keeps_pure _) (.ite (Readers.keeps_pure _) (.ite (Readers.keeps_pure _) ?_))
  refine .both (.allM _ fun _ _ => keeps_readRow _ _ _ _ _) (.both (.ite ?_ (Readers.keeps_pure _)) (.ite ?_ ?_))
  · exact keeps_expectLE _ _ (.allM _ fun _ _ => keeps_readKeyIdx _ _ _)
  · exact .allM _ fun _ _ => keeps_readValueTrans _ _ _ _
  · exact .allM _ fun _ _ => keeps_readValue _ _ _

end Data

/-! ## The whole restore -/

variable (c d) in
/-- Only the stream of `d` may differ from `σ₀`, in cells and in tensors. -/
structure StateWithin (σ₀ σ : KvState) : Prop where
  cache : Within c d σ₀.cache σ.cache
  data : DataWithin (c.seqToStream d) σ₀.data σ.data

variable {σ₀ : KvState}

theorem keeps_onCache {α : Type} {x : Reader KvCache α} (hx : Keeps (Within c d σ₀.cache) x) :
    Keeps (StateWithin c d σ₀) (onCache x) :=
  hx.zoom (fun _ h => h.cache) fun _ _ h hcache => ⟨hcache, h.data⟩

theorem keeps_onData {α : Type} {x : Reader KvData α}
    (hx : Keeps (DataWithin (c.seqToStream d) σ₀.data) x) : Keeps (StateWithin c d σ₀) (onData x) :=
  hx.zoom (fun _ h => h.data) fun _ _ h hdata => ⟨h.cache, hdata⟩

theorem keeps_readStream (t : Nat) : Keeps (StateWithin c d σ₀) (readStream c L (some d) t) := by
  refine (Readers.keeps_takeLE 4).seq fun n => ?_
  by_cases hn : n = 0
  · rw [if_pos hn]
    exact Readers.keeps_pure ()
  rw [if_neg hn]
  refine (keeps_onCache (keeps_readMetaSeq _ hn)).seq fun sinfo? => ?_
  have hrest : ∀ ok : Bool, Keeps (StateWithin c d σ₀) (if ok then (pure () : Reader KvState Unit) else do
      cleanup c (some d)
      Readers.throwing) := fun ok =>
    .ite (Readers.keeps_pure ()) ((keeps_onCache keeps_dropSeq).seq fun _ => Readers.keeps_throwing)
  cases sinfo? with
  | none => exact (Readers.keeps_pure false).seq hrest
  | some sinfo => exact (Keeps.orFalse (keeps_onData (keeps_readData n sinfo))).seq hrest

/-- A restore of `d` stays within the stream of `d`, whatever it reads and however it ends. -/
theorem keeps_stateRead : Keeps (StateWithin c d σ₀) (stateRead c L (some d)) := by
  unfold stateRead
  split
  · exact Readers.keeps_pure ()
  split
  · exact Readers.keeps_aborting
  refine (Readers.keeps_takeLE 4).seq fun _ => .ite Readers.keeps_throwing ?_
  rw [if_neg (by simp)]
  exact .forM _ fun t _ => keeps_readStream t

end LlamaCpp.KvCache
