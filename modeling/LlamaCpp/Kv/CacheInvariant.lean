import LlamaCpp.Kv.CellView

/-!
# The invariant of the cache

`KvCache.Inv` says that every stream is a well kept table of the common size, that the
heads are not past the end, and that a stream holds only the sequences mapped to it.

The operations that make one pass keep it by `Inv.pass` and `Inv.setSweep`: the loop
body keeps the table (`Acts`), and the cells gain no sequence of another stream.
-/

namespace LlamaCpp.KvCache

open Option Function Finset

open KvCells (Acts Rep)

/-- Cell `i` of stream `t`. -/
def cell (kv : KvCache) (t i : Nat) : KvCell := (kv.vCells t).cell i

structure Inv (c : KvConfig) (kv : KvCache) : Prop where
  /-- The streams have the size of the cache. -/
  size : ∀ t, (kv.vCells t).size = c.kvSize
  /-- The indexes of every stream agree with its cells. -/
  rep : ∀ t, Rep (kv.vCells t)
  /-- No head is past the end. -/
  head_le : ∀ t, kv.vHeads t ≤ c.kvSize
  /-- A stream holds only its own sequences. -/
  owner : ∀ t, ∀ i < c.kvSize, ∀ s ∈ (kv.vCells t).seq i, c.seqToStream s = t

variable {c : KvConfig} {kv : KvCache} {p0 p1 : Int} {kv' : KvCache} {s d : SeqId}

theorem inv_init : (init c).Inv c where
  size := fun _ => rfl
  rep := fun _ => KvCells.rep_resize _ _
  head_le := fun _ => Nat.zero_le _
  owner := fun _ _ _ s hs => absurd hs (notMem_empty s)

/-! ## One stream at a time -/

theorem Inv.setCells (h : kv.Inv c) {t : Nat} {cells : KvCells} (hsize : cells.size = c.kvSize)
    (hrep : Rep cells) (howner : ∀ i < c.kvSize, ∀ s ∈ cells.seq i, c.seqToStream s = t) :
    (kv.setCells t cells).Inv c where
  size := by
    intro u
    rw [setCells_vCells, update_apply]
    split
    · exact hsize
    · exact h.size u
  rep := by
    intro u
    rw [setCells_vCells, update_apply]
    split
    · exact hrep
    · exact h.rep u
  head_le := h.head_le
  owner := by
    intro u
    rw [setCells_vCells, update_apply]
    split
    · rename_i hu
      exact hu ▸ howner
    · exact h.owner u

theorem Inv.setHead (h : kv.Inv c) {t head : Nat} (hle : head ≤ c.kvSize) : (kv.setHead t head).Inv c where
  size := h.size
  rep := h.rep
  head_le := by
    intro u
    rw [setHead_vHeads, update_apply]
    split
    · exact hle
    · exact h.head_le u
  owner := h.owner

theorem Inv.lowerHead (h : kv.Inv c) (t newHead : Nat) : (kv.lowerHead t newHead).Inv c := by
  unfold KvCache.lowerHead
  split
  · rename_i hlt
    exact h.setHead (Nat.le_trans (Nat.le_of_lt hlt.2) (h.head_le t))
  · exact h

@[simp] theorem lowerHead_vCells (kv : KvCache) (t newHead : Nat) : (kv.lowerHead t newHead).vCells = kv.vCells := by
  unfold KvCache.lowerHead
  split <;> rfl

theorem lowerHead_vHeads_of_ne (kv : KvCache) {t u : Nat} (newHead : Nat) (hu : u ≠ t) :
    (kv.lowerHead t newHead).vHeads u = kv.vHeads u := by
  unfold KvCache.lowerHead
  split
  · simp [hu]
  · rfl

section Pass

variable {P : KvCell → Prop} {act : KvCells → Nat → KvCells × Bool} {f : KvCell → KvCell}

/-- A pass that gives the cells of stream `t` only sequences of that stream. -/
theorem Inv.setSweep (h : kv.Inv c) (hact : Acts P act f) {t : Nat}
    (hP : ∀ i < c.kvSize, P (kv.cell t i))
    (hf : ∀ x : KvCell, ∀ s ∈ (f x).seq, s ∈ x.seq ∨ c.seqToStream s = t) :
    (kv.setCells t ((kv.vCells t).sweep act).1).Inv c := by
  have hsize := h.size t
  refine h.setCells ((KvCells.sweep_size hact _).trans hsize)
    (KvCells.rep_sweep hact (h.rep t) (hsize.symm ▸ hP)) fun i hi s hs => ?_
  have hcell := KvCells.sweep_cell hact (kv.vCells t) i
  rw [if_pos (hsize.symm ▸ hi)] at hcell
  rw [← KvCells.cell_seq, hcell] at hs
  rcases hf _ s hs with hs | hs
  · exact h.owner t i hi s hs
  · exact hs

theorem Inv.pass (h : kv.Inv c) (hact : Acts P act f) {t : Nat}
    (hP : ∀ i < c.kvSize, P (kv.cell t i)) (hf : ∀ x, (f x).seq ⊆ x.seq) :
    (kv.pass t act).Inv c :=
  (h.setSweep hact hP fun _ _ hs => .inl (hf _ hs)).lowerHead t _

theorem pass_cell (hact : Acts P act f) (kv : KvCache) (t u i : Nat) :
    (kv.pass t act).cell u i = if u = t ∧ i < (kv.vCells t).size then f (kv.cell u i) else kv.cell u i := by
  simp only [cell, KvCache.pass, lowerHead_vCells, setCells_vCells]
  by_cases hu : u = t
  · subst hu
    simp only [update_self, KvCells.sweep_cell hact, true_and]
  · simp [hu]

theorem pass_vHeads_of_ne (kv : KvCache) {t u : Nat} (hu : u ≠ t) : (kv.pass t act).vHeads u = kv.vHeads u :=
  lowerHead_vHeads_of_ne _ _ hu

end Pass

/-! ## Cells only lose sequences -/

theorem seqRm_subset (s : SeqId) (x : KvCell) : (x.seqRm s).seq ⊆ x.seq := by
  unfold KvCell.seqRm
  split
  · exact empty_subset _
  · exact erase_subset _ _

theorem seqKeep_subset (s : SeqId) (x : KvCell) : (x.seqKeep s).seq ⊆ x.seq := by
  unfold KvCell.seqKeep
  split_ifs with hs
  · exact singleton_subset_iff.mpr hs
  · exact empty_subset _
  · exact Finset.Subset.refl _

theorem posAdd_subset (d : Int) (x : KvCell) : (x.posAdd d).seq ⊆ x.seq := by
  unfold KvCell.posAdd
  split
  · exact empty_subset _
  · exact Finset.Subset.refl _

/-- What a guarded loop body takes from a cell it also takes behind the guard. -/
theorem guarded_subset {G : KvCell → Prop} [DecidablePred G] {f : KvCell → KvCell}
    (hf : ∀ x, (f x).seq ⊆ x.seq) (x : KvCell) : (if G x then f x else x).seq ⊆ x.seq := by
  split
  · exact hf x
  · exact Finset.Subset.refl _

/-! ## The operations -/

/-- A loop over the streams keeps what its steps keep. -/
theorem Inv.foldl (h : kv.Inv c) {step : KvCache → Nat → KvCache} (ts : List Nat)
    (hstep : ∀ kv t, Inv c kv → (step kv t).Inv c) : (ts.foldl step kv).Inv c := by
  induction ts generalizing kv with
  | nil => exact h
  | cons t ts ih => exact ih (hstep kv t h)

theorem Inv.clear (h : kv.Inv c) : (kv.clear c).Inv c := by
  refine h.foldl _ fun kv t h => (h.setCells ?_ (KvCells.rep_reset _) ?_).setHead (Nat.zero_le _)
  · exact h.size t
  · intro i _ s hs
    exact absurd hs (notMem_empty s)

theorem acts_rmRange (p0 p1 : Int) (hp0 : 0 ≤ p0) :
    Acts (fun _ => True) (rmRange p0 p1)
      (fun x => if p0 ≤ x.pos ∧ x.pos < p1 then .blank else x) := by
  have hrm : Acts (fun x => x.pos ≠ -1) (fun kv i => (kv.rm i, true)) (fun _ => .blank) :=
    { size := fun kv i => KvCells.rm_size kv i
      rewrites := fun kv i => KvCells.rewrites_rm kv i
      rep := fun _ _ h hi _ => KvCells.rep_rm h hi }
  have hg := hrm.guarded (G := fun x => p0 ≤ x.pos ∧ x.pos < p1)
    (fun kv i => kv.posIn i p0 p1 = true) fun kv i => by simp [KvCells.posIn]
  exact ⟨hg.size, hg.rewrites, fun kv i h hi _ => hg.rep kv i h hi fun hr => by omega⟩

theorem acts_seqRm_onSeq (s : SeqId) (p0 p1 : Int) :
    Acts (fun _ => True) (KvCells.onSeq s p0 p1 fun cells i => cells.seqRm i s)
      (fun x => if x.OnSeq s p0 p1 then x.seqRm s else x) :=
  have h := (KvCells.acts_seqRm s).onSeq s p0 p1
  ⟨h.size, h.rewrites, fun kv i hrep hi _ => h.rep kv i hrep hi fun hon => hon.2⟩

theorem Inv.rmCells (h : kv.Inv c) (seqId : Option SeqId) (hp0 : 0 ≤ p0) : (kv.rmCells c seqId p0 p1).Inv c := by
  cases seqId with
  | some s =>
    exact h.pass (acts_seqRm_onSeq s p0 p1) (fun _ _ => trivial)
      (guarded_subset fun x => seqRm_subset s x)
  | none =>
    exact h.foldl _ fun kv t h => h.pass (acts_rmRange p0 p1 hp0) (fun _ _ => trivial)
      (guarded_subset fun _ => empty_subset _)

theorem rangeLo_nonneg (p0 : Int) : 0 ≤ rangeLo p0 := by
  unfold rangeLo
  split <;> omega

/-- A removal that returns leaves the cache alone, because there is nothing to remove or
it is rejected, or it removes the cells. -/
theorem seqRm_cases {seqId : Option SeqId} {ok : Bool} (hrun : kv.seqRm c seqId p0 p1 = some (kv', ok)) :
    (kv' = kv ∧ (c.shared = true ∨ rangeHi p1 ≤ rangeLo p0 ∨ ok = false)) ∨
      (c.shared = false ∧ ok = true ∧ kv.msaRejects c seqId (rangeLo p0) (rangeHi p1) = false ∧
        kv' = kv.rmCells c seqId (rangeLo p0) (rangeHi p1)) := by
  unfold KvCache.seqRm at hrun
  split_ifs at hrun with hsh hstrm hrange hmsa <;>
    obtain ⟨hkv, hok⟩ := Prod.mk.inj (some.inj hrun)
  · exact .inl ⟨hkv.symm, .inl hsh⟩
  · exact .inl ⟨hkv.symm, .inr (.inl hrange)⟩
  · exact .inl ⟨hkv.symm, .inr (.inr hok.symm)⟩
  · exact .inr ⟨by simpa using hsh, hok.symm, by simpa using hmsa, hkv.symm⟩

theorem Inv.seqRm (h : kv.Inv c) {seqId : Option SeqId} {ok : Bool}
    (hrun : kv.seqRm c seqId p0 p1 = some (kv', ok)) : kv'.Inv c := by
  rcases seqRm_cases hrun with ⟨rfl, -⟩ | ⟨-, -, -, rfl⟩
  · exact h
  · exact h.rmCells seqId (rangeLo_nonneg p0)

theorem Inv.seqKeep (h : kv.Inv c) (hrun : kv.seqKeep c s = some kv') : kv'.Inv c := by
  unfold KvCache.seqKeep at hrun
  split_ifs at hrun
  · exact some.inj hrun ▸ h
  · exact some.inj hrun ▸
      h.pass (KvCells.acts_seqKeep s) (fun _ _ => trivial) (seqKeep_subset s)

theorem Inv.seqAdd (h : kv.Inv c) {shift : Int} (hrun : kv.seqAdd c s p0 p1 shift = some kv') : kv'.Inv c := by
  unfold KvCache.seqAdd at hrun
  split_ifs at hrun
  · exact some.inj hrun ▸ h
  · exact some.inj hrun ▸ h
  · have hact := (KvCells.acts_posAdd shift).onSeq s (rangeLo p0) (rangeHi p1)
    have hle := KvCells.sweep_snd_le (KvCells.onSeq s (rangeLo p0) (rangeHi p1)
      fun cells i => cells.posAdd i shift) (kv.vCells (c.seqToStream s))
    rw [h.size] at hle
    obtain rfl := some.inj hrun
    refine (h.setSweep hact (fun i hi hon => ?_) fun x s' hs' => .inl ?_).setHead ?_
    · have := rangeLo_nonneg p0
      have := hon.1.1
      omega
    · exact guarded_subset (posAdd_subset shift) x hs'
    · split <;> omega

theorem Inv.seqDiv (h : kv.Inv c) {d : Int} (hd : 1 ≤ d) (hrun : kv.seqDiv c s p0 p1 d = some kv') : kv'.Inv c := by
  unfold KvCache.seqDiv at hrun
  split_ifs at hrun
  · exact some.inj hrun ▸ h
  · exact some.inj hrun ▸ h
  · have hact := (KvCells.acts_posDiv hd).onSeq s (rangeLo p0) (rangeHi p1)
    obtain rfl := some.inj hrun
    refine h.setSweep hact (fun i hi hon => ?_) fun x s' hs' => .inl ?_
    · have := rangeLo_nonneg p0
      have := hon.1.1
      omega
    · exact guarded_subset (f := KvCell.posDiv d) (fun _ => Finset.Subset.refl _) x hs'

theorem Inv.resetShift (h : kv.Inv c) (t : Nat) : (kv.setCells t (kv.vCells t).resetShift).Inv c :=
  h.setCells (h.size t) (KvCells.rep_resetShift (h.rep t)) (h.owner t)

theorem Inv.update (h : kv.Inv c) {computed : Bool} (hrun : kv.update c computed = some kv') : kv'.Inv c := by
  have h' : Inv c { kv with scInfo := [] } := ⟨h.size, h.rep, h.head_le, h.owner⟩
  unfold KvCache.update at hrun
  split_ifs at hrun
  · exact some.inj hrun ▸ h'
  · exact some.inj hrun ▸ h'.foldl _ fun kv t h => h.resetShift t
  · exact some.inj hrun ▸ h'

/-! ## `seq_cp` -/

/-- The preconditions that a copy of `s` to `d` asserts: in one stream no copied cell
belongs to `d` already, and between streams no position was shifted from below zero. -/
def CopyOk (c : KvConfig) (kv : KvCache) (s d : SeqId) (p0 p1 : Int) : Prop :=
  ∀ i < c.kvSize,
    if c.seqToStream s = c.seqToStream d then
      s ≠ d → (kv.cell (c.seqToStream s) i).OnSeq s (rangeLo p0) (rangeHi p1) →
        d ∉ (kv.cell (c.seqToStream s) i).seq
    else
      s ∈ (kv.cell (c.seqToStream s) i).seq →
        0 ≤ (kv.cell (c.seqToStream s) i).pos - (kv.cell (c.seqToStream s) i).shift

/-- Half-way through a copy between streams: the cells hold at most `d`, and those from
`k` on are blank. -/
structure Copied (n : Nat) (d : SeqId) (k : Nat) (dst : KvCells) : Prop where
  size : dst.size = n
  rep : Rep dst
  seq : ∀ i, dst.seq i ⊆ {d}
  blank : ∀ i, k ≤ i → dst.cell i = .blank

theorem copied_reset {kv : KvCells} {n : Nat} (hsize : kv.size = n) (d : SeqId) : Copied n d 0 kv.reset where
  size := hsize
  rep := KvCells.rep_reset kv
  seq := fun _ => empty_subset _
  blank := fun _ _ => rfl

/-- A table that differs from `dst` in cell `k` alone, where it holds at most `d`. -/
theorem Copied.advance {n k : Nat} {dst dst' : KvCells} {f : KvCell → KvCell} (h : Copied n d k dst)
    (hsize : dst'.size = dst.size) (hrep : Rep dst') (hrw : KvCells.Rewrites k f dst dst')
    (hseq : (f .blank).seq ⊆ {d}) : Copied n d (k + 1) dst' where
  size := hsize.trans h.size
  rep := hrep
  seq := by
    intro i
    by_cases hi : i = k
    · subst hi
      rw [← KvCells.cell_seq, hrw.here, h.blank i le_rfl]
      exact hseq
    · rw [← KvCells.cell_seq, hrw.elsewhere i hi]
      exact h.seq i
  blank := by
    intro i hi
    rw [hrw.elsewhere i (by omega)]
    exact h.blank i (by omega)

theorem copied_copyCell {src dst : KvCells} {n k : Nat} (hk : k < n) (h : Copied n d k dst)
    (hpos : s ∈ src.seq k → 0 ≤ src.pos k - src.shift k) :
    Copied n d (k + 1) (copyCell src s d dst k) := by
  have hblank := h.blank k le_rfl
  have hk' : k < dst.size := h.size.symm ▸ hk
  unfold copyCell
  dsimp only
  split
  · rename_i hs
    have hs : s ∈ src.seq k := of_decide_eq_true hs
    have hp := hpos hs
    -- the new cell after `pos_set` and `seq_add`
    have hset : KvCells.Rewrites k (KvCell.seqAdd d ∘ KvCell.posSet (src.pos k - src.shift k)) dst
        ((dst.posSet k (src.pos k - src.shift k)).seqAdd k d) :=
      (KvCells.rewrites_posSet _ _ _).trans (KvCells.rewrites_seqAdd _ _ _)
    have hrep : Rep ((dst.posSet k (src.pos k - src.shift k)).seqAdd k d) := by
      refine KvCells.rep_seqAdd (KvCells.rep_posSet h.rep hk' (congrArg KvCell.pos hblank) hp) hk'
        (by simp; omega) ?_
      have : dst.seq k = ∅ := congrArg KvCell.seq hblank
      simp [this]
    split
    · refine h.advance (KvCells.posAdd_size ..) (KvCells.rep_extSet (KvCells.rep_posAdd hrep hk' ?_) _ _)
        ((hset.trans (KvCells.rewrites_posAdd _ _ _)).trans (KvCells.rewrites_extSet _ _ _)) ?_
      · simp
        omega
      · exact (posAdd_subset _ _).trans (by simp [KvCell.seqAdd, KvCell.posSet, KvCell.blank])
    · refine h.advance rfl (KvCells.rep_extSet hrep _ _)
        (hset.trans (KvCells.rewrites_extSet _ _ _)) ?_
      simp [KvCell.extSet, KvCell.seqAdd, KvCell.posSet, KvCell.blank]
  · exact h.advance rfl h.rep .rfl (empty_subset _)

theorem Inv.copyStream (h : kv.Inv c) (hpos : ∀ i < c.kvSize, s ∈ (kv.vCells (c.seqToStream s)).seq i →
      0 ≤ (kv.vCells (c.seqToStream s)).pos i - (kv.vCells (c.seqToStream s)).shift i) :
    (kv.copyStream c s d).Inv c := by
  have hcopied := Loops.foldl_range_inv (n := c.kvSize)
    (I := Copied c.kvSize d) (copied_reset (h.size (c.seqToStream d)) d)
    fun i hi dst hdst => copied_copyCell hi hdst (hpos i hi)
  rw [← h.size (c.seqToStream s)] at hcopied
  have h' := (h.setCells (t := c.seqToStream d) (by rw [hcopied.size, h.size]) hcopied.rep
    fun i _ s' hs' => by
      rw [mem_singleton.mp (hcopied.seq i hs')]).setHead (t := c.seqToStream d)
    (h.head_le (c.seqToStream s))
  exact ⟨h'.size, h'.rep, h'.head_le, h'.owner⟩

theorem Inv.seqCp (h : kv.Inv c) (hok : CopyOk c kv s d p0 p1) (hrun : kv.seqCp c s d p0 p1 = some kv') :
    kv'.Inv c := by
  unfold KvCache.seqCp at hrun
  split_ifs at hrun with hsh hrange hstrm hsd hfull
  · exact some.inj hrun ▸ h
  · exact some.inj hrun ▸ h
  · obtain rfl := some.inj hrun
    have hact := (KvCells.acts_seqAdd d).onSeq s (rangeLo p0) (rangeHi p1)
    refine h.setSweep hact (fun i hi hon => ?_) fun x s' hs' => ?_
    · have hd := hok i hi
      rw [if_pos hstrm] at hd
      have := rangeLo_nonneg p0
      have := hon.1.1
      exact ⟨by omega, hd hsd hon⟩
    · split at hs'
      · rcases mem_insert.mp hs' with rfl | hs'
        · exact .inr hstrm.symm
        · exact .inl hs'
      · exact .inl hs'
  · obtain rfl := some.inj hrun
    refine h.copyStream fun i hi hs => ?_
    have hd := hok i hi
    rw [if_neg hstrm] at hd
    exact hd hs

end LlamaCpp.KvCache
