import LlamaCpp.Kv.Placement

/-!
# What `prepare` leaves behind

`prepare` places the ubatches one after the other and then undoes the placements in
reverse order.  Undoing a placement writes the saved cells of its slot back and
nothing else (`rollback_cell`), so a cell comes back exactly if every purge that takes a
sequence from it happens in a placement that names the cell, or after one
(`CellSafe`).  A head comes back exactly if it equals the saved head that is written
over it (`HeadSafe`).

`placeAll_spec` proves both, by induction on the ubatches: the states behind the first
placement are undone down to the state `kv'` behind it, and the last undo turns that
into a state like `kv`.
-/

namespace LlamaCpp

open List Option

namespace KvCache

open KvCells (Rep)

variable {c : KvConfig} {kv kv₀ kv' : KvCache} {ubatch : LlamaUbatch} {sinfo : SlotInfo}

/-- The slot names cell `i` of stream `t`. -/
def SlotInfo.Has (sinfo : SlotInfo) (t i : Nat) : Prop :=
  ∃ slot ∈ sinfo.slots, slot.1 = t ∧ i ∈ slot.2

/-- Placing a ubatch in the slot purges cell `i` of stream `t`: one of its sequences
has a position overwritten that is not smaller. -/
def Purges (c : KvConfig) (kv : KvCache) (sinfo : SlotInfo) (t i : Nat) : Prop :=
  c.shared = false ∧ ∃ s ∈ (kv.cell t i).seq, ∃ j, sinfo.Has t j ∧ (kv.cell t j).seq = {s} ∧
    (kv.cell t i).pos ≤ (kv.cell t j).pos

/-- Along the placements of `prepare`, no purge reaches cell `i` of stream `t` before a
slot names the cell. -/
def CellSafe (c : KvConfig) (t i : Nat) : KvCache → List LlamaUbatch → Prop
  | _, [] => True
  | kv, u :: us => ∀ sinfo kv', kv.findSlot c u false = some sinfo → sinfo.isEmpty = false →
      kv.applyUbatch c sinfo u = some kv' →
      sinfo.Has t i ∨ (¬Purges c kv sinfo t i ∧ CellSafe c t i kv' us)

/-- The first slot of `prepare` that names stream `t` names it at an index whose head
equals the head of `t`. -/
def HeadSafe (c : KvConfig) (t : Nat) : KvCache → List LlamaUbatch → Prop
  | _, [] => True
  | kv, u :: us => ∀ sinfo kv', kv.findSlot c u false = some sinfo → sinfo.isEmpty = false →
      kv.applyUbatch c sinfo u = some kv' →
      (∀ s, sinfo.strm[s]? = some t → kv.vHeads s = kv.vHeads t) ∧
        (t ∉ sinfo.strm → HeadSafe c t kv' us)

/-! ## The cells of a slot -/

namespace Slot

variable (h : Slot c kv ubatch sinfo) (hu : UbatchOk c ubatch) {i t : Nat}

include h

theorem has_iff : sinfo.Has t i ↔ ∃ g < nSeqs c ubatch, groupStrm c ubatch g = t ∧ i ∈ sinfo.idxs.getD g [] := by
  unfold SlotInfo.Has
  rw [h.slots_eq]
  simp only [List.mem_map, mem_range]
  constructor
  · rintro ⟨_, ⟨g, hg, rfl⟩, ht, hi⟩
    exact ⟨g, hg, ht, hi⟩
  · rintro ⟨g, hg, ht, hi⟩
    exact ⟨_, ⟨g, hg, rfl⟩, ht, hi⟩

/-- The stream of a group is found under the index of the group. -/
theorem getElem?_strm {s : Nat} : sinfo.strm[s]? = some t ↔ s < nSeqs c ubatch ∧ groupStrm c ubatch s = t := by
  rw [h.strm, getElem?_map, map_eq_some_iff]
  constructor
  · rintro ⟨g, hg, rfl⟩
    obtain ⟨hlt, rfl⟩ := List.getElem?_eq_some_iff.mp hg
    rw [length_range] at hlt
    rw [getElem_range]
    exact ⟨hlt, rfl⟩
  · rintro ⟨hlt, rfl⟩
    exact ⟨s, getElem?_range hlt, rfl⟩

include hu

/-- The cells a slot names are the cells of its tokens. -/
theorem has_iff_target : sinfo.Has t i ↔ ∃ τ ∈ sinfo.targets, τ.strm = t ∧ τ.idx = i := by
  rw [h.has_iff]
  constructor
  · rintro ⟨g, hg, rfl, hi⟩
    obtain ⟨ii, hii, rfl⟩ := mem_iff_getElem.mp hi
    refine ⟨_, (h.mem_targets hu).mpr ⟨g, hg, ii, h.idxs_length hg ▸ hii, rfl⟩, rfl, ?_⟩
    exact getD_eq_getElem _ _ hii
  · rintro ⟨τ, hτ, rfl, rfl⟩
    obtain ⟨g, hg, ii, hii, rfl⟩ := (h.mem_targets hu).mp hτ
    exact ⟨g, hg, rfl, h.getD_mem hg hii⟩

theorem has_iff_key : sinfo.Has t i ↔ (t, i) ∈ sinfo.targets.map Target.key := by
  rw [h.has_iff_target hu, List.mem_map]
  constructor
  · rintro ⟨τ, hτ, rfl, rfl⟩
    exact ⟨τ, hτ, rfl⟩
  · rintro ⟨τ, hτ, hkey⟩
    exact ⟨τ, hτ, congrArg Prod.fst hkey, congrArg Prod.snd hkey⟩

theorem lt_of_has (hinv : kv.Inv c) (hi : sinfo.Has t i) : i < c.kvSize := by
  obtain ⟨τ, hτ, rfl, rfl⟩ := (h.has_iff_target hu).mp hi
  exact (h.targetOk hu hinv hτ).idx_lt

/-- A cell is purged exactly if a sequence of it is at or below the noted positions. -/
theorem purges_iff (hinv : kv.Inv c) (hsh : c.shared = false) {m : SeqId → Int}
    (hm : MaxRm kv sinfo.targets m) (hi : i < c.kvSize) :
    Purges c kv sinfo t i ↔ ∃ s ∈ (kv.cell t i).seq, (kv.cell t i).pos ≤ m s := by
  have hsz : ∀ t, ∀ j < c.kvSize, ∀ s ∈ (kv.cell t j).seq, 0 ≤ (kv.cell t j).pos := fun t j hj s hs =>
    (hinv.rep t).pos_nonneg (hinv.size t ▸ hj) ((hinv.rep t).pos_ne_of_mem (hinv.size t ▸ hj) hs)
  constructor
  · rintro ⟨-, s, hs, j, hj, hseq, hle⟩
    have hjs := hsz t j (h.lt_of_has hu hinv hj) s (hseq ▸ Finset.mem_singleton_self s)
    obtain ⟨τ, hτ, rfl, rfl⟩ := (h.has_iff_target hu).mp hj
    exact ⟨s, hs, hle.trans (hm.le s _ ⟨τ, hτ, rfl, by omega, hseq⟩)⟩
  · rintro ⟨s, hs, hle⟩
    have hpos := hsz t i hi s hs
    obtain ⟨⟨τ, hτ, hstrm, hp, hseq⟩, -⟩ := h.overwrites_masked hu hinv (hm.attained s (by omega))
    rw [hinv.owner t i hi s hs] at hstrm
    rw [hstrm] at hp hseq
    exact ⟨hsh, s, hs, τ.idx, (h.has_iff_target hu).mpr ⟨τ, hτ, hstrm, rfl⟩, hseq, hp.symm ▸ hle⟩

end Slot

/-! ## Placing -/

/-- What a placement does to the cells that its slot does not name, and to the shifts
and the heads. -/
structure Frame (c : KvConfig) (kv : KvCache) (sinfo : SlotInfo) (kv' : KvCache) : Prop where
  inv : kv'.Inv c
  purged : ∀ t, ∀ i < c.kvSize, ¬sinfo.Has t i → Purges c kv sinfo t i →
    (kv'.cell t i).seq ⊂ (kv.cell t i).seq
  kept : ∀ t, ∀ i < c.kvSize, ¬sinfo.Has t i → ¬Purges c kv sinfo t i → kv'.cell t i = kv.cell t i
  shift : ∀ t, ∀ i < c.kvSize,
    (kv'.cell t i).shift = 0 ∨ (kv'.cell t i).shift = (kv.cell t i).shift
  head : ∀ t ∉ sinfo.strm, kv'.vHeads t = kv.vHeads t

theorem frame_applyUbatch (hinv : kv.Inv c) (hu : UbatchOk c ubatch) (hslot : Slot c kv ubatch sinfo)
    (hrun : kv.applyUbatch c sinfo ubatch = some kv') : Frame c kv sinfo kv' := by
  cases hsh : c.shared with
  | true =>
    obtain rfl : kv = kv' := by
      unfold KvCache.applyUbatch at hrun
      rw [if_pos hsh] at hrun
      exact some.inj hrun
    exact ⟨hinv, fun _ _ _ _ hp => absurd hp.1 (by simp [hsh]), fun _ _ _ _ _ => rfl,
      fun _ _ _ => .inr rfl, fun _ _ => rfl⟩
  | false =>
    obtain ⟨kv'', m, hrun', hplaced⟩ := applyUbatch_spec hinv hu hslot hsh
    obtain rfl := some.inj (hrun'.symm.trans hrun)
    refine ⟨hplaced.inv, fun t i hi hno hp => ?_, fun t i hi hno hp => ?_, fun t i hi => ?_, hplaced.head⟩
    · rw [hplaced.other t i hi (mt (hslot.has_iff_key hu).mpr hno), KvCell.purge_seq, Finset.filter_ssubset]
      obtain ⟨s, hs, hle⟩ := (hslot.purges_iff hu hinv hsh hplaced.maxRm hi).mp hp
      exact ⟨s, hs, by omega⟩
    · rw [hplaced.other t i hi (mt (hslot.has_iff_key hu).mpr hno)]
      refine KvCell.purge_eq_self fun s hs => ?_
      by_contra hle
      exact hp ((hslot.purges_iff hu hinv hsh hplaced.maxRm hi).mpr ⟨s, hs, by omega⟩)
    · by_cases hhas : (t, i) ∈ sinfo.targets.map Target.key
      · obtain ⟨τ, hτ, hkey⟩ := List.mem_map.mp hhas
        obtain ⟨rfl, rfl⟩ := Prod.mk.inj hkey
        rw [hplaced.target τ hτ]
        refine .inl (KvCell.purge_shift ?_)
        have hlt : τ.idx < (kv.vCells τ.strm).size := hinv.size τ.strm ▸ hi
        change (KvCell.evicted _).shift = 0
        unfold KvCell.evicted
        split
        · rename_i hp
          exact (hinv.rep τ.strm).shift_zero _ hlt hp
        · rfl
      · rw [hplaced.other t i hi hhas]
        unfold KvCell.purge
        dsimp only
        split_ifs
        · exact .inr rfl
        · exact .inl rfl
        · exact .inr rfl

/-! ## Undoing one placement -/

/-- What `prepare` remembers of a placement in the state `kv₀`. -/
def saved (kv₀ : KvCache) (sinfo : SlotInfo) : PrepState :=
  ⟨sinfo, kv₀.vHeads, kv₀.saveSlots sinfo⟩

/-- The body of the loop that undoes a placement, for one group. -/
def rollbackGroup (c : KvConfig) (kv₀ : KvCache) (ubatch : LlamaUbatch) (sinfo : SlotInfo)
    (kv : KvCache) (g : Nat) : KvCache :=
  let t := groupStrm c ubatch g
  let idxs := sinfo.idxs.getD g []
  (kv.setCells t ((kv.vCells t).setIdxs idxs ((kv₀.vCells t).cpIdxs idxs))).setHead t (kv₀.vHeads g)

theorem rollback_eq (hslot : Slot c kv₀ ubatch sinfo) (kv : KvCache) :
    rollback (kv₀.saved sinfo) kv = (List.range (nSeqs c ubatch)).foldl (rollbackGroup c kv₀ ubatch sinfo) kv := by
  have hzip : ((kv₀.saved sinfo).sinfo.slots.zip (kv₀.saved sinfo).vCells).zipIdx =
      (List.range (nSeqs c ubatch)).map fun g =>
        (((groupStrm c ubatch g, sinfo.idxs.getD g []),
          (kv₀.vCells (groupStrm c ubatch g)).cpIdxs (sinfo.idxs.getD g [])), g) := by
    simp only [saved, saveSlots, hslot.slots_eq]
    exact ext_getElem (by simp) fun g hg hg' => by simp
  unfold rollback
  rw [hzip, foldl_map]
  rfl

section Rollback

variable (hslot : Slot c kv₀ ubatch sinfo) (hu : UbatchOk c ubatch)

include hslot hu

/-- A group of the slot restores its stream, and no other group touches it. -/
theorem rollback_stream {g : Nat} (hg : g < nSeqs c ubatch) (kv : KvCache) :
    (rollback (kv₀.saved sinfo) kv).vCells (groupStrm c ubatch g) =
        (kv.vCells (groupStrm c ubatch g)).setIdxs (sinfo.idxs.getD g [])
          ((kv₀.vCells (groupStrm c ubatch g)).cpIdxs (sinfo.idxs.getD g [])) ∧
      (rollback (kv₀.saved sinfo) kv).vHeads (groupStrm c ubatch g) = kv₀.vHeads g := by
  have hstep : ∀ (kv : KvCache) (g : Nat), Loops.RewritesAt
      (fun (kv : KvCache) t => (kv.vCells t, kv.vHeads t)) (groupStrm c ubatch g)
      (fun x => (x.1.setIdxs (sinfo.idxs.getD g [])
        ((kv₀.vCells (groupStrm c ubatch g)).cpIdxs (sinfo.idxs.getD g [])), kv₀.vHeads g))
      kv (rollbackGroup c kv₀ ubatch sinfo kv g) := fun kv g =>
    ⟨by simp [rollbackGroup], fun t ht => by simp [rollbackGroup, ht]⟩
  have hnd : ((List.range (nSeqs c ubatch)).map (groupStrm c ubatch)).Nodup :=
    nodup_range.map_on fun a ha b hb hab =>
      hu.groupStrm_injOn (mem_range.mp ha) (mem_range.mp hb) hab
  have h := Loops.foldl_view_of_mem _ _ hstep hnd (mem_range.mpr hg) kv
  rw [rollback_eq hslot]
  exact Prod.mk.inj h

omit hu in
/-- A stream outside the slot is left alone. -/
theorem rollback_of_notMem {t : Nat} (ht : t ∉ sinfo.strm) (kv : KvCache) :
    (rollback (kv₀.saved sinfo) kv).vCells t = kv.vCells t ∧
      (rollback (kv₀.saved sinfo) kv).vHeads t = kv.vHeads t := by
  rw [rollback_eq hslot]
  rw [hslot.strm] at ht
  generalize List.range (nSeqs c ubatch) = gs at ht
  induction gs generalizing kv with
  | nil => exact ⟨rfl, rfl⟩
  | cons g gs ih =>
    rw [map_cons, mem_cons, not_or] at ht
    obtain ⟨hcells, hhead⟩ := ih (rollbackGroup c kv₀ ubatch sinfo kv g) ht.2
    exact ⟨hcells.trans (by simp [rollbackGroup, ht.1]), hhead.trans (by simp [rollbackGroup, ht.1])⟩

/-- Undoing a placement gives the cells of the slot their old content. -/
theorem rollback_cell (kv : KvCache) (t i : Nat) :
    (sinfo.Has t i → (rollback (kv₀.saved sinfo) kv).cell t i = (kv₀.cell t i).overwrite (kv.cell t i)) ∧
      (¬sinfo.Has t i → (rollback (kv₀.saved sinfo) kv).cell t i = kv.cell t i) := by
  by_cases ht : t ∈ sinfo.strm
  · rw [hslot.strm] at ht
    obtain ⟨g, hg, rfl⟩ := List.mem_map.mp ht
    have hg := mem_range.mp hg
    have hcell : (rollback (kv₀.saved sinfo) kv).cell (groupStrm c ubatch g) i = _ :=
      (congrArg (fun cells : KvCells => cells.cell i) (rollback_stream hslot hu hg kv).1).trans
        (KvCells.setIdxs_cpIdxs_cell (hslot.offers g hg).nodup i)
    have hhas : sinfo.Has (groupStrm c ubatch g) i ↔ i ∈ sinfo.idxs.getD g [] := by
      rw [hslot.has_iff]
      constructor
      · rintro ⟨g', hg', heq, hi⟩
        exact hu.groupStrm_injOn hg' hg heq ▸ hi
      · exact fun hi => ⟨g, hg, rfl, hi⟩
    rw [hhas]
    exact ⟨fun hi => hcell.trans (if_pos hi), fun hi => hcell.trans (if_neg hi)⟩
  · have hno : ¬sinfo.Has t i := by
      rw [hslot.has_iff]
      rintro ⟨g, hg, rfl, -⟩
      rw [hslot.strm] at ht
      exact ht (List.mem_map_of_mem (mem_range.mpr hg))
    refine ⟨fun h => absurd h hno, fun _ => ?_⟩
    unfold cell
    rw [(rollback_of_notMem hslot ht kv).1]

theorem Inv.rollback (h₀ : kv₀.Inv c) (h : kv.Inv c)
    (hsh : ∀ t, ∀ i < c.kvSize, sinfo.Has t i → (kv₀.cell t i).pos = -1 → (kv.cell t i).shift = 0) :
    (rollback (kv₀.saved sinfo) kv).Inv c := by
  have hcase : ∀ t, t ∉ sinfo.strm ∨ ∃ g < nSeqs c ubatch, t = groupStrm c ubatch g := by
    intro t
    by_cases ht : t ∈ sinfo.strm
    · rw [hslot.strm] at ht
      obtain ⟨g, hg, rfl⟩ := List.mem_map.mp ht
      exact .inr ⟨g, mem_range.mp hg, rfl⟩
    · exact .inl ht
  refine ⟨fun t => ?_, fun t => ?_, fun t => ?_, fun t i hi s hs => ?_⟩
  · rcases hcase t with ht | ⟨g, hg, rfl⟩
    · rw [(rollback_of_notMem hslot ht kv).1]
      exact h.size t
    · rw [(rollback_stream hslot hu hg kv).1, KvCells.setIdxs_size]
      exact h.size _
  · rcases hcase t with ht | ⟨g, hg, rfl⟩
    · rw [(rollback_of_notMem hslot ht kv).1]
      exact h.rep t
    · rw [(rollback_stream hslot hu hg kv).1]
      have hlt : ∀ i ∈ sinfo.idxs.getD g [], i < (kv₀.vCells (groupStrm c ubatch g)).size :=
        fun i hi => ((hslot.offers g hg).usable i hi).1
      refine KvCells.rep_setIdxs_cpIdxs (h.rep _) (h₀.rep _) ((h.size _).trans (h₀.size _).symm) hlt
        fun i hi hp => ?_
      exact hsh _ i (h₀.size _ ▸ hlt i hi) (hslot.has_iff.mpr ⟨g, hg, rfl, hi⟩) hp
  · rcases hcase t with ht | ⟨g, hg, rfl⟩
    · rw [(rollback_of_notMem hslot ht kv).2]
      exact h.head_le t
    · rw [(rollback_stream hslot hu hg kv).2]
      exact h₀.head_le g
  · have hcell := rollback_cell hslot hu kv t i
    have hs : s ∈ ((KvCache.rollback (kv₀.saved sinfo) kv).cell t i).seq := hs
    by_cases hhas : sinfo.Has t i
    · rw [hcell.1 hhas] at hs
      exact h₀.owner t i hi s hs
    · rw [hcell.2 hhas] at hs
      exact h.owner t i hi s hs

end Rollback

/-! ## The whole of `prepare` -/

end KvCache

/-- Two cells agree in what `prepare` is to preserve. -/
structure KvCell.Same (x y : KvCell) : Prop where
  pos : x.pos = y.pos
  ext : x.ext = y.ext
  seq : x.seq = y.seq

namespace KvCache

/-- What undoing all placements made in the state `kv` leads to. -/
structure Undone (c : KvConfig) (kv : KvCache) (us : List LlamaUbatch) (kv' : KvCache) : Prop where
  inv : kv'.Inv c
  shift : ∀ t, ∀ i < c.kvSize,
    (kv'.cell t i).shift = 0 ∨ (kv'.cell t i).shift = (kv.cell t i).shift
  subset : ∀ t, ∀ i < c.kvSize, (kv'.cell t i).seq ⊆ (kv.cell t i).seq
  cell : ∀ t, ∀ i < c.kvSize, (kv'.cell t i).Same (kv.cell t i) ↔ CellSafe c t i kv us
  head : ∀ t, kv'.vHeads t = kv.vHeads t ↔ HeadSafe c t kv us

variable {us : List LlamaUbatch}

/-- The safety conditions look at the one run that the calls make. -/
theorem cellSafe_cons {t i : Nat} {u : LlamaUbatch} (hfind : kv.findSlot c u false = some sinfo)
    (hne : sinfo.isEmpty = false) (happly : kv.applyUbatch c sinfo u = some kv') :
    CellSafe c t i kv (u :: us) ↔ sinfo.Has t i ∨ (¬Purges c kv sinfo t i ∧ CellSafe c t i kv' us) := by
  constructor
  · exact fun h => h sinfo kv' hfind hne happly
  · intro h sinfo₁ kv₁ hfind₁ _ happly₁
    obtain rfl := some.inj (hfind.symm.trans hfind₁)
    obtain rfl := some.inj (happly.symm.trans happly₁)
    exact h

theorem headSafe_cons {t : Nat} {u : LlamaUbatch} (hfind : kv.findSlot c u false = some sinfo)
    (hne : sinfo.isEmpty = false) (happly : kv.applyUbatch c sinfo u = some kv') :
    HeadSafe c t kv (u :: us) ↔ (∀ s, sinfo.strm[s]? = some t → kv.vHeads s = kv.vHeads t) ∧
      (t ∉ sinfo.strm → HeadSafe c t kv' us) := by
  constructor
  · exact fun h => h sinfo kv' hfind hne happly
  · intro h sinfo₁ kv₁ hfind₁ _ happly₁
    obtain rfl := some.inj (hfind.symm.trans hfind₁)
    obtain rfl := some.inj (happly.symm.trans happly₁)
    exact h

/-- Nothing is placed, so nothing is undone. -/
theorem undone_self (hinv : kv.Inv c) (hcell : ∀ t i, CellSafe c t i kv us)
    (hhead : ∀ t, HeadSafe c t kv us) : Undone c kv us kv where
  inv := hinv
  shift := fun _ _ _ => .inr rfl
  subset := fun _ _ _ => Finset.Subset.refl _
  cell := fun t i _ => iff_of_true ⟨rfl, rfl, rfl⟩ (hcell t i)
  head := fun t => iff_of_true rfl (hhead t)

theorem Undone.rollback {u : LlamaUbatch} {us : List LlamaUbatch} {kvF : KvCache} (hinv : kv.Inv c)
    (hu : UbatchOk c u) (hfind : kv.findSlot c u false = some sinfo) (hne : sinfo.isEmpty = false)
    (happly : kv.applyUbatch c sinfo u = some kv') (h : Undone c kv' us kvF) :
    Undone c kv (u :: us) (rollback (kv.saved sinfo) kvF) := by
  have hslot := slot_of_findSlot hinv hu hfind hne
  have hframe := frame_applyUbatch hinv hu hslot happly
  have hcell := rollback_cell hslot hu kvF
  have hshift : ∀ t, ∀ i < c.kvSize, (kvF.cell t i).shift = 0 ∨ (kvF.cell t i).shift = (kv.cell t i).shift := by
    intro t i hi
    rcases h.shift t i hi with h0 | h1
    · exact .inl h0
    · rw [h1]
      exact hframe.shift t i hi
  refine ⟨?_, fun t i hi => ?_, fun t i hi => ?_, fun t i hi => ?_, fun t => ?_⟩
  · refine Inv.rollback hslot hu hinv h.inv fun t i hi _ hp => ?_
    have h0 : (kv.cell t i).shift = 0 := (hinv.rep t).shift_zero i (hinv.size t ▸ hi) hp
    rcases hshift t i hi with hs | hs
    · exact hs
    · exact hs.trans h0
  · by_cases hhas : sinfo.Has t i
    · rw [(hcell t i).1 hhas]
      exact hshift t i hi
    · rw [(hcell t i).2 hhas]
      exact hshift t i hi
  · by_cases hhas : sinfo.Has t i
    · rw [(hcell t i).1 hhas]
      exact Finset.Subset.refl _
    · rw [(hcell t i).2 hhas]
      refine (h.subset t i hi).trans ?_
      by_cases hp : Purges c kv sinfo t i
      · exact (hframe.purged t i hi hhas hp).subset
      · rw [hframe.kept t i hi hhas hp]
  · rw [cellSafe_cons hfind hne happly]
    by_cases hhas : sinfo.Has t i
    · rw [(hcell t i).1 hhas]
      exact iff_of_true ⟨rfl, rfl, rfl⟩ (.inl hhas)
    · rw [(hcell t i).2 hhas]
      by_cases hp : Purges c kv sinfo t i
      · -- a purged sequence never comes back
        refine iff_of_false (fun hsame => ?_) (by simp [hhas, hp])
        have hlost := (h.subset t i hi).trans_ssubset (hframe.purged t i hi hhas hp)
        exact hlost.ne hsame.seq
      · rw [← hframe.kept t i hi hhas hp, h.cell t i hi]
        simp [hhas, hp]
  · rw [headSafe_cons hfind hne happly]
    by_cases ht : t ∈ sinfo.strm
    · obtain ⟨g, hg⟩ := getElem?_of_mem ht
      obtain ⟨hlt, rfl⟩ := hslot.getElem?_strm.mp hg
      rw [(rollback_stream hslot hu hlt kvF).2]
      constructor
      · intro heq
        refine ⟨fun s hs => ?_, fun hno => absurd ht hno⟩
        obtain ⟨hslt, hsg⟩ := hslot.getElem?_strm.mp hs
        rw [hu.groupStrm_injOn hslt hlt hsg]
        exact heq
      · exact fun hall => hall.1 g hg
    · rw [(rollback_of_notMem hslot ht kvF).2, ← hframe.head t ht, h.head t]
      constructor
      · exact fun hsafe => ⟨fun s hs => absurd (mem_of_getElem? hs) ht, fun _ => hsafe⟩
      · exact fun hsafe => hsafe.2 ht

/-- Induction over the ubatches that are placed: none is left, one finds no slot, or one is placed in a well kept state. -/
theorem placeAll_induct {P : KvCache → List LlamaUbatch → List PrepState → KvCache → Prop}
    {states : List PrepState} {kvN : KvCache} {ok : Bool} (hnil : ∀ kv, kv.Inv c → P kv [] [] kv)
    (hstop : ∀ kv u us sinfo, kv.Inv c → kv.findSlot c u false = some sinfo → sinfo.isEmpty = true →
      P kv (u :: us) [] kv)
    (hplace : ∀ kv u us sinfo kv₁ states kvN, kv.Inv c → UbatchOk c u → kv.findSlot c u false = some sinfo →
      sinfo.isEmpty = false → Slot c kv u sinfo → kv.applyUbatch c sinfo u = some kv₁ → P kv₁ us states kvN →
      P kv (u :: us) (kv.saved sinfo :: states) kvN)
    (hinv : kv.Inv c) (hus : ∀ u ∈ us, UbatchOk c u) (hrun : kv.placeAll c us = some (states, kvN, ok)) :
    P kv us states kvN := by
  induction us generalizing kv states kvN ok with
  | nil =>
    obtain ⟨rfl, rfl, -⟩ : [] = states ∧ kv = kvN ∧ true = ok := by simpa [placeAll] using hrun
    exact hnil kv hinv
  | cons u us ih =>
    rw [placeAll] at hrun
    obtain ⟨sinfo, hfind, hrun⟩ := bind_eq_some_iff.mp hrun
    cases hne : sinfo.isEmpty with
    | true =>
      rw [hne, if_pos rfl] at hrun
      obtain ⟨rfl, rfl, -⟩ : [] = states ∧ kv = kvN ∧ false = ok := by simpa using hrun
      exact hstop kv u us sinfo hinv hfind hne
    | false =>
      rw [hne, if_neg (by simp)] at hrun
      obtain ⟨kv₁, happly, hrun⟩ := bind_eq_some_iff.mp hrun
      obtain ⟨⟨states', kvN', ok'⟩, hrest, heq⟩ := map_eq_some_iff.mp hrun
      obtain ⟨rfl, rfl, -⟩ := by simpa using heq
      have hu := hus u mem_cons_self
      have hslot := slot_of_findSlot hinv hu hfind hne
      exact hplace kv u us sinfo kv₁ states' kvN' hinv hu hfind hne hslot happly
        (ih (frame_applyUbatch hinv hu hslot happly).inv (fun u' hu' => hus u' (mem_cons_of_mem _ hu')) hrest)

theorem placeAll_spec {states : List PrepState} {kvN : KvCache} {ok : Bool} (hinv : kv.Inv c)
    (hus : ∀ u ∈ us, UbatchOk c u) (hrun : kv.placeAll c us = some (states, kvN, ok)) :
    Undone c kv us (states.foldr rollback kvN) := by
  refine placeAll_induct (P := fun kv us states kvN => Undone c kv us (states.foldr rollback kvN))
    (fun kv hinv => undone_self hinv (fun _ _ => trivial) fun _ => trivial) (fun kv u us sinfo hinv hfind hne => ?_)
    (fun kv u us sinfo kv₁ states kvN hinv hu hfind hne _ happly h => h.rollback hinv hu hfind hne happly) hinv hus hrun
  have hstop : ∀ sinfo', kv.findSlot c u false = some sinfo' → sinfo'.isEmpty = false → False := by
    intro sinfo' hfind' hne'
    obtain rfl := some.inj (hfind.symm.trans hfind')
    exact Bool.noConfusion (hne.symm.trans hne')
  exact undone_self hinv (fun _ _ sinfo' _ hf hn => (hstop sinfo' hf hn).elim)
    fun _ sinfo' _ hf hn => (hstop sinfo' hf hn).elim

end KvCache

end LlamaCpp
