import LlamaCpp.Kv.Cache
import LlamaCpp.Kv.CellsInvariant
import LlamaCpp.Lib.Loops

/-!
# A table as a row of cells

`KvCell` gathers what a table stores about one cell, and `KvCells.cell` reads it off.
Every mutator rewrites one cell (`rewrites_rm`, `rewrites_seqRm`, ...), so a pass over
a stream rewrites each cell by the same function: `Acts P act f` says that the loop
body `act` rewrites its cell by `f` and keeps the invariant on cells that satisfy `P`,
and `sweep_cell`, `rep_sweep` are what follows for the whole pass.

Together with `Rep`, the cells determine the indexes (`Rep.indexes_eq`).
-/

namespace LlamaCpp

open List

/-- What a table stores about a cell. -/
structure KvCell where
  pos : Int
  ext : KvCellExt
  shift : Int
  seq : Finset SeqId

namespace KvCell

theorem eq_of_fields {x y : KvCell} (hpos : x.pos = y.pos) (hext : x.ext = y.ext)
    (hshift : x.shift = y.shift) (hseq : x.seq = y.seq) : x = y := by
  cases x
  cases y
  simp_all

/-- An empty cell as `reset` leaves it. -/
def blank : KvCell := ⟨-1, {}, 0, ∅⟩

/-- The cell does not belong to `s` any more. -/
def seqRm (s : SeqId) (x : KvCell) : KvCell :=
  if x.seq.erase s = ∅ then blank else { x with seq := x.seq.erase s }

/-- The cell belongs to `s` alone, or to nobody. -/
def seqKeep (s : SeqId) (x : KvCell) : KvCell :=
  if s ∈ x.seq then { x with seq := {s} } else if x.seq ≠ ∅ then blank else x

def seqAdd (s : SeqId) (x : KvCell) : KvCell := { x with seq := insert s x.seq }

def posSet (p : Int) (x : KvCell) : KvCell := { x with pos := p }

def extSet (e : KvCellExt) (x : KvCell) : KvCell := { x with ext := e }

def posAdd (d : Int) (x : KvCell) : KvCell :=
  if x.pos + d < 0 then { x with pos := -1, shift := 0, seq := ∅ }
  else { x with pos := x.pos + d, shift := x.shift + d }

def posDiv (d : Int) (x : KvCell) : KvCell :=
  { x with pos := x.pos.tdiv d, shift := x.shift + (x.pos - x.pos.tdiv d) }

/-- What `set` writes over a cell: everything but the shift. -/
def overwrite (y x : KvCell) : KvCell := { y with shift := x.shift }

/-- The cell belongs to `s` and has a position in `[p0, p1)`. -/
def OnSeq (s : SeqId) (p0 p1 : Int) (x : KvCell) : Prop := (p0 ≤ x.pos ∧ x.pos < p1) ∧ s ∈ x.seq

instance (s : SeqId) (p0 p1 : Int) (x : KvCell) : Decidable (OnSeq s p0 p1 x) :=
  inferInstanceAs (Decidable (_ ∧ _))

end KvCell

namespace KvCells

open Loops (RewritesAt)

/-- Cell `i` of the table. -/
def cell (kv : KvCells) (i : Nat) : KvCell := ⟨kv.pos i, kv.ext i, kv.shift i, kv.seq i⟩

@[simp] theorem cell_pos (kv : KvCells) (i : Nat) : (kv.cell i).pos = kv.pos i := rfl

@[simp] theorem cell_ext (kv : KvCells) (i : Nat) : (kv.cell i).ext = kv.ext i := rfl

@[simp] theorem cell_shift (kv : KvCells) (i : Nat) : (kv.cell i).shift = kv.shift i := rfl

@[simp] theorem cell_seq (kv : KvCells) (i : Nat) : (kv.cell i).seq = kv.seq i := rfl

@[simp] theorem reset_cell (kv : KvCells) (i : Nat) : kv.reset.cell i = .blank := rfl

/-- The step from `kv` to `kv'` rewrites cell `i` by `f`. -/
abbrev Rewrites (i : Nat) (f : KvCell → KvCell) (kv kv' : KvCells) : Prop :=
  RewritesAt cell i f kv kv'

variable {kv : KvCells}

theorem Rewrites.of_fields {kv' : KvCells} {i : Nat} {f : KvCell → KvCell}
    (hhere : kv'.cell i = f (kv.cell i)) (hpos : ∀ j ≠ i, kv'.pos j = kv.pos j)
    (hext : ∀ j ≠ i, kv'.ext j = kv.ext j) (hshift : ∀ j ≠ i, kv'.shift j = kv.shift j)
    (hseq : ∀ j ≠ i, kv'.seq j = kv.seq j) : Rewrites i f kv kv' where
  here := hhere
  elsewhere := fun j hj => KvCell.eq_of_fields (hpos j hj) (hext j hj) (hshift j hj) (hseq j hj)

/-- A step that changes no cell rewrites each by the identity. -/
theorem Rewrites.rfl {kv : KvCells} {i : Nat} : Rewrites i id kv kv where
  here := by rfl
  elsewhere := fun _ _ => by rfl

theorem Rewrites.trans {kv' kv'' : KvCells} {i : Nat} {f g : KvCell → KvCell} (h : Rewrites i f kv kv')
    (h' : Rewrites i g kv' kv'') : Rewrites i (g ∘ f) kv kv'' where
  here := by rw [h'.here, h.here]; rfl
  elsewhere := fun j hj => (h'.elsewhere j hj).trans (h.elsewhere j hj)

/-! ## The mutators rewrite their cell -/

theorem rewrites_rm (kv : KvCells) (i : Nat) : Rewrites i (fun _ => .blank) kv (kv.rm i) :=
  .of_fields (KvCell.eq_of_fields (by simp [rm_pos, KvCell.blank]) (by simp [rm_ext, KvCell.blank])
      (by simp [rm_shift, KvCell.blank]) (by simp [rm_seq, KvCell.blank]))
    (fun j hj => by simp [rm_pos, hj]) (fun j hj => by simp [rm_ext, hj])
    (fun j hj => by simp [rm_shift, hj]) (fun j hj => by simp [rm_seq, hj])

theorem rewrites_seqRm (kv : KvCells) (i : Nat) (s : SeqId) : Rewrites i (KvCell.seqRm s) kv (kv.seqRm i s).1 := by
  refine .of_fields ?_ (fun j hj => by simp [seqRm_pos, hj]) (fun j hj => by simp [seqRm_ext, hj])
    (fun j hj => by simp [seqRm_shift, hj]) (fun j hj => by simp [seqRm_seq, hj])
  unfold KvCell.seqRm
  split <;> rename_i he <;> rw [cell_seq] at he <;>
    exact KvCell.eq_of_fields (by simp [seqRm_pos, he, KvCell.blank])
      (by simp [seqRm_ext, he, KvCell.blank]) (by simp [seqRm_shift, he, KvCell.blank])
      (by simp [seqRm_seq, he, KvCell.blank])

theorem seqKeep_ext (kv : KvCells) (i j : Nat) (s : SeqId) :
    (kv.seqKeep i s).1.ext j = if j = i ∧ s ∉ kv.seq i ∧ kv.seq i ≠ ∅ then {} else kv.ext j := by
  unfold seqKeep
  by_cases hs : s ∈ kv.seq i
  · simp [hs]
  · by_cases he : kv.seq i = ∅ <;> by_cases hj : j = i <;> simp [hs, he, hj]

theorem rewrites_seqKeep (kv : KvCells) (i : Nat) (s : SeqId) :
    Rewrites i (KvCell.seqKeep s) kv (kv.seqKeep i s).1 := by
  refine .of_fields ?_ (fun j hj => by simp [seqKeep_pos, hj])
    (fun j hj => by simp [seqKeep_ext, hj]) (fun j hj => by simp [seqKeep_shift, hj])
    (fun j hj => by simp [seqKeep_seq, hj])
  unfold KvCell.seqKeep
  split_ifs with hs he <;> rw [cell_seq] at * <;>
    apply KvCell.eq_of_fields <;>
    simp_all [seqKeep_pos, seqKeep_ext, seqKeep_shift, seqKeep_seq, KvCell.blank]

theorem rewrites_seqAdd (kv : KvCells) (i : Nat) (s : SeqId) : Rewrites i (KvCell.seqAdd s) kv (kv.seqAdd i s) :=
  .of_fields (KvCell.eq_of_fields rfl rfl rfl (by simp [seqAdd_seq, KvCell.seqAdd])) (fun _ _ => rfl)
    (fun _ _ => rfl) (fun _ _ => rfl) (fun j hj => by simp [seqAdd_seq, hj])

theorem rewrites_posSet (kv : KvCells) (i : Nat) (p : Int) : Rewrites i (KvCell.posSet p) kv (kv.posSet i p) :=
  .of_fields (KvCell.eq_of_fields (by simp [KvCell.posSet]) rfl rfl rfl) (fun j hj => by simp [hj])
    (fun _ _ => rfl) (fun _ _ => rfl) (fun _ _ => rfl)

theorem rewrites_extSet (kv : KvCells) (i : Nat) (e : KvCellExt) : Rewrites i (KvCell.extSet e) kv (kv.extSet i e) :=
  .of_fields (KvCell.eq_of_fields rfl (by simp [KvCell.extSet]) rfl rfl) (fun _ _ => rfl)
    (fun j hj => by simp [hj]) (fun _ _ => rfl) (fun _ _ => rfl)

theorem posAdd_ext (kv : KvCells) (i : Nat) (d : Int) : (kv.posAdd i d).1.ext = kv.ext := by
  unfold posAdd
  dsimp only
  split <;> rfl

theorem rewrites_posAdd (kv : KvCells) (i : Nat) (d : Int) : Rewrites i (KvCell.posAdd d) kv (kv.posAdd i d).1 := by
  refine .of_fields ?_ (fun j hj => by simp [posAdd_pos, hj]) (fun j _ => by rw [posAdd_ext])
    (fun j hj => by simp [posAdd_shift, hj]) (fun j hj => by simp [posAdd_seq, hj])
  unfold KvCell.posAdd
  split <;> rename_i hd <;> rw [cell_pos] at hd <;>
    exact KvCell.eq_of_fields (by simp [posAdd_pos, hd]) (by simp [posAdd_ext])
      (by simp [posAdd_shift, hd]) (by simp [posAdd_seq, hd])

theorem rewrites_posDiv (kv : KvCells) (i : Nat) (d : Int) : Rewrites i (KvCell.posDiv d) kv (kv.posDiv i d) :=
  .of_fields (KvCell.eq_of_fields (by simp [posDiv_pos, KvCell.posDiv]) rfl
      (by simp [posDiv_shift, KvCell.posDiv]) rfl)
    (fun j hj => by simp [posDiv_pos, hj]) (fun _ _ => rfl)
    (fun j hj => by simp [posDiv_shift, hj]) (fun _ _ => rfl)

theorem rewrites_setCell (kv : KvCells) (i : Nat) (other : KvCells) (j : Nat) :
    Rewrites i (KvCell.overwrite (other.cell j)) kv (kv.setCell i other j) :=
  .of_fields (KvCell.eq_of_fields (by simp [setCell_pos, KvCell.overwrite])
      (by simp [setCell_ext, KvCell.overwrite]) (by simp [KvCell.overwrite])
      (by simp [setCell_seq, KvCell.overwrite]))
    (fun k hk => by simp [setCell_pos, hk]) (fun k hk => by simp [setCell_ext, hk])
    (fun k _ => by simp) (fun k hk => by simp [setCell_seq, hk])

/-- Writing saved cells back: each gets its old content, except for the shift. -/
theorem setIdxs_cpIdxs_cell {kv₀ : KvCells} {idxs : List Nat} (hnd : idxs.Nodup) (i : Nat) :
    (kv.setIdxs idxs (kv₀.cpIdxs idxs)).cell i =
      if i ∈ idxs then (kv₀.cell i).overwrite (kv.cell i) else kv.cell i := by
  have hstep : ∀ (kv : KvCells) (j : Nat), Rewrites (idxs.getD j 0)
      (KvCell.overwrite ((kv₀.cpIdxs idxs).cell j)) kv
      (kv.setCell (idxs.getD j 0) (kv₀.cpIdxs idxs) j) := fun kv j => rewrites_setCell kv _ _ j
  have hkeys := Loops.map_getD_range idxs 0
  by_cases hi : i ∈ idxs
  · rw [if_pos hi]
    rw [← hkeys] at hi
    obtain ⟨j, hj, rfl⟩ := List.mem_map.mp hi
    refine (Loops.foldl_view_of_mem cell (fun j => idxs.getD j 0) hstep (hkeys.symm ▸ hnd) hj kv).trans ?_
    have hj : j < idxs.length := mem_range.mp hj
    simp [KvCell.overwrite, cell, cpIdxs, cpBy_pos _ _ hj, cpBy_ext _ _ hj, cpBy_seq _ _ hj]
  · rw [if_neg hi]
    exact Loops.foldl_view_of_notMem cell (fun j => idxs.getD j 0) hstep (hkeys.symm ▸ hi) kv

theorem setIdxs_size (kv other : KvCells) (idxs : List Nat) : (kv.setIdxs idxs other).size = kv.size :=
  setBy_size ..

/-- Writing saved cells back keeps the invariant, if the cells that become empty have
no pending shift. -/
theorem rep_setIdxs_cpIdxs {kv₀ : KvCells} {idxs : List Nat} (h : Rep kv) (h₀ : Rep kv₀)
    (hsize : kv.size = kv₀.size) (hidxs : ∀ i ∈ idxs, i < kv₀.size)
    (hsh : ∀ i ∈ idxs, kv₀.pos i = -1 → kv.shift i = 0) : Rep (kv.setIdxs idxs (kv₀.cpIdxs idxs)) := by
  have hmem : ∀ j < idxs.length, idxs.getD j 0 ∈ idxs := by
    intro j hj
    simp [hj]
  refine rep_setBy h (h₀.snapshot fun j hj => hidxs _ (hmem j hj)) (fun j hj => ?_)
    fun j hj hp => ?_
  · exact hsize ▸ hidxs _ (hmem j hj)
  · exact hsh _ (hmem j hj) ((cpBy_pos kv₀ _ hj).symm.trans hp)

/-! ## The indexes follow from the cells -/

/-- Two tables with the same cells have the same indexes. -/
theorem Rep.indexes_eq {kv' : KvCells} (h : Rep kv) (h' : Rep kv') (hsize : kv'.size = kv.size)
    (hpos : ∀ i < kv.size, kv'.pos i = kv.pos i) (hseq : ∀ i < kv.size, kv'.seq i = kv.seq i) :
    kv'.used = kv.used ∧ kv'.seqPos = kv.seqPos :=
  ⟨h.used_eq h' hsize hpos, h.seqPos_eq h' hsize hpos hseq⟩

/-! ## Passes -/

/-- The loop body `act` rewrites its cell by `f`, and keeps the invariant if the cell
satisfies `P`. -/
structure Acts (P : KvCell → Prop) (act : KvCells → Nat → KvCells × Bool) (f : KvCell → KvCell) :
    Prop where
  size : ∀ kv i, (act kv i).1.size = kv.size
  rewrites : ∀ kv i, Rewrites i f kv (act kv i).1
  rep : ∀ kv i, Rep kv → i < kv.size → P (kv.cell i) → Rep (act kv i).1

theorem acts_seqRm (s : SeqId) : Acts (fun x => s ∈ x.seq) (fun kv i => kv.seqRm i s) (KvCell.seqRm s) where
  size := fun kv i => seqRm_size kv i s
  rewrites := fun kv i => rewrites_seqRm kv i s
  rep := fun _ _ h hi hs => rep_seqRm h hi hs

theorem acts_seqKeep (s : SeqId) : Acts (fun _ => True) (fun kv i => kv.seqKeep i s) (KvCell.seqKeep s) where
  size := fun kv i => seqKeep_size kv i s
  rewrites := fun kv i => rewrites_seqKeep kv i s
  rep := fun _ _ h hi _ => rep_seqKeep h hi

theorem acts_seqAdd (s : SeqId) :
    Acts (fun x => x.pos ≠ -1 ∧ s ∉ x.seq) (fun kv i => (kv.seqAdd i s, false))
      (KvCell.seqAdd s) where
  size := fun kv i => seqAdd_size kv i s
  rewrites := fun kv i => rewrites_seqAdd kv i s
  rep := fun _ _ h hi hx => rep_seqAdd h hi hx.1 hx.2

theorem acts_posAdd (d : Int) : Acts (fun x => x.pos ≠ -1) (fun kv i => kv.posAdd i d) (KvCell.posAdd d) where
  size := fun kv i => posAdd_size kv i d
  rewrites := fun kv i => rewrites_posAdd kv i d
  rep := fun _ _ h hi hp => rep_posAdd h hi hp

theorem acts_posDiv {d : Int} (hd : 1 ≤ d) :
    Acts (fun x => x.pos ≠ -1) (fun kv i => (kv.posDiv i d, false)) (KvCell.posDiv d) where
  size := fun kv i => posDiv_size kv i d
  rewrites := fun kv i => rewrites_posDiv kv i d
  rep := fun _ _ h hi hp => rep_posDiv h hi hp hd

/-- A body that acts only on cells with `G` rewrites the others by the identity. -/
theorem Acts.guarded {P G : KvCell → Prop} [DecidablePred G] {act : KvCells → Nat → KvCells × Bool}
    {f : KvCell → KvCell} (h : Acts P act f) (guard : KvCells → Nat → Prop)
    [∀ kv i, Decidable (guard kv i)] (hguard : ∀ kv i, guard kv i ↔ G (kv.cell i)) :
    Acts (fun x => G x → P x) (fun kv i => if guard kv i then act kv i else (kv, false))
      (fun x => if G x then f x else x) where
  size := by
    intro kv i
    split
    · exact h.size kv i
    · rfl
  rewrites := by
    intro kv i
    by_cases hg : guard kv i
    · rw [if_pos hg]
      refine ⟨?_, (h.rewrites kv i).elsewhere⟩
      rw [(h.rewrites kv i).here, if_pos ((hguard kv i).mp hg)]
    · rw [if_neg hg]
      refine ⟨?_, fun _ _ => rfl⟩
      rw [if_neg (mt (hguard kv i).mpr hg)]
  rep := by
    intro kv i hrep hi hP
    split
    · rename_i hg
      exact h.rep kv i hrep hi (hP ((hguard kv i).mp hg))
    · exact hrep

theorem Acts.onSeq {P : KvCell → Prop} {act : KvCells → Nat → KvCells × Bool}
    {f : KvCell → KvCell} (h : Acts P act f) (s : SeqId) (p0 p1 : Int) :
    Acts (fun x => x.OnSeq s p0 p1 → P x) (KvCells.onSeq s p0 p1 act)
      (fun x => if x.OnSeq s p0 p1 then f x else x) :=
  h.guarded (fun kv i => kv.posIn i p0 p1 ∧ kv.seqHas i s) fun kv i => by
    simp [posIn, seqHas, KvCell.OnSeq]

section Sweep

variable {P : KvCell → Prop} {act : KvCells → Nat → KvCells × Bool} {f : KvCell → KvCell}

/-- The loop of a pass from any intermediate state. -/
def sweepFrom (act : KvCells → Nat → KvCells × Bool) (n : Nat) :
    KvCells × Nat → Nat → KvCells × Nat :=
  fun σ i =>
    let r := act σ.1 i
    (r.1, if r.2 ∧ σ.2 = n then i else σ.2)

theorem sweep_eq (act : KvCells → Nat → KvCells × Bool) (kv : KvCells) :
    kv.sweep act = (List.range kv.size).foldl (sweepFrom act kv.size) (kv, kv.size) := rfl

@[simp] theorem sweep_size (h : Acts P act f) (kv : KvCells) : (kv.sweep act).1.size = kv.size := by
  rw [sweep_eq]
  generalize hn : kv.size = n
  suffices hgen : ∀ (l : List Nat) (σ : KvCells × Nat), σ.1.size = n →
      (l.foldl (sweepFrom act n) σ).1.size = n from hgen _ _ hn
  intro l
  induction l with
  | nil => exact fun _ h => h
  | cons i l ih => exact fun σ hσ => ih _ ((h.size σ.1 i).trans hσ)

/-- A pass rewrites every cell of the table by `f`. -/
theorem sweep_cell (h : Acts P act f) (kv : KvCells) (i : Nat) :
    (kv.sweep act).1.cell i = if i < kv.size then f (kv.cell i) else kv.cell i := by
  rw [sweep_eq]
  exact Loops.foldl_range_view (fun (σ : KvCells × Nat) i => σ.1.cell i) (g := f)
    (fun σ i => ⟨(h.rewrites σ.1 i).here, (h.rewrites σ.1 i).elsewhere⟩) kv.size i (kv, kv.size)

/-- The first emptied cell is a cell, or `size`. -/
theorem sweep_snd_le (act : KvCells → Nat → KvCells × Bool) (kv : KvCells) : (kv.sweep act).2 ≤ kv.size := by
  rw [sweep_eq]
  suffices hgen : ∀ (l : List Nat) (σ : KvCells × Nat), (∀ i ∈ l, i < kv.size) → σ.2 ≤ kv.size →
      (l.foldl (sweepFrom act kv.size) σ).2 ≤ kv.size from
    hgen _ _ (fun i hi => mem_range.mp hi) le_rfl
  intro l
  induction l with
  | nil => exact fun _ _ h => h
  | cons i l ih =>
    intro σ hl hσ
    refine ih _ (fun j hj => hl j (mem_cons_of_mem _ hj)) ?_
    have hi := hl i mem_cons_self
    unfold sweepFrom
    dsimp only
    split <;> omega

/-- A pass keeps the invariant if every cell satisfies the precondition of its step. -/
theorem rep_sweep (h : Acts P act f) {kv : KvCells} (hrep : Rep kv)
    (hP : ∀ i < kv.size, P (kv.cell i)) : Rep (kv.sweep act).1 := by
  rw [sweep_eq]
  suffices hgen : ∀ (l : List Nat) (σ : KvCells × Nat), l.Nodup → Rep σ.1 →
      (∀ i ∈ l, i < σ.1.size ∧ P (σ.1.cell i)) → Rep (l.foldl (sweepFrom act kv.size) σ).1 from
    hgen _ _ nodup_range hrep fun i hi =>
      have hi := mem_range.mp hi
      ⟨hi, hP i hi⟩
  intro l
  induction l with
  | nil => exact fun _ _ hrep _ => hrep
  | cons i l ih =>
    intro σ hnd hrep hl
    obtain ⟨hi, hPi⟩ := hl i mem_cons_self
    rw [nodup_cons] at hnd
    refine ih _ hnd.2 (h.rep σ.1 i hrep hi hPi) fun j hj => ?_
    obtain ⟨hjs, hPj⟩ := hl j (mem_cons_of_mem _ hj)
    -- the step leaves the cells that are still to come alone
    have hne : j ≠ i := fun hji => hnd.1 (hji ▸ hj)
    have hcell : (act σ.1 i).1.cell j = σ.1.cell j := (h.rewrites σ.1 i).elsewhere j hne
    exact ⟨(h.size σ.1 i).symm ▸ hjs, by simpa only [sweepFrom, hcell] using hPj⟩

end Sweep

end KvCells

end LlamaCpp
