import LlamaCpp.Kv.CellsInvariant
import LlamaCpp.Lib.Runs

/-!
# Runs of the cell table

A `Session` is a cell table together with the copies that were taken of it with
`cp`, which later `set` calls write back.  `Op` lists the mutators; `Op.Ok` states
the `assert`s of the mutator called, so a run whose steps are all `Ok` is a run in
which no assertion fires.

Every such run keeps the indexes in agreement with the cells
(`run_indexes_agree`).  The session also remembers, for every cell, the position
the cell had when its shift was last zero (`base`, a ghost field no mutator
reads).  `pos_add` keeps `pos = base + shift`; `pos_div` accumulates its
displacement with the opposite sign, and `run_netShift_iff` says what that means
for a run.
-/

namespace LlamaCpp.KvCells

/-- A table, the copies taken of it, and the positions before the pending shifts. -/
structure Session where
  cells : KvCells
  saved : List KvCells
  base : Nat → Int

namespace Session

/-- A default-constructed table. -/
def init : Session := ⟨empty, [], fun _ => -1⟩

def copy (σ : Session) (k : Nat) : KvCells := σ.saved.getD k empty

/-- Write the `k`-th copy back to the cells `f 0, f 1, ...`. -/
def restore (σ : Session) (f : Nat → Nat) (k : Nat) : Session :=
  let cells := σ.cells.setBy f (σ.copy k)
  { σ with
    cells := cells
    base := fun i =>
      if i ∈ (List.range (σ.copy k).size).map f then cells.pos i else σ.base i }

end Session

/-- The mutators, and the two copy functions. -/
inductive Op where
  | reset
  | resize (n : Nat)
  | resetShift
  | posSet (i : Nat) (p : Int)
  | extSet (i : Nat) (e : KvCellExt)
  | seqAdd (i : Nat) (s : SeqId)
  | seqRm (i : Nat) (s : SeqId)
  | seqKeep (i : Nat) (s : SeqId)
  | rm (i : Nat)
  | posAdd (i : Nat) (d : Int)
  | posDiv (i : Nat) (d : Int)
  | cp (i n : Nat)
  | cpIdxs (idxs : List Nat)
  | set (i k : Nat)
  | setIdxs (idxs : List Nat) (k : Nat)

def step (σ : Session) : Op → Session
  | .reset => { σ with cells := σ.cells.reset }
  | .resize n => { σ with cells := σ.cells.resize n }
  | .resetShift => { σ with cells := σ.cells.resetShift, base := σ.cells.pos }
  | .posSet i p => { σ with cells := σ.cells.posSet i p, base := Function.update σ.base i p }
  | .extSet i e => { σ with cells := σ.cells.extSet i e }
  | .seqAdd i s => { σ with cells := σ.cells.seqAdd i s }
  | .seqRm i s => { σ with cells := (σ.cells.seqRm i s).1 }
  | .seqKeep i s => { σ with cells := (σ.cells.seqKeep i s).1 }
  | .rm i => { σ with cells := σ.cells.rm i }
  | .posAdd i d => { σ with cells := (σ.cells.posAdd i d).1 }
  | .posDiv i d => { σ with cells := σ.cells.posDiv i d }
  | .cp i n => { σ with saved := σ.saved ++ [σ.cells.cp i n] }
  | .cpIdxs idxs => { σ with saved := σ.saved ++ [σ.cells.cpIdxs idxs] }
  | .set i k => σ.restore (i + ·) k
  | .setIdxs idxs k => σ.restore (fun j => idxs.getD j 0) k

/-- The target cells of a `set` are in range and have no pending shift. -/
def Targets (σ : Session) (f : Nat → Nat) (n : Nat) : Prop :=
  ∀ j < n, f j < σ.cells.size ∧ σ.cells.shift (f j) = 0

instance (σ : Session) (f : Nat → Nat) (n : Nat) : Decidable (Targets σ f n) :=
  inferInstanceAs (Decidable (∀ j < n, f j < σ.cells.size ∧ σ.cells.shift (f j) = 0))

/-- The assertions of the call hold.  `pos_set` is called with a position that is
not negative and `pos_div` with a positive divisor. -/
def Op.Ok (σ : Session) : Op → Prop
  | .reset => True
  | .resize _ => True
  | .resetShift => True
  | .posSet i p => i < σ.cells.size ∧ σ.cells.pos i = -1 ∧ σ.cells.seq i = ∅ ∧ 0 ≤ p
  | .extSet i _ => i < σ.cells.size
  | .seqAdd i s => i < σ.cells.size ∧ σ.cells.pos i ≠ -1 ∧ s ∉ σ.cells.seq i
  | .seqRm i s => i < σ.cells.size ∧ s ∈ σ.cells.seq i ∧ σ.cells.pos i ≠ -1
  | .seqKeep i _ => i < σ.cells.size ∧ (σ.cells.seq i = ∅ → σ.cells.pos i = -1)
  | .rm i => i < σ.cells.size ∧ σ.cells.pos i ≠ -1
  | .posAdd i _ => i < σ.cells.size ∧ σ.cells.pos i ≠ -1
  | .posDiv i d => i < σ.cells.size ∧ σ.cells.pos i ≠ -1 ∧ 1 ≤ d
  | .cp i n => i + n ≤ σ.cells.size ∧ Targets σ (i + ·) n
  | .cpIdxs idxs => Targets σ (fun j => idxs.getD j 0) idxs.length
  | .set i k =>
    k < σ.saved.length ∧ i + (σ.copy k).size ≤ σ.cells.size ∧
      Targets σ (i + ·) (σ.copy k).size
  | .setIdxs idxs k =>
    k < σ.saved.length ∧ idxs.length = (σ.copy k).size ∧
      Targets σ (fun j => idxs.getD j 0) (σ.copy k).size

instance (σ : Session) : ∀ op, Decidable (Op.Ok σ op)
  | .reset | .resize _ | .resetShift => .isTrue trivial
  | .posSet .. => inferInstanceAs (Decidable (_ ∧ _ ∧ _ ∧ _))
  | .extSet .. => inferInstanceAs (Decidable (_ < _))
  | .seqAdd .. | .seqRm .. | .posDiv .. => inferInstanceAs (Decidable (_ ∧ _ ∧ _))
  | .seqKeep .. => inferInstanceAs (Decidable (_ ∧ (_ → _)))
  | .rm _ | .posAdd .. => inferInstanceAs (Decidable (_ ∧ _))
  | .cp .. => inferInstanceAs (Decidable (_ ∧ _))
  | .cpIdxs _ => inferInstanceAs (Decidable (Targets ..))
  | .set .. | .setIdxs .. => inferInstanceAs (Decidable (_ ∧ _ ∧ _))

/-! ## The invariant along a run -/

/-- The table is well kept and every copy holds cells of a well kept table. -/
structure Session.Inv (σ : Session) : Prop where
  cells : Rep σ.cells
  saved : ∀ kv ∈ σ.saved, Snapshot kv

theorem inv_init : Session.init.Inv where
  cells := rep_empty
  saved := by simp [Session.init]

variable {k i : Nat} {σ : Session} {f : Nat → Nat}

theorem Session.Inv.copy (h : σ.Inv) (hk : k < σ.saved.length) : Snapshot (σ.copy k) := by
  have hget : σ.copy k = σ.saved[k] := by simp [Session.copy, hk]
  rw [hget]
  exact h.saved _ (List.getElem_mem hk)

theorem Session.Inv.snoc (h : σ.Inv) {kv : KvCells} (hkv : Snapshot kv) :
    Session.Inv { σ with saved := σ.saved ++ [kv] } where
  cells := h.cells
  saved := by
    intro kv' hmem
    rcases List.mem_append.mp hmem with hmem | hmem
    · exact h.saved kv' hmem
    · rw [List.mem_singleton.mp hmem]
      exact hkv

theorem Session.Inv.restore (h : σ.Inv) (hk : k < σ.saved.length) (hf : Targets σ f (σ.copy k).size) :
    (σ.restore f k).Inv where
  cells := rep_setBy h.cells (h.copy hk) (fun j hj => (hf j hj).1) fun j hj _ => (hf j hj).2
  saved := h.saved

theorem inv_step (σ : Session) (op : Op) (h : σ.Inv) (hok : op.Ok σ) : (step σ op).Inv := by
  cases op with
  | reset => exact ⟨rep_reset _, h.saved⟩
  | resize n => exact ⟨rep_resize _ n, h.saved⟩
  | resetShift => exact ⟨rep_resetShift h.cells, h.saved⟩
  | posSet i p => exact ⟨rep_posSet h.cells hok.1 hok.2.1 hok.2.2.2, h.saved⟩
  | extSet i e => exact ⟨rep_extSet h.cells i e, h.saved⟩
  | seqAdd i s => exact ⟨rep_seqAdd h.cells hok.1 hok.2.1 hok.2.2, h.saved⟩
  | seqRm i s => exact ⟨rep_seqRm h.cells hok.1 hok.2.1, h.saved⟩
  | seqKeep i s => exact ⟨rep_seqKeep h.cells hok.1, h.saved⟩
  | rm i => exact ⟨rep_rm h.cells hok.1, h.saved⟩
  | posAdd i d => exact ⟨rep_posAdd h.cells hok.1 hok.2, h.saved⟩
  | posDiv i d => exact ⟨rep_posDiv h.cells hok.1 hok.2.1 hok.2.2, h.saved⟩
  | cp i n => exact h.snoc (h.cells.snapshot fun j hj => (hok.2 j hj).1)
  | cpIdxs idxs => exact h.snoc (h.cells.snapshot fun j hj => (hok j hj).1)
  | set i k | setIdxs idxs k => exact h.restore hok.1 hok.2.2

/-- After every run whose assertions hold, the indexes agree with the cells and
answer like a full scan. -/
theorem run_indexes_agree (ops : List Op) (hok : Runs.EachStep step (fun σ op => op.Ok σ) .init ops) :
    let kv := (Runs.exec step .init ops).cells
    (∀ i, i ∈ kv.used ↔ i < kv.size ∧ kv.pos i ≠ -1) ∧
    (∀ i < kv.size, kv.pos i = -1 → kv.seq i = ∅ ∧ kv.shift i = 0) ∧
    (∀ s p, (kv.seqPos s).lookup p =
      if kv.cellCount s p = 0 then none else some (kv.cellCount s p : Int)) ∧
    (∀ s, kv.seqPosMin s = (kv.scanPositions s).min?.getD (-1)) ∧
    (∀ s, kv.seqPosMax s = (kv.scanPositions s).max?.getD (-1)) ∧
    kv.usedMin = kv.scanUsed.min?.getD 0 ∧
    kv.usedMaxP1 = (kv.scanUsed.max?.map (· + 1)).getD 0 := by
  have hinv : (Runs.exec step .init ops).Inv := Runs.exec_of_step inv_step inv_init hok
  have h : Rep (Runs.exec step .init ops).cells := hinv.cells
  exact ⟨h.used_iff, fun i hi hp => ⟨h.seq_empty i hi hp, h.shift_zero i hi hp⟩, h.seqPos,
    h.seqPosMin_eq, h.seqPosMax_eq, h.usedMin_eq, h.usedMaxP1_eq⟩

/-- Two cells, of which one is saved, emptied and restored over the other. -/
theorem run_indexes_agree_saved :
    let kv := (Runs.exec step .init
      [.resize 3, .posSet 0 4, .seqAdd 0 1, .posSet 2 5, .seqAdd 2 1, .seqAdd 2 7,
        .cp 2 1, .seqRm 2 1, .posAdd 0 2, .posDiv 2 3, .resetShift, .set 0 0]).cells
    kv.seqPosMin 1 = 5 ∧ kv.seqPosMin 7 = 1 ∧
      kv.seqPosMin 1 = (kv.scanPositions 1).min?.getD (-1) :=
  ⟨by decide, by decide, (run_indexes_agree _ (by decide)).2.2.2.1 1⟩

/-! ## The accumulated shift -/

/-- Every non-empty cell is displaced from its base by its shift. -/
def NetShift (σ : Session) : Prop :=
  ∀ i < σ.cells.size, σ.cells.pos i ≠ -1 → σ.cells.pos i = σ.base i + σ.cells.shift i

/-- A division leaves the position of its cell where it is. -/
def DivStill (σ : Session) : Op → Prop
  | .posDiv i d => d = 1 ∨ σ.cells.pos i = 0
  | _ => True

theorem setBy_shift (kv : KvCells) (f : Nat → Nat) (other : KvCells) : (kv.setBy f other).shift = kv.shift := by
  unfold setBy
  induction List.range other.size generalizing kv with
  | nil => rfl
  | cons j l ih => rw [List.foldl_cons, ih, setCell_shift]

/-- `set` leaves the cells it does not name alone. -/
theorem setBy_pos_of_notMem (kv : KvCells) {other : KvCells} (hi : i ∉ (List.range other.size).map f) :
    (kv.setBy f other).pos i = kv.pos i := by
  unfold setBy
  generalize List.range other.size = l at hi ⊢
  induction l generalizing kv with
  | nil => rfl
  | cons j l ih =>
    simp only [List.map_cons, List.mem_cons, not_or] at hi
    rw [List.foldl_cons, ih _ hi.2, setCell_pos, if_neg hi.1]

theorem netShift_restore (h : NetShift σ) (hf : Targets σ f (σ.copy k).size) : NetShift (σ.restore f k) := by
  intro i hi hp
  have hi : i < σ.cells.size := (setBy_size ..) ▸ hi
  simp only [Session.restore] at hp ⊢
  rw [setBy_shift]
  by_cases hmem : i ∈ (List.range (σ.copy k).size).map f
  · obtain ⟨j, hj, rfl⟩ := List.mem_map.mp hmem
    rw [if_pos hmem, (hf j (List.mem_range.mp hj)).2, add_zero]
  · rw [setBy_pos_of_notMem _ hmem] at hp ⊢
    rw [if_neg hmem]
    exact h i hi hp

/-- A step that leaves the shifts alone, moves no cell and adds none keeps the net
shift. -/
theorem NetShift.of_frame {σ' : Session} (h : NetShift σ) (hsize : σ'.cells.size = σ.cells.size)
    (hbase : σ'.base = σ.base) (hcell : ∀ i, σ'.cells.pos i ≠ -1 →
      σ'.cells.pos i = σ.cells.pos i ∧ σ'.cells.shift i = σ.cells.shift i) : NetShift σ' := by
  intro i hi hp
  obtain ⟨hpos, hshift⟩ := hcell i hp
  rw [hpos, hshift, hbase]
  exact h i (hsize ▸ hi) (hpos ▸ hp)

theorem netShift_posAdd {d : Int} (h : NetShift σ) (hi : i < σ.cells.size) (hp : σ.cells.pos i ≠ -1) :
    NetShift (step σ (.posAdd i d)) := by
  intro j hj hpj
  simp only [step, posAdd_size, posAdd_pos, posAdd_shift] at hj hpj ⊢
  by_cases hji : j = i
  · subst hji
    have hbase := h j hi hp
    by_cases hneg : σ.cells.pos j + d < 0
    · simp [hneg] at hpj
    · simp only [hneg, if_true, if_false]
      omega
  · simp only [hji, if_false] at hpj ⊢
    exact h j hj hpj

/-- `pos_div` adds the displacement with the wrong sign, so the net shift survives
only where there is no displacement. -/
theorem netShift_posDiv_iff {d : Int} (hrep : Rep σ.cells) (h : NetShift σ) (hi : i < σ.cells.size)
    (hp : σ.cells.pos i ≠ -1) (hd : 1 ≤ d) :
    NetShift (step σ (.posDiv i d)) ↔ d = 1 ∨ σ.cells.pos i = 0 := by
  have hnn : 0 ≤ σ.cells.pos i := hrep.pos_nonneg hi hp
  have hbase := h i hi hp
  have hstill : (σ.cells.pos i).tdiv d = σ.cells.pos i ↔ d = 1 ∨ σ.cells.pos i = 0 := by
    constructor
    · intro heq
      by_contra hne
      have hlt : (σ.cells.pos i).tdiv d < σ.cells.pos i := by
        rw [Int.tdiv_eq_ediv_of_nonneg hnn]
        exact Int.ediv_lt_self_of_pos_of_ne_one (by omega) (by omega)
      omega
    · rintro (rfl | h0)
      · exact Int.tdiv_one _
      · rw [h0, Int.zero_tdiv]
  rw [← hstill]
  constructor
  · intro h'
    have hq : (σ.cells.pos i).tdiv d ≠ -1 := by
      have := Int.tdiv_nonneg hnn (b := d) (by omega)
      omega
    have := h' i hi (by simpa [step, posDiv_pos] using hq)
    simp only [step, posDiv_pos, posDiv_shift, if_true] at this
    omega
  · intro heq j hj hpj
    simp only [step, posDiv_pos, posDiv_shift, posDiv_size] at hj hpj ⊢
    by_cases hji : j = i
    · subst hji
      simp only [if_true, heq]
      omega
    · simp only [hji, if_false] at hpj ⊢
      exact h j hj hpj

theorem netShift_step_iff (σ : Session) (op : Op) (hinv : σ.Inv) (h : NetShift σ)
    (hok : op.Ok σ) : NetShift (step σ op) ↔ DivStill σ op := by
  cases op with
  | posDiv i d => exact netShift_posDiv_iff hinv.cells h hok.1 hok.2.1 hok.2.2
  | posAdd i d => exact iff_of_true (netShift_posAdd h hok.1 hok.2) trivial
  | set i k | setIdxs idxs k => exact iff_of_true (netShift_restore h hok.2.2) trivial
  | reset =>
    refine iff_of_true (fun i _ hp => ?_) trivial
    simp [step] at hp
  | resize n =>
    refine iff_of_true (fun i _ hp => ?_) trivial
    simp [step, resize] at hp
  | resetShift =>
    refine iff_of_true (fun i _ _ => ?_) trivial
    simp [step]
  | posSet i p =>
    -- the cell was empty, so it had no pending shift
    have hsh := hinv.cells.shift_zero i hok.1 hok.2.1
    refine iff_of_true (fun j hj hp => ?_) trivial
    simp only [step, posSet_size, posSet_pos, posSet_shift] at hj hp ⊢
    by_cases hji : j = i
    · subst hji
      simp [hsh]
    · simp only [Function.update_of_ne hji] at hp ⊢
      exact h j hj hp
  | extSet i e | seqAdd i s =>
    exact iff_of_true (h.of_frame rfl rfl fun j _ => ⟨rfl, rfl⟩) trivial
  | seqRm i s =>
    refine iff_of_true (h.of_frame (seqRm_size ..) rfl fun j hp => ?_) trivial
    simp only [step, seqRm_pos, seqRm_shift] at hp ⊢
    split_ifs at hp ⊢ <;> simp_all
  | seqKeep i s =>
    refine iff_of_true (h.of_frame (seqKeep_size ..) rfl fun j hp => ?_) trivial
    simp only [step, seqKeep_pos, seqKeep_shift] at hp ⊢
    split_ifs at hp ⊢ <;> simp_all
  | rm i =>
    refine iff_of_true (h.of_frame (rm_size ..) rfl fun j hp => ?_) trivial
    simp only [step, rm_pos, rm_shift] at hp ⊢
    split_ifs at hp ⊢ <;> simp_all
  | cp i n | cpIdxs idxs => exact iff_of_true (h.of_frame rfl rfl fun j _ => ⟨rfl, rfl⟩) trivial

/-- A run keeps `pos = base + shift` in every state exactly if each of its
divisions leaves the position of its cell unchanged. -/
theorem run_netShift_iff (ops : List Op)
    (hok : Runs.EachStep step (fun σ op => op.Ok σ) .init ops) :
    Runs.Along step NetShift .init ops ↔ Runs.EachStep step DivStill .init ops :=
  Runs.along_iff_eachStep inv_step netShift_step_iff inv_init
    (fun i hi _ => absurd hi (Nat.not_lt_zero i)) hok

/-- With only additions, the shift is the net displacement. -/
theorem run_netShift_posAdd :
    Runs.Along step NetShift .init
      [.resize 2, .posSet 0 4, .posSet 1 9, .posAdd 0 3, .resetShift, .posAdd 1 (-2), .posDiv 0 1] :=
  (run_netShift_iff _ (by decide)).mpr ⟨trivial, trivial, trivial, trivial, trivial, trivial,
    .inl rfl, trivial⟩

/-- Halving position `10` leaves position `5` with a shift of `5`. -/
theorem posDiv_shift_sign :
    ¬ ∀ ops, Runs.EachStep step (fun σ op => op.Ok σ) .init ops →
      Runs.Along step NetShift .init ops := by
  intro h
  have hrun := (h [.resize 1, .posSet 0 10, .resetShift, .posDiv 0 2] (by decide)).exec
  exact absurd (hrun 0 (by decide) (by decide)) (by decide)

end LlamaCpp.KvCells
