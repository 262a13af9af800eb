import Mathlib.Data.Finset.Sort
import LlamaCpp.Basic
import LlamaCpp.Lib.CountMap

/-!
# The cell table

`llama_kv_cells`: the metadata of the cells of one KV stream.  Per cell the table
keeps a position (`-1` when the cell is empty), the extra record, the accumulated
shift and the set of sequences that occupy the cell.  Three indexes are kept
beside the cells by hand: the set `used` of non-empty cells, the flag `hasShift`,
and for every sequence a map from positions to the number of cells holding them.

A vector of the source is a total function of the index together with the common
`size`; only indices below `size` mean anything.  `llama_pos` and the counts are
`Int`: the arithmetic of the source on them is signed, so a run that overflows has
no defined behaviour and needs no model.  A bitset over `LLAMA_MAX_SEQ` sequences
is a `Finset SeqId`.  The debug-only `assert`s do not appear here, since a build
with `NDEBUG` runs the bodies without them; they are the preconditions of the
runs in `LlamaCpp.Kv.CellsRuns`.
-/

namespace LlamaCpp

/-- `llama_kv_cell_ext`: the 2D position and the token of a cell. -/
structure KvCellExt where
  x : Int := 0
  y : Int := 0
  tok : Int := llamaTokenNull
deriving DecidableEq

structure KvCells where
  /-- The common length of the four vectors. -/
  size : Nat
  hasShift : Bool
  /-- The indices of the non-empty cells. -/
  used : Finset Nat
  pos : Nat → Int
  ext : Nat → KvCellExt
  /-- What `posAdd` and `posDiv` accumulated since the last `resetShift`. -/
  shift : Nat → Int
  seq : Nat → Finset SeqId
  /-- How many times each position is present for each sequence. -/
  seqPos : SeqId → CountMap Int

namespace KvCells

/-! ## Whole-table operations -/

/-- A default-constructed table: no cells. -/
def empty : KvCells where
  size := 0
  hasShift := false
  used := ∅
  pos := fun _ => -1
  ext := fun _ => {}
  shift := fun _ => 0
  seq := fun _ => ∅
  seqPos := fun _ => ∅

@[simps] def reset (kv : KvCells) : KvCells :=
  { kv with
    pos := fun _ => -1, ext := fun _ => {}, shift := fun _ => 0, seq := fun _ => ∅
    hasShift := false, used := ∅, seqPos := fun _ => ∅ }

@[simps] def resetShift (kv : KvCells) : KvCells :=
  { kv with hasShift := false, shift := fun _ => 0 }

def resize (kv : KvCells) (n : Nat) : KvCells := reset { kv with size := n }

/-! ## Reading -/

def isEmpty (kv : KvCells) (i : Nat) : Bool := decide (kv.pos i = -1)

def getUsed (kv : KvCells) : Nat := kv.used.card

/-- `used_min`: the first used cell, `0` if there is none. -/
def usedMin (kv : KvCells) : Nat := kv.used.min.untopD 0

/-- `used_max_p1`: the last used cell plus one, `0` if there is none. -/
def usedMaxP1 (kv : KvCells) : Nat := (kv.used.max.map (· + 1)).unbotD 0

def seqCount (kv : KvCells) (i : Nat) : Nat := (kv.seq i).card

def seqHas (kv : KvCells) (i : Nat) (s : SeqId) : Bool := decide (s ∈ kv.seq i)

/-- `seq_get`: the first sequence of the cell; `none` stands for `-1`. -/
def seqGet (kv : KvCells) (i : Nat) : Option SeqId :=
  (List.finRange llamaMaxSeq).find? fun s => decide (s ∈ kv.seq i)

/-- `seq_pos_min`: the least position of the sequence, `-1` if it has none. -/
def seqPosMin (kv : KvCells) (s : SeqId) : Int := (CountMap.minKey? (kv.seqPos s)).getD (-1)

/-- `seq_pos_max`: the greatest position of the sequence, `-1` if it has none. -/
def seqPosMax (kv : KvCells) (s : SeqId) : Int := (CountMap.maxKey? (kv.seqPos s)).getD (-1)

def posIn (kv : KvCells) (i : Nat) (p0 p1 : Int) : Bool :=
  decide (p0 ≤ kv.pos i ∧ kv.pos i < p1)

/-- `for_each_token_in`: the calls `f(s, pos, tok)` the callback receives, in order. -/
def forEachTokenIn (kv : KvCells) (seqs : Finset SeqId) (p0 p1 : Int) :
    List (SeqId × Int × Int) :=
  (kv.used.sort (· ≤ ·)).flatMap fun i =>
    if kv.pos i < p0 ∨ p1 ≤ kv.pos i then []
    else ((List.finRange llamaMaxSeq).filter fun s => decide (s ∈ kv.seq i ∩ seqs)).map
      fun s => (s, kv.pos i, (kv.ext i).tok)

/-! ## The position index -/

@[simps] def seqPosDec (kv : KvCells) (s : SeqId) (p : Int) : KvCells :=
  { kv with seqPos := Function.update kv.seqPos s (CountMap.dec (kv.seqPos s) p) }

@[simps] def seqPosInc (kv : KvCells) (s : SeqId) (p : Int) : KvCells :=
  { kv with seqPos := Function.update kv.seqPos s (CountMap.inc (kv.seqPos s) p) }

/-- `seq_pos_rm`: take cell `i` out of the index.  The loop over `s` touches only
the map of `s` in its iteration, so it is written pointwise. -/
@[simps] def seqPosRm (kv : KvCells) (i : Nat) : KvCells :=
  { kv with
    seqPos := fun s =>
      if s ∈ kv.seq i then CountMap.dec (kv.seqPos s) (kv.pos i) else kv.seqPos s }

/-- `seq_pos_add`: put cell `i` into the index. -/
@[simps] def seqPosAdd (kv : KvCells) (i : Nat) : KvCells :=
  { kv with
    seqPos := fun s =>
      if s ∈ kv.seq i then CountMap.inc (kv.seqPos s) (kv.pos i) else kv.seqPos s }

/-! ## Writing one cell -/

/-- The five assignments that leave cell `i` empty, without the position index. -/
@[simps] def vacate (kv : KvCells) (i : Nat) : KvCells :=
  { kv with
    pos := Function.update kv.pos i (-1), ext := Function.update kv.ext i {}
    shift := Function.update kv.shift i 0, seq := Function.update kv.seq i ∅
    used := kv.used.erase i }

/-- `rm`: clear a non-empty cell. -/
def rm (kv : KvCells) (i : Nat) : KvCells := (kv.seqPosRm i).vacate i

/-- `seq_rm`: take `s` out of cell `i`; `true` if the cell becomes empty. -/
def seqRm (kv : KvCells) (i : Nat) (s : SeqId) : KvCells × Bool :=
  let kv₁ := { kv with seq := Function.update kv.seq i ((kv.seq i).erase s) }
  let kv₂ := kv₁.seqPosDec s (kv.pos i)
  if kv₂.seq i = ∅ then (kv₂.vacate i, true) else (kv₂, false)

/-- `seq_keep`: leave only `s` in cell `i`; `true` if the cell becomes empty. -/
def seqKeep (kv : KvCells) (i : Nat) (s : SeqId) : KvCells × Bool :=
  if s ∈ kv.seq i then
    let kv₁ := kv.seqPosRm i
    let kv₂ := { kv₁ with seq := Function.update kv₁.seq i {s} }
    (kv₂.seqPosInc s (kv.pos i), false)
  else if kv.seq i ≠ ∅ then ((kv.seqPosRm i).vacate i, true)
  else (kv, false)

/-- `seq_add`: put `s` into cell `i`. -/
def seqAdd (kv : KvCells) (i : Nat) (s : SeqId) : KvCells :=
  let kv₁ := { kv with seq := Function.update kv.seq i (insert s (kv.seq i)) }
  kv₁.seqPosInc s (kv.pos i)

/-- `pos_set`: give an empty cell a position. -/
@[simps] def posSet (kv : KvCells) (i : Nat) (p : Int) : KvCells :=
  { kv with pos := Function.update kv.pos i p, used := insert i kv.used }

@[simps] def extSet (kv : KvCells) (i : Nat) (e : KvCellExt) : KvCells :=
  { kv with ext := Function.update kv.ext i e }

/-- `pos_add`: shift cell `i` by `d`; `true` if it falls below zero and is emptied.
The emptied cell keeps its extra record. -/
def posAdd (kv : KvCells) (i : Nat) (d : Int) : KvCells × Bool :=
  let kv₁ := kv.seqPosRm i
  let kv₂ :=
    { kv₁ with
      pos := Function.update kv₁.pos i (kv₁.pos i + d)
      shift := Function.update kv₁.shift i (kv₁.shift i + d)
      hasShift := true }
  if kv₂.pos i < 0 then
    ({ kv₂ with
       seq := Function.update kv₂.seq i ∅, pos := Function.update kv₂.pos i (-1)
       shift := Function.update kv₂.shift i 0, used := kv₂.used.erase i }, true)
  else (kv₂.seqPosAdd i, false)

/-- `pos_div`: divide the position of cell `i` by `d`, rounding toward zero. -/
def posDiv (kv : KvCells) (i : Nat) (d : Int) : KvCells :=
  let pOld := kv.pos i
  let kv₁ := kv.seqPosRm i
  let kv₂ := { kv₁ with pos := Function.update kv₁.pos i ((kv₁.pos i).tdiv d) }
  let kv₃ := { kv₂ with shift := Function.update kv₂.shift i (kv₂.shift i + (pOld - kv₂.pos i)) }
  { kv₃.seqPosAdd i with hasShift := true }

/-! ## Saving and restoring cells -/

/-- Copy the `n` cells `f 0, f 1, ...` into a fresh table.  Only positions, extra
records and sequence sets are copied: the copy has no indexes of its own. -/
def cpBy (kv : KvCells) (n : Nat) (f : Nat → Nat) : KvCells :=
  { empty.resize n with
    pos := fun j => if j < n then kv.pos (f j) else -1
    ext := fun j => if j < n then kv.ext (f j) else {}
    seq := fun j => if j < n then kv.seq (f j) else ∅ }

def cp (kv : KvCells) (i n : Nat) : KvCells := kv.cpBy n (i + ·)

/-- `cp(idxs)`. -/
def cpIdxs (kv : KvCells) (idxs : List Nat) : KvCells :=
  kv.cpBy idxs.length fun j => idxs.getD j 0

/-- One iteration of `set`: cell `idx` becomes cell `j` of `other`. -/
def setCell (kv : KvCells) (idx : Nat) (other : KvCells) (j : Nat) : KvCells :=
  let used₁ := if kv.pos idx = -1 ∧ other.pos j ≠ -1 then insert idx kv.used else kv.used
  let used₂ := if kv.pos idx ≠ -1 ∧ other.pos j = -1 then used₁.erase idx else used₁
  let kv₁ := { kv with used := used₂ }
  let kv₂ := if kv.pos idx ≠ -1 then kv₁.seqPosRm idx else kv₁
  let kv₃ :=
    { kv₂ with
      pos := Function.update kv₂.pos idx (other.pos j)
      ext := Function.update kv₂.ext idx (other.ext j)
      seq := Function.update kv₂.seq idx (other.seq j) }
  if kv₃.pos idx ≠ -1 then kv₃.seqPosAdd idx else kv₃

/-- The loop of both `set`s, over the cells `f 0, f 1, ...`. -/
def setBy (kv : KvCells) (f : Nat → Nat) (other : KvCells) : KvCells :=
  (List.range other.size).foldl (fun kv j => kv.setCell (f j) other j) kv

/-- `set(idxs, other)`. -/
def setIdxs (kv : KvCells) (idxs : List Nat) (other : KvCells) : KvCells :=
  kv.setBy (fun j => idxs.getD j 0) other

end KvCells

end LlamaCpp
