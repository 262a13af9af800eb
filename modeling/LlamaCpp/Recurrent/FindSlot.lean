import LlamaCpp.Recurrent.Memory

/-!
# Placing a ubatch in the recurrent memory

`find_slot` gives every sequence set of a ubatch a cell of its own, moves these cells next
to each other and stages the rows that the states are copied from.  A failed assertion is
`none`, and so is an index out of range.
-/

namespace LlamaCpp

/-- What `find_slot` reads of a `llama_ubatch`.  The sequence ids are raw. -/
structure RecurrentUbatch where
  bEqualSeqs : Bool
  nSeqTokens : Nat
  nSeqs : Nat
  pos : Nat → Int
  seqId : Nat → List Int

namespace RecurrentUbatch

variable (ubatch : RecurrentUbatch)

/-- The sequences of set `s`, those of its first token. -/
def seqSet (s : Nat) : List Int := ubatch.seqId (s * ubatch.nSeqTokens)

/-- `ubatch.seq_id[i][0]`, in range after the first loop. -/
def first (s : Nat) : Nat := ((ubatch.seqSet s).headD 0).toNat

/-- The position of the last token of set `s`. -/
def lastPos (s : Nat) : Int := ubatch.pos (s * ubatch.nSeqTokens + ubatch.nSeqTokens - 1)

end RecurrentUbatch

namespace RecurrentMemory

variable (c : RecurrentConfig) (m : RecurrentMemory) (ubatch : RecurrentUbatch)

/-! ## Checking the sequences -/

/-- The loop over the sequences of a set from index `j` on; it stops at an id that is out of
range. -/
def checkSet : List Int → Nat → RecurrentMemory → Bool × RecurrentMemory
  | [], _, m => (true, m)
  | seqId :: ids, j, m =>
    if seqId < 0 ∨ c.size ≤ seqId then (false, m)
    -- clear cells from seq_ids that become shared
    else checkSet ids (j + 1) (if 0 < j then m.releaseTail seqId.toNat else m)

def checkSets : List Nat → RecurrentMemory → Bool × RecurrentMemory
  | [], m => (true, m)
  | s :: sets, m =>
    match checkSet c (ubatch.seqSet s) 0 m with
    | (false, m) => (false, m)
    | (true, m) => checkSets sets m

/-! ## Finding cells -/

/-- An index past the end starts over. -/
def wrap (i : Nat) : Nat := if c.size ≤ i then i - c.size else i

/-- The search for an empty cell from `i` on. -/
def findEmpty : Nat → Nat → Nat
  | 0, i => i
  | k + 1, i => if (m.cells (wrap c i)).isEmpty then wrap c i else findEmpty k (wrap c i + 1)

/-- The search for the next empty cell behind `i`. -/
def findEmptyBehind : Nat → Nat → Nat
  | 0, i => i
  | k + 1, i =>
    if (m.cells (wrap c (i + 1))).isEmpty then wrap c (i + 1) else findEmptyBehind k (wrap c (i + 1))

/-- What the loop that finds the usable range carries. -/
structure SlotSearch where
  mem : RecurrentMemory
  nextEmptyCell : Nat
  min : Nat
  max : Nat

def takeEmptyCell (m : RecurrentMemory) (s e : Nat) : Option RecurrentMemory :=
  if c.size ≤ e ∨ ¬(m.cells e).isEmpty then none
  else
    match (m.cells s).tail with
    | none => some (m.setTail s (some e))
    | some t =>
      -- copy old tail into the empty cell
      let orig := m.cells t
      let m := m.modify e fun cell => { cell with pos := orig.pos, src := orig.src }
      let m := m.modify t fun cell => { cell with seqId := cell.seqId.erase s }
      let m := m.modify e fun cell => { cell with seqId := insert s cell.seqId }
      if (m.cells t).isEmpty then none else some (m.setTail s (some e))

/-- Note the cell of a set. -/
def SlotSearch.cover (σ : SlotSearch) (tail : Nat) : SlotSearch :=
  { σ with min := if tail < σ.min then tail else σ.min, max := if σ.max < tail then tail else σ.max }

/-- The set whose first sequence is `s` gets a cell of its own; `last` for the last set. -/
def claimCell (s : Nat) (last : Bool) (σ : SlotSearch) : Option SlotSearch :=
  let m := σ.mem
  let takeEmpty : Option SlotSearch := do
    let m ← takeEmptyCell c m s σ.nextEmptyCell
    let next := if last then σ.nextEmptyCell else findEmptyBehind c m c.size σ.nextEmptyCell
    return { σ with mem := m, nextEmptyCell := next }.cover σ.nextEmptyCell
  match (m.cells s).tail with
  | none => takeEmpty
  | some t =>
    if s ∉ (m.cells t).seqId then none
    -- does this seq_id "own" the cell?
    else if (m.cells t).seqId.card = 1 then some (σ.cover t)
    else takeEmpty

/-! ## Moving cells -/

/-- Swap the contents of two cells, and the tails that name them. -/
def swapCells (dstId srcId : Nat) : RecurrentMemory :=
  let dst := m.cells dstId
  let src := m.cells srcId
  let m := m.modify dstId fun cell => { cell with pos := src.pos, src := src.src, seqId := src.seqId }
  let m := m.modify srcId fun cell => { cell with pos := dst.pos, src := dst.src, seqId := dst.seqId }
  { m with
    cells := fun j =>
      if j < c.size then
        let cell := m.cells j
        { cell with tail :=
          if cell.tail = some srcId then some dstId
          else if cell.tail = some dstId then some srcId
          else cell.tail }
      else m.cells j }

def gatherCell (min : Nat) (m : RecurrentMemory) (s : Nat) : Option RecurrentMemory :=
  match (m.cells (ubatch.first s)).tail with
  | none => none
  | some srcId => some (if s + min ≠ srcId then m.swapCells c (s + min) srcId else m)

/-- The sequences of a set get their cell. -/
def enterSeq (cellId : Nat) (m : RecurrentMemory) (seqId : Int) : RecurrentMemory :=
  (m.modify cellId fun cell => { cell with seqId := insert seqId.toNat cell.seqId }).setTail
    seqId.toNat (some cellId)

/-- Update the position and the sequences of the cell of set `s`. -/
def enterSet (min : Nat) (m : RecurrentMemory) (s : Nat) : RecurrentMemory :=
  (ubatch.seqSet s).foldl (enterSeq (s + min))
    (m.modify (s + min) fun cell => { cell with pos := ubatch.lastPos s, seqId := ∅ })

/-! ## Staging the source rows -/

/-- `refcounts[i]` -/
def refcount (i : Nat) : Nat := (List.range c.size).countP fun j => (m.cells j).src = some i

/-- `for (int i = min; i <= max; ++i)` -/
def rangeIncl (min max : Nat) : List Nat := List.range' min (max + 1 - min)

/-- The first cell of the range without references, to use as the zero-ed state. -/
def zeroRow (min max : Nat) : Option Nat := (rangeIncl min max).find? fun i => m.refcount c i = 0

def stageCell (m : RecurrentMemory) (i : Nat) : Option RecurrentMemory :=
  match (m.cells i).src with
  | none =>
    match m.rsZ with
    | none => none
    | some z => some (m.modify i fun cell => { cell with src0 := some z, src := some i })
  | some r => some (m.modify i fun cell => { cell with src0 := some r, src := some i })

def nonEmpty : Finset Nat := (Finset.range c.size).filter fun i => ¬(m.cells i).isEmpty

def findSlot : Option (Bool × RecurrentMemory) :=
  -- better to start searching from the beginning of the cache, hoping to fill it
  let m := if (m.used + 2 * ubatch.nSeqs) % 2 ^ 32 < m.head then { m with head := 0 } else m
  if !ubatch.bEqualSeqs then none
  else
    match checkSets c ubatch (List.range ubatch.nSeqs) m with
    | (false, m) => some (false, m)
    | (true, m) => do
        let search : SlotSearch :=
          { mem := m, nextEmptyCell := findEmpty c m c.size m.head, min := c.size - 1, max := 0 }
        let search ← (List.range ubatch.nSeqs).foldlM
          (fun σ s => claimCell c (ubatch.first s) (s + 1 = ubatch.nSeqs) σ) search
        let min := search.min
        let max := search.max
        let m ← (List.range ubatch.nSeqs).foldlM (gatherCell c ubatch min) search.mem
        let m := (List.range ubatch.nSeqs).foldl (enterSet ubatch min) m
        let m := { m with rsZ := m.zeroRow c min max }
        let m ← (rangeIncl min max).foldlM stageCell m
        let n := max + 1 - min
        return (ubatch.nSeqs ≤ n, { m with head := min, n := n, used := (m.nonEmpty c).card })

end RecurrentMemory

end LlamaCpp
