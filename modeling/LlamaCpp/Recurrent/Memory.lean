import LlamaCpp.Kv.Cache

/-!
# The recurrent memory

`llama_memory_recurrent`.  A cell plays two roles: cell `i` is a slot for a state, and
`tail` of cell `s` is the slot of sequence `s`.

An index into the cells that the source keeps in an `int32_t`, with `-1` for none, is an
`Option Nat` here.  A sequence id that has passed the range checks is a `Nat`; a raw
`llama_seq_id` is an `Int`.  The cells are a total function of the index.
-/

namespace LlamaCpp

structure RecurrentCell where
  pos : Int := -1
  /-- Where the state is copied from. -/
  src : Option Nat := none
  /-- Like `src`, but only used when setting the inputs. -/
  src0 : Option Nat := none
  /-- The cell of the sequence that this cell stands for. -/
  tail : Option Nat := none
  seqId : Finset Nat := ∅

namespace RecurrentCell

def hasSeqId (cell : RecurrentCell) (id : Int) : Bool := 0 ≤ id && id.toNat ∈ cell.seqId

def isEmpty (cell : RecurrentCell) : Bool := cell.seqId = ∅

end RecurrentCell

/-- The constructor arguments that the operations read. -/
structure RecurrentConfig where
  /-- `mem_size`: `n_seq_max`, but at least one. -/
  size : Nat
  nSeqMax : Nat
  nRsSeq : Nat
  size_pos : 0 < size
  nSeqMax_le : nSeqMax ≤ size
  /-- Rows are counted in an `int32_t`. -/
  rows_lt : size * (1 + nRsSeq) < 2 ^ 31

structure RecurrentMemory where
  /-- Where the batch is placed. -/
  head : Nat := 0
  /-- Cells with at least one sequence. -/
  used : Nat := 0
  /-- The number of cells that the current graph works on. -/
  n : Nat := 0
  /-- First zero-ed state. -/
  rsZ : Option Nat := none
  /-- Per-sequence rollback index. -/
  rsIdx : Nat → Nat := fun _ => 0
  cells : Nat → RecurrentCell := fun _ => {}

/-- One less, in 32 bits. -/
def decr32 (n : Nat) : Nat := if n = 0 then 2 ^ 32 - 1 else n - 1

namespace RecurrentMemory

variable (c : RecurrentConfig) (m : RecurrentMemory)

def modify (i : Nat) (f : RecurrentCell → RecurrentCell) : RecurrentMemory :=
  { m with cells := Function.update m.cells i (f (m.cells i)) }

/-- `cells[s].tail = t` -/
def setTail (s : Nat) (t : Option Nat) : RecurrentMemory :=
  m.modify s fun cell => { cell with tail := t }

/-- `used -= 1` -/
def decrUsed : RecurrentMemory := { m with used := decr32 m.used }

/-- `clear`; the data is not part of the model. -/
def clear : RecurrentMemory :=
  { m with
    head := 0
    used := 0
    rsIdx := fun _ => 0
    cells := fun i =>
      if i < c.size then { m.cells i with pos := -1, seqId := ∅, src := none, tail := none }
      else m.cells i }

def setRsIdx (seqId : Int) (idx : Nat) : RecurrentMemory :=
  if seqId < 0 ∨ c.nSeqMax ≤ seqId then m
  else { m with rsIdx := Function.update m.rsIdx seqId.toNat (if c.nRsSeq < idx then c.nRsSeq else idx) }

/-! ## Removing -/

/-- `head = new_head` where a slot before it was freed. -/
def moveHead (newHead : Nat) : RecurrentMemory :=
  if newHead ≠ c.size ∧ newHead < m.head then { m with head := newHead } else m

/-- The loop of `seq_rm` over the cells; the second component is `new_head`. -/
def seqRmCell (seqId p0 p1 : Int) (σ : RecurrentMemory × Nat) (i : Nat) : RecurrentMemory × Nat :=
  let m := σ.1
  let cell := m.cells i
  if p0 ≤ cell.pos ∧ cell.pos < p1 ∧ (seqId < 0 ∨ cell.hasSeqId seqId) then
    let seqIds := if seqId < 0 then ∅ else cell.seqId.erase seqId.toNat
    if seqIds = ∅ then
      -- keep count of the number of used cells
      let m := if 0 ≤ cell.pos then m.decrUsed else m
      (m.modify i fun cell => { cell with seqId := ∅, pos := -1, src := none },
        if σ.2 = c.size then i else σ.2)
    else (m.modify i fun cell => { cell with seqId := seqIds }, σ.2)
  else σ

/-- What `seq_rm` does behind its early exits. -/
def seqRmCells (seqId p0 p1 : Int) : RecurrentMemory :=
  let σ := (List.range c.size).foldl (seqRmCell c seqId p0 p1) (m, c.size)
  σ.1.moveHead c σ.2

def seqRm (seqId p0 p1 : Int) : Bool × RecurrentMemory :=
  let p0 := rangeLo p0
  let p1 := rangeHi p1
  let m := if p0 = 0 ∧ p1 = llamaPosMax then
      if 0 ≤ seqId then m.setRsIdx c seqId 0 else { m with rsIdx := fun _ => 0 }
    else m
  if c.size ≤ seqId then (false, m)
  else if 0 ≤ seqId then
    match (m.cells seqId.toNat).tail with
    | none => (true, m.seqRmCells c seqId p0 p1)
    | some tailId =>
      let cell := m.cells tailId
      if 0 < p0 ∧ p0 ≤ cell.pos ∧ cell.pos < p1 then
        -- partial rollback via per-token snapshot index
        let rollback := cell.pos - (p0 - 1)
        if 1 ≤ rollback ∧ rollback ≤ c.nRsSeq then
          (true, (m.setRsIdx c seqId rollback.toNat).modify tailId fun cell =>
            { cell with pos := p0 - 1 })
        else (false, m)
      else if p0 ≤ cell.pos ∧ cell.pos < p1 then
        -- invalidate tails which will be cleared
        (true, (m.setTail seqId.toNat none).seqRmCells c seqId p0 p1)
      else (true, m.seqRmCells c seqId p0 p1)
  -- seq_id is negative, then the range should include everything or nothing
  else if p0 ≠ p1 ∧ (p0 ≠ 0 ∨ p1 ≠ llamaPosMax) then (false, m)
  else (true, m.seqRmCells c seqId p0 p1)

/-! ## Copying and keeping -/

/-- Take sequence `s` out of its cell. -/
def releaseTail (s : Nat) : RecurrentMemory :=
  match (m.cells s).tail with
  | none => m
  | some t =>
    let m := m.modify t fun cell => { cell with seqId := cell.seqId.erase s }
    let m := m.setTail s none
    if (m.cells t).isEmpty then
      (m.modify t fun cell => { cell with pos := -1, src := none }).decrUsed
    else m

/-- `seq_cp`; the range does not matter. -/
def seqCp (seqIdSrc seqIdDst : Int) : RecurrentMemory :=
  if seqIdSrc = seqIdDst then m
  else if (0 ≤ seqIdDst ∧ seqIdDst < c.size) ∧ 0 ≤ seqIdSrc ∧ seqIdSrc < c.size then
    -- clear destination seq_id if it wasn't empty
    let m := m.releaseTail seqIdDst.toNat
    match (m.cells seqIdSrc.toNat).tail with
    | none => m
    | some t =>
      (m.modify t fun cell => { cell with seqId := insert seqIdDst.toNat cell.seqId }).setTail
        seqIdDst.toNat (some t)
  else m

/-- The loop of `seq_keep` over the cells. -/
def seqKeepCell (seqId : Int) (σ : RecurrentMemory × Nat) (i : Nat) : RecurrentMemory × Nat :=
  let m := if (i : Int) ≠ seqId then σ.1.setTail i none else σ.1
  if !(m.cells i).hasSeqId seqId then
    let m := if 0 ≤ (m.cells i).pos then m.decrUsed else m
    (m.modify i fun cell => { cell with pos := -1, src := none, seqId := ∅ },
      if σ.2 = c.size then i else σ.2)
  else (m.modify i fun cell => { cell with seqId := {seqId.toNat} }, σ.2)

def seqKeep (seqId : Int) : RecurrentMemory :=
  let σ := (List.range c.size).foldl (seqKeepCell c seqId) (m, c.size)
  σ.1.moveHead c σ.2

/-! ## Shifting -/

/-- The body of `seq_add` and `seq_div`: the position of the tail of a sequence, if it lies
in the range. -/
def mapPos (seqId p0 p1 : Int) (f : Int → Int) : RecurrentMemory :=
  let p0 := rangeLo p0
  let p1 := rangeHi p1
  if p0 = p1 then m
  else if 0 ≤ seqId ∧ seqId < c.size then
    match (m.cells seqId.toNat).tail with
    | none => m
    | some tailId =>
      let cell := m.cells tailId
      if cell.hasSeqId seqId ∧ p0 ≤ cell.pos ∧ cell.pos < p1 then
        m.modify tailId fun cell => { cell with pos := f cell.pos }
      else m
  else m

/-- `seq_add`; the sum is taken in 32 bits. -/
def seqAdd (seqId p0 p1 shift : Int) : RecurrentMemory :=
  if shift = 0 then m else m.mapPos c seqId p0 p1 fun pos => (pos + shift).bmod (2 ^ 32)

/-- `seq_div`, for a divisor that is not 0. -/
def seqDiv (seqId p0 p1 d : Int) : RecurrentMemory :=
  if d = 1 then m else m.mapPos c seqId p0 p1 (·.tdiv d)

/-! ## Positions of a sequence -/

def seqPosMax (seqId : Int) : Int :=
  (List.range c.size).foldl (fun result i =>
    if (m.cells i).hasSeqId seqId then max result (m.cells i).pos else result) (-1)

end RecurrentMemory

end LlamaCpp
