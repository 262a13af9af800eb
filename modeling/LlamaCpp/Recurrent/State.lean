import LlamaCpp.Kv.State
import LlamaCpp.Recurrent.FindSlot

/-!
# Saving and restoring the recurrent memory

`state_write` and `state_read` of `llama_memory_recurrent`.  The rows of the tensors are
written from `data`, and reading them back only takes their bytes: what they hold does not
influence anything else.
-/

namespace LlamaCpp

open Readers (Reader putLE takeLE expectLE modifySt getSt)
open KvCache (putI32 takeI32)

inductive RecurrentTensor where
  | r
  /-- The PLE conv history. -/
  | p
  | s

/-- The tensors that a layer has; `p` only has a row size. -/
structure RecurrentLayer where
  r : Option KvRow
  p : Option UInt64
  s : Option KvRow

structure RecurrentLayout where
  layers : List RecurrentLayer
  /-- The number of layers is written as a `uint32_t`. -/
  layers_lt : layers.length < 2 ^ 32

/-- The rows of the tensors of the layers. -/
abbrev RecurrentData := RecurrentTensor → Nat → Nat → List UInt8

namespace RecurrentMemory

variable (c : RecurrentConfig) (m : RecurrentMemory)

/-! ## `state_write` -/

def isSaved (seqId : Int) (i : Nat) : Bool :=
  (seqId = -1 && !(m.cells i).isEmpty) || (m.cells i).hasSeqId seqId

/-- The loop over the sequences of a cell; `none` if their rollback indices differ. -/
def sharedRsIdx : List Nat → Option Nat → Option Nat
  | [], idx => some (idx.getD 0)
  | s :: ids, idx =>
    if c.nSeqMax ≤ s then none
    else
      match idx with
      | none => sharedRsIdx ids (some (m.rsIdx s))
      | some cur => if cur ≠ m.rsIdx s then none else sharedRsIdx ids (some cur)

def rsIdxCur (seqId : Int) (i : Nat) : Option Nat :=
  if c.nRsSeq = 0 then some 0
  else if seqId ≠ -1 then if seqId < 0 ∨ c.nSeqMax ≤ seqId then none else some (m.rsIdx seqId.toNat)
  else m.sharedRsIdx c ((m.cells i).seqId.sort (· ≤ ·)) none

/-- `cell_id`: the row that cell `i` is read from. -/
def savedRow (seqId : Int) (i : Nat) : Option Nat :=
  (m.rsIdxCur c seqId i).map fun idx => idx * c.size + ((m.cells i).src.getD i)

/-- One more row in `cell_ranges_data`, the last range first. -/
def addRow : List (Nat × Nat) → Nat → List (Nat × Nat)
  | [], row => [(row, row + 1)]
  | r :: ranges, row => if r.2 ≠ row then (row, row + 1) :: r :: ranges else (r.1, r.2 + 1) :: ranges

def savedCells (seqId : Int) : List Nat := (List.range c.size).filter (m.isSaved seqId)

/-- `cell_ranges_data` -/
def savedRanges (seqId : Int) : Option (List (Nat × Nat)) := do
  let rows ← (m.savedCells c seqId).mapM (m.savedRow c seqId)
  return (rows.foldl addRow []).reverse

def writeCell (seqId : Int) (i : Nat) : List UInt8 :=
  let ids := if seqId = -1 then (m.cells i).seqId.sort (· ≤ ·) else []
  putI32 (m.cells i).pos ++ (putLE 4 ids.length ++ ids.flatMap fun s => putI32 s)

/-- `state_write_meta`; `cell_ranges` are the saved cells. -/
def writeMeta (seqId : Int) : List UInt8 := (m.savedCells c seqId).flatMap (m.writeCell seqId)

def writeRows (rows : Nat → List UInt8) (ranges : List (Nat × Nat)) : List UInt8 :=
  ranges.flatMap fun r => (List.range' r.1 (r.2 - r.1)).flatMap rows

/-- A tensor with its type and the size of its rows. -/
def writeRow (rows : Nat → List UInt8) (ranges : List (Nat × Nat)) : Option KvRow → List UInt8
  | none => []
  | some row => putLE 4 row.ty.toNat ++ (putLE 8 row.sizeRow.toNat ++ writeRows rows ranges)

/-- The PLE conv history of a layer; it travels with `r`. -/
def writePle (data : RecurrentData) (ranges : List (Nat × Nat)) (layer : RecurrentLayer × Nat) :
    List UInt8 :=
  match layer.1.r, layer.1.p with
  | some _, some sizeRow => putLE 8 sizeRow.toNat ++ writeRows (data .p layer.2) ranges
  | _, _ => []

/-- `state_write_data`; the state is not transposed. -/
def writeData (L : RecurrentLayout) (data : RecurrentData) (ranges : List (Nat × Nat)) :
    List UInt8 :=
  putLE 4 0 ++ (putLE 4 L.layers.length ++
    ((L.layers.zipIdx.flatMap fun layer =>
        writeRow (data .r layer.2) ranges layer.1.r ++ writePle data ranges layer) ++
      L.layers.zipIdx.flatMap fun layer => writeRow (data .s layer.2) ranges layer.1.s))

/-- `state_write`; `none` if the rollback indices of a cell differ. -/
def stateWrite (L : RecurrentLayout) (data : RecurrentData) (seqId : Int) : Option (List UInt8) := do
  let ranges ← m.savedRanges c seqId
  return putLE 4 (m.savedCells c seqId).length ++ (m.writeMeta c seqId ++ writeData L data ranges)

/-! ## `state_read_meta` -/

/-- The positions of the cells of a saved sequence; `none` if one of them has a sequence. -/
def readSeqCells : Nat → Reader Unit (Option (List Int))
  | 0 => return some []
  | n + 1 => do
      let pos ← takeI32
      let nSeqId ← takeLE 4
      if nSeqId ≠ 0 then return none
      else
        let rest ← readSeqCells n
        return rest.map (pos :: ·)

/-- The ubatch that places the cells of a saved sequence. -/
def restoreUbatch (dest : Int) (pos : List Int) : RecurrentUbatch where
  bEqualSeqs := true
  nSeqTokens := pos.length
  nSeqs := 1
  pos := fun i => pos.getD i 0
  seqId := fun i => if i = 0 then [dest] else []

/-- The checks behind the placement. -/
def placedOk (dest : Int) (pos : List Int) : Bool :=
  let last := m.head + pos.length - 1
  decide (m.head + pos.length ≤ c.size ∧ (m.cells m.head).pos = pos.headD 0 ∧
    (m.cells last).pos = pos.getLastD 0) &&
    ((m.cells m.head).hasSeqId dest && (m.cells last).hasSeqId dest)

/-- The restored cells keep their state. -/
def ownRows (n : Nat) : RecurrentMemory :=
  (List.range n).foldl (fun m i => m.modify (m.head + i) fun cell =>
    { cell with src := some (m.head + i) }) m

/-- `state_read_meta` for one sequence. -/
def readMetaSeq (n : Nat) (dest : Int) : Reader RecurrentMemory Bool := do
  modifySt fun m => (m.seqRm c dest (-1) (-1)).2
  if n = 0 then return true
  else
    match ← Readers.aside (readSeqCells n) with
    | none => return false
    | some pos =>
      match (← getSt).findSlot c (restoreUbatch dest pos) with
      | none => Readers.aborting
      | some (found, m) => do
          Readers.setSt m
          if !found then return false
          else if m.placedOk c dest pos then
            modifySt (·.ownRows n)
            return true
          else Readers.aborting

/-- The sequences of cell `i`. -/
def readIds (i : Nat) : Nat → Reader RecurrentMemory Bool
  | 0 => return true
  | n + 1 => do
      let seqId ← takeI32
      if seqId < 0 ∨ c.nSeqMax ≤ seqId then return false
      else
        modifySt (·.modify i fun cell => { cell with seqId := insert seqId.toNat cell.seqId })
        -- duplicate tail
        if ((← getSt).cells seqId.toNat).tail ≠ none then return false
        else
          modifySt (·.setTail seqId.toNat (some i))
          readIds i n

/-- One iteration of the loop over the cells. -/
def readCell (i : Nat) : Reader RecurrentMemory Bool := do
  let pos ← takeI32
  let nSeqId ← takeLE 4
  modifySt (·.modify i fun cell => { cell with pos := pos })
  readIds c i nSeqId

def readMetaAll (n : Nat) : Reader RecurrentMemory Bool := do
  if c.size < n then return false
  else
    modifySt (·.clear c)
    if ← (List.range n).allM (readCell c) then
      modifySt fun m => { m with head := 0, used := n }.ownRows n
      return true
    else return false

/-! ## `state_read_data` -/

def readRows (n size : Nat) : Reader Unit Bool := do
  if n ≠ 0 then let _ ← Readers.take (n * size)
  return true

def readRow (n : Nat) : Option KvRow → Reader Unit Bool
  | none => return true
  | some row => expectLE 4 row.ty.toNat (expectLE 8 row.sizeRow.toNat (readRows n row.sizeRow.toNat))

def readPle (n : Nat) (layer : RecurrentLayer) : Reader Unit Bool :=
  match layer.r, layer.p with
  | some _, some sizeRow => expectLE 8 sizeRow.toNat (readRows n sizeRow.toNat)
  | _, _ => return true

/-- `state_read_data`; it returns before the branch for a transposed state. -/
def readData (L : RecurrentLayout) (n : Nat) : Reader Unit Bool := do
  let sTrans ← takeLE 4
  let nLayer ← takeLE 4
  if nLayer ≠ L.layers.length then return false
  else if c.size < n then return false
  else if sTrans ≠ 0 then return false
  else
    Readers.both (L.layers.allM fun layer => Readers.both (readRow n layer.r) (readPle n layer))
      (L.layers.allM fun layer => readRow n layer.s)

/-! ## `state_read` -/

def readMeta (n : Nat) (seqId : Int) : Reader RecurrentMemory Bool :=
  if seqId ≠ -1 then readMetaSeq c n seqId else readMetaAll c n

/-- What is done before a failed restore throws. -/
def cleanup (seqId : Int) : RecurrentMemory :=
  if seqId = -1 then m.clear c else (m.seqRm c seqId (-1) (-1)).2

/-- What is done after a restore. -/
def resetRsIdx (seqId : Int) : RecurrentMemory :=
  if c.nRsSeq = 0 then m
  else if seqId = -1 then { m with rsIdx := fun _ => 0 }
  else m.setRsIdx c seqId 0

/-- `state_read`; an exception of `readMeta` passes, one of `readData` is a failure. -/
def stateRead (L : RecurrentLayout) (seqId : Int) : Reader RecurrentMemory Unit := do
  let n ← takeLE 4
  let ok ← Readers.both (readMeta c n seqId) (Readers.orFalse (Readers.aside (readData c L n)))
  if ok then modifySt (resetRsIdx c · seqId)
  else
    modifySt (cleanup c · seqId)
    Readers.throwing

end RecurrentMemory

end LlamaCpp
