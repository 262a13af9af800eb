import LlamaCpp.Kv.Cache
import LlamaCpp.Lib.Readers

/-!
# Saving and restoring the cache

`state_write` and `state_read` of `llama_kv_cache`.  A saved state is a row of bytes:
the number of streams, and for every stream the number of its saved cells, their
metadata, and the rows of the tensors.

The reader fills the cells and the tensors as it goes, so what it leaves behind when
it throws is part of the model.  `Reader` is an exception monad over the remaining
bytes and the state.  An unsigned field is a `Nat` below the bound of its type, and a
signed one an `Int`.
-/

namespace LlamaCpp

open Readers (Reader putLE takeLE expectLE modifySt getSt setSt)

/-! ## Tensors -/

inductive KvTensorKind where
  | k
  | kIdx
  | v
deriving DecidableEq

/-- One tensor of one stream: `layer.k_stream[strm]` and so on. -/
structure KvTensor where
  kind : KvTensorKind
  layer : Nat
  strm : Nat
deriving DecidableEq

structure KvRow where
  /-- The `ggml_type`. -/
  ty : UInt32
  /-- `ggml_row_size` of the row. -/
  sizeRow : UInt64

/-- A tensor of values, which may be transposed. -/
structure KvValue extends KvRow where
  /-- `ggml_type_size`. -/
  sizeEl : UInt32
  nEmbdGqa : UInt32

structure KvLayer where
  k : KvRow
  kIdx : Option KvRow
  v : Option KvValue

structure KvLayout where
  vTrans : Bool
  layers : List KvLayer
  /-- The number of layers is written as a `uint32_t`. -/
  layers_lt : layers.length < 2 ^ 32

def KvLayout.sizeKIdxBytes (L : KvLayout) (c : KvConfig) : Nat :=
  (L.layers.map fun layer =>
    match layer.kIdx with
    | some row => row.sizeRow.toNat * c.kvSize * c.nStream
    | none => 0).sum

/-- The contents of the tensors, byte by byte. -/
abbrev KvData := KvTensor → Nat → UInt8

/-- The bytes from `offset` on. -/
def KvData.slice (data : KvData) (tensor : KvTensor) (offset size : Nat) : List UInt8 :=
  (List.range size).map fun j => data tensor (offset + j)

/-- Overwrite the bytes from `offset` on. -/
def KvData.store (data : KvData) (tensor : KvTensor) (offset : Nat) (bytes : List UInt8) : KvData :=
  fun t j =>
    if t = tensor ∧ offset ≤ j ∧ j < offset + bytes.length then bytes.getD (j - offset) 0
    else data t j

structure KvState where
  cache : KvCache
  data : KvData

namespace KvCache

/-! ## Fields -/

/-- `io.write` of a signed value. -/
def putI32 (x : Int) : List UInt8 := putLE 4 (x % 2 ^ 32).toNat

/-- `io.write` of a `llama_kv_cell_ext`. -/
def putExt (e : KvCellExt) : List UInt8 := putI32 e.x ++ putI32 e.y ++ putI32 e.tok

/-- `io.read` of a signed value. -/
def takeI32 {σ : Type} : Reader σ Int := do return toInt32 (← takeLE 4)

/-- `io.read` of a `llama_kv_cell_ext`. -/
def takeExt {σ : Type} : Reader σ KvCellExt := do
  let x ← takeI32
  let y ← takeI32
  let tok ← takeI32
  return ⟨x, y, tok⟩

/-- `io.read_tensor`. -/
def readTensor (tensor : KvTensor) (offset size : Nat) : Reader KvData Unit := do
  let bytes ← Readers.take size
  modifySt fun data => data.store tensor offset bytes

variable (c : KvConfig)

/-! ## `state_write` -/

/-- The condition for a cell to be saved; `seqId = none` is `-1`. -/
def addCell (cells : KvCells) (seqId : Option SeqId) (i : Nat) : Bool :=
  !cells.isEmpty i &&
    match seqId with
    | none => true
    | some s => cells.seqHas i s && !c.isMasked (cells.pos i) (cells.seqPosMax s)

/-- One iteration of the loop that collects ranges; the second component is
`cell_range_begin`. -/
def rangeStep (size : Nat) (add : Nat → Bool) (σ : List (Nat × Nat) × Nat) (i : Nat) :
    List (Nat × Nat) × Nat :=
  if add i then (σ.1, if σ.2 = size then i else σ.2)
  else if σ.2 ≠ size then (σ.1 ++ [(σ.2, i)], size)
  else σ

/-- `cr.data`: the ranges of cells that are saved. -/
def cellRanges (size : Nat) (add : Nat → Bool) : List (Nat × Nat) :=
  let σ := (List.range size).foldl (rangeStep size add) ([], size)
  if σ.2 ≠ size then σ.1 ++ [(σ.2, size)] else σ.1

def cellCount (size : Nat) (add : Nat → Bool) : Nat := (List.range size).countP add

/-- The sequences of cell `i` that are saved with it. -/
def savedSeqs (cells : KvCells) (seqId : Option SeqId) (i : Nat) : List SeqId :=
  (List.finRange llamaMaxSeq).filter fun cur =>
    decide (cur.val < c.nSeqMax ∧ (seqId = some cur ∨ seqId = none)) && cells.seqHas i cur

def writeCell (cells : KvCells) (seqId : Option SeqId) (i : Nat) : List UInt8 :=
  putI32 (cells.pos i) ++ putLE 4 (savedSeqs c cells seqId i).length ++
    (if 1 < c.nPosPerEmbd then putExt (cells.ext i) else []) ++
    (savedSeqs c cells seqId i).flatMap fun s => putI32 s.val

def writeMeta (cells : KvCells) (cr : List (Nat × Nat)) (seqId : Option SeqId) : List UInt8 :=
  cr.flatMap fun r => (List.range' r.1 (r.2 - r.1)).flatMap (writeCell c cells seqId)

/-- A tensor with one row for a cell: its header, and the rows of the ranges. -/
def writeRow (data : KvData) (cr : List (Nat × Nat)) (tensor : KvTensor) (row : KvRow) :
    List UInt8 :=
  putLE 4 row.ty.toNat ++ (putLE 8 row.sizeRow.toNat ++
    cr.flatMap fun r =>
      data.slice tensor (r.1 * row.sizeRow.toNat) ((r.2 - r.1) * row.sizeRow.toNat))

/-- The index keys of a layer, behind a flag. -/
def writeKeyIdx (data : KvData) (cr : List (Nat × Nat)) (strm : Nat) (layer : KvLayer × Nat) :
    List UInt8 :=
  match layer.1.kIdx with
  | none => putLE 4 0
  | some row => putLE 4 1 ++ writeRow data cr ⟨.kIdx, layer.2, strm⟩ row

/-- The values of a layer, one row for a cell. -/
def writeValue (data : KvData) (cr : List (Nat × Nat)) (strm : Nat) (layer : KvLayer × Nat) :
    List UInt8 :=
  match layer.1.v with
  | none => []
  | some v => writeRow data cr ⟨.v, layer.2, strm⟩ v.toKvRow

/-- `src_offset` of a transposed tensor: every factor is a `uint32_t`. -/
def srcOffset (kvSize vSizeEl first j : UInt32) : UInt64 :=
  ((first + j * kvSize) * vSizeEl).toUInt64

/-- The transposed values of a layer: the elements of the cells, for every row. -/
def writeValueTrans (data : KvData) (kvSize : Nat) (cr : List (Nat × Nat)) (strm : Nat)
    (layer : KvLayer × Nat) : List UInt8 :=
  match layer.1.v with
  | none => []
  | some v =>
    putLE 4 v.ty.toNat ++ (putLE 4 v.sizeEl.toNat ++ (putLE 4 v.nEmbdGqa.toNat ++
      (List.range v.nEmbdGqa.toNat).flatMap fun j => cr.flatMap fun r =>
        data.slice ⟨.v, layer.2, strm⟩
          (srcOffset (.ofNat kvSize) v.sizeEl (.ofNat r.1) (.ofNat j)).toNat
          ((r.2 - r.1) * v.sizeEl.toNat)))

def writeData (L : KvLayout) (data : KvData) (cr : List (Nat × Nat)) (strm : Nat) : List UInt8 :=
  putLE 4 (if L.vTrans then 1 else 0) ++ (putLE 4 L.layers.length ++
    ((L.layers.zipIdx.flatMap fun layer => writeRow data cr ⟨.k, layer.2, strm⟩ layer.1.k) ++
      ((if 0 < L.sizeKIdxBytes c then
          putLE 4 1 ++ L.layers.zipIdx.flatMap (writeKeyIdx data cr strm)
        else []) ++
        (if L.vTrans then L.layers.zipIdx.flatMap (writeValueTrans data c.kvSize cr strm)
        else L.layers.zipIdx.flatMap (writeValue data cr strm)))))

/-- One stream of `state_write`. -/
def writeStream (L : KvLayout) (σ : KvState) (seqId : Option SeqId) (t : Nat) : List UInt8 :=
  let cells := σ.cache.vCells t
  let add := addCell c cells seqId
  let count := cellCount cells.size add
  let cr := cellRanges cells.size add
  putLE 4 count ++
    if count = 0 then [] else writeMeta c cells cr seqId ++ writeData c L σ.data cr t

def stateWrite (L : KvLayout) (σ : KvState) (seqId : Option SeqId) : List UInt8 :=
  if c.shared then []
  else putLE 4 c.nStream ++ (List.range c.nStream).flatMap (writeStream c L σ seqId)

/-! ## `state_read_meta` for one sequence -/

def takeCellExt {σ : Type} : Reader σ KvCellExt := if 1 < c.nPosPerEmbd then takeExt else pure {}

/-- The cells of a saved sequence; `none` if one of them does not have one sequence. -/
def readSeqCells {σ : Type} : Nat → Reader σ (Option (List (Int × KvCellExt)))
  | 0 => return some []
  | n + 1 => do
      let pos ← takeI32
      let nSeqId ← takeLE 4
      if nSeqId ≠ 1 then return none
      else
        let e ← takeCellExt c
        -- the sequence is read, but the destination is used instead
        let _ ← takeI32
        let rest ← readSeqCells n
        return rest.map ((pos, e) :: ·)

/-- `ubatch.pos`, filled from the cells: the position inputs of M-RoPE are `pos`, `y`
and `x`, one block after the other. -/
def restorePos (cells : List (Int × KvCellExt)) (j : Nat) : Int :=
  let n := cells.length
  if j < n then (cells.getD j (0, {})).1
  else if 1 < c.nPosPerEmbd ∧ j < 2 * n then (cells.getD (j - n) (0, {})).2.y
  else if 1 < c.nPosPerEmbd ∧ j < 3 * n then (cells.getD (j - 2 * n) (0, {})).2.x
  else 0

/-- The ubatch that places the cells of a saved sequence. -/
def restoreUbatch (dest : SeqId) (cells : List (Int × KvCellExt)) : LlamaUbatch :=
  let ubatch := LlamaUbatch.reserve c.nPosPerEmbd cells.length 1
  { ubatch with
    pos := restorePos c cells
    seqId := fun i => if i < cells.length then [dest] else ubatch.seqId i
    seqIdUnq := ubatch.seqIdUnq.set 0 dest }

/-- The checks behind the placement: every cell has its position and the sequence. -/
def placedOk (cells : KvCells) (sinfo : SlotInfo) (dest : SeqId) (pos : List Int) : Bool :=
  decide (sinfo.idxs.length = 1 ∧ sinfo.size = pos.length) &&
    (List.range pos.length).all fun i =>
      let idx := (sinfo.idxs.headD []).getD i 0
      decide (cells.pos idx = pos.getD i 0) && cells.seqHas idx dest

/-- `seq_rm(dest, -1, -1)`; what it returns does not matter. -/
def dropSeq (dest : SeqId) : Reader KvCache Unit := do
  match (← getSt).seqRm c (some dest) (-1) (-1) with
  | none => Readers.aborting
  | some (kv, _) => setSt kv

/-- `state_read_meta` for one sequence; `none` stands for `false`. -/
def readMetaSeq (strm n : Nat) (dest : SeqId) : Reader KvCache (Option SlotInfo) := do
  dropSeq c dest
  match ← readSeqCells c n with
  | none => return none
  | some cells =>
    let kv ← getSt
    let ubatch := restoreUbatch c dest cells
    match kv.findSlot c ubatch false with
    | none => Readers.aborting
    | some sinfo =>
      if sinfo.isEmpty then return none
      else
        match kv.applyUbatch c sinfo ubatch with
        | none => Readers.aborting
        | some kv' => do
            setSt kv'
            if placedOk (kv'.vCells strm) sinfo dest (cells.map Prod.fst) then
              return some sinfo
            else Readers.aborting

/-! ## `state_read_meta` for the whole cache -/

/-- The sequences of cell `i`. -/
def readIds (i : Nat) : Nat → Reader KvCells Bool
  | 0 => return true
  | n + 1 => do
      let seqId ← takeI32
      if seqId < 0 ∨ c.nSeqMax ≤ seqId.toNat then return false
      else
        modifySt fun cells => cells.seqAdd i (SeqId.ofInt seqId)
        readIds i n

/-- What follows the position of cell `i` and the number of its sequences. -/
def readBody (i nSeqId : Nat) : Reader KvCells Bool :=
  if 1 < c.nPosPerEmbd then do
    let e ← takeExt
    modifySt fun cells => cells.extSet i e
    readIds c i nSeqId
  else readIds c i nSeqId

/-- One iteration of the loop over the cells. -/
def readCell (i : Nat) : Reader KvCells Bool := do
  let pos ← takeI32
  let nSeqId ← takeLE 4
  modifySt fun cells => cells.posSet i pos
  readBody c i nSeqId

/-- `state_read_meta` for stream `strm` of the whole cache. -/
def readMetaAll (strm n : Nat) : Reader KvCache (Option SlotInfo) := do
  if ((← getSt).vCells strm).size < n then return none
  else if ← Readers.zoom (fun kv => kv.vCells strm) (fun kv cells => kv.setCells strm cells)
      ((List.range n).allM (readCell c)) then
    modifySt fun kv => kv.setHead strm 0
    return some ⟨strm, strm, [strm], [List.range n]⟩
  else return none

/-! ## `state_read_data` -/

namespace SlotInfo

def head (sinfo : SlotInfo) : Nat := (sinfo.idxs.headD []).headD 0

def isContiguous (sinfo : SlotInfo) : Bool :=
  let idxs := sinfo.idxs.headD []
  idxs.isEmpty || (decide (sinfo.idxs.length ≤ 1) && (idxs == List.range' sinfo.head idxs.length))

/-- The cell of token `i` of the only stream. -/
def idx (sinfo : SlotInfo) (i : Nat) : Nat := (sinfo.idxs.headD []).getD i 0

end SlotInfo

def readRows (n : Nat) (sinfo : SlotInfo) (tensor : KvTensor) (size : Nat) : Reader KvData Unit :=
  if sinfo.isContiguous then readTensor tensor (sinfo.head * size) (n * size)
  else (List.range n).forM fun i => readTensor tensor (sinfo.idx i * size) size

def readRow (n : Nat) (sinfo : SlotInfo) (tensor : KvTensor) (row : KvRow) : Reader KvData Bool :=
  expectLE 4 row.ty.toNat (expectLE 8 row.sizeRow.toNat do
    readRows n sinfo tensor row.sizeRow.toNat
    return true)

def readKeyIdx (strm n : Nat) (sinfo : SlotInfo) (layer : KvLayer × Nat) : Reader KvData Bool :=
  match layer.1.kIdx with
  | none => expectLE 4 0 (pure true)
  | some row => expectLE 4 1 (readRow n sinfo ⟨.kIdx, layer.2, strm⟩ row)

def readValue (strm n : Nat) (sinfo : SlotInfo) (layer : KvLayer × Nat) : Reader KvData Bool :=
  match layer.1.v with
  | none => pure true
  | some v => readRow n sinfo ⟨.v, layer.2, strm⟩ v.toKvRow

/-- `dst_offset` of a transposed tensor: the element size is a `size_t`, the others are
`uint32_t`. -/
def dstOffset (kvSize : UInt32) (vSizeEl : UInt64) (cell j : UInt32) : UInt64 :=
  (cell + j * kvSize).toUInt64 * vSizeEl

/-- Where the element of a cell in row `j` is put. -/
def elemOffset (kvSize size j cell : Nat) : Nat :=
  (dstOffset (.ofNat kvSize) (.ofNat size) (.ofNat cell) (.ofNat j)).toNat

/-- The elements of the cells in row `j` of a transposed tensor. -/
def readElems (n kvSize : Nat) (sinfo : SlotInfo) (tensor : KvTensor) (size j : Nat) :
    Reader KvData Unit :=
  if sinfo.isContiguous then readTensor tensor (elemOffset kvSize size j sinfo.head) (n * size)
  else
    (List.range n).forM fun i => readTensor tensor (elemOffset kvSize size j (sinfo.idx i)) size

def readValueTrans (kvSize strm n : Nat) (sinfo : SlotInfo) (layer : KvLayer × Nat) :
    Reader KvData Bool :=
  match layer.1.v with
  | none => pure true
  | some v =>
    expectLE 4 v.ty.toNat (expectLE 4 v.sizeEl.toNat (expectLE 4 v.nEmbdGqa.toNat do
      (List.range v.nEmbdGqa.toNat).forM
        (readElems n kvSize sinfo ⟨.v, layer.2, strm⟩ v.sizeEl.toNat)
      return true))

def readData (L : KvLayout) (strm n : Nat) (sinfo : SlotInfo) : Reader KvData Bool := do
  let vTrans ← takeLE 4
  let nLayer ← takeLE 4
  if nLayer ≠ L.layers.length then return false
  else if c.kvSize < n then return false
  else if L.vTrans ≠ decide (vTrans ≠ 0) then return false
  else
    Readers.both
      (L.layers.zipIdx.allM fun layer => readRow n sinfo ⟨.k, layer.2, strm⟩ layer.1.k)
      (Readers.both
        (if 0 < L.sizeKIdxBytes c then
          expectLE 4 1 (L.layers.zipIdx.allM (readKeyIdx strm n sinfo))
        else pure true)
        (if L.vTrans then L.layers.zipIdx.allM (readValueTrans c.kvSize strm n sinfo)
        else L.layers.zipIdx.allM (readValue strm n sinfo)))

/-! ## `state_read` -/

def onCache {α : Type} : Reader KvCache α → Reader KvState α :=
  Readers.zoom KvState.cache fun σ kv => { σ with cache := kv }

def onData {α : Type} : Reader KvData α → Reader KvState α :=
  Readers.zoom KvState.data fun σ data => { σ with data := data }

/-- `clear(true)`. -/
def clearAll (σ : KvState) : KvState := ⟨σ.cache.clear c, fun _ _ => 0⟩

/-- The stream that the cells of stream `t` of the saved state go to. -/
def destStream (dest : Option SeqId) (t : Nat) : Nat :=
  match dest with
  | none => t
  | some d => c.seqToStream d

def readMeta (dest : Option SeqId) (strm n : Nat) : Reader KvCache (Option SlotInfo) :=
  match dest with
  | none => readMetaAll c strm n
  | some d => readMetaSeq c strm n d

/-- What is done before a failed restore throws. -/
def cleanup (dest : Option SeqId) : Reader KvState Unit :=
  match dest with
  | none => modifySt (clearAll c)
  | some d => onCache (dropSeq c d)

/-- One iteration of the loop over the streams.  An exception of `readMeta` passes, one of
`readData` is a failure. -/
def readStream (L : KvLayout) (dest : Option SeqId) (t : Nat) : Reader KvState Unit := do
  let n ← takeLE 4
  if n = 0 then return ()
  else
    let strm := destStream c dest t
    let ok ← match ← onCache (readMeta c dest strm n) with
      | none => pure false
      | some sinfo => Readers.orFalse (onData (readData c L strm n sinfo))
    if ok then return ()
    else
      cleanup c dest
      Readers.throwing

/-- `state_read`; `dest = none` is `-1`. -/
def stateRead (L : KvLayout) (dest : Option SeqId) : Reader KvState Unit := do
  if c.shared then return ()
  else if ∃ d ∈ dest, c.seqToStreamSize ≤ d.val then Readers.aborting
  else
    let nStreamCur ← takeLE 4
    if nStreamCur ≠ c.nStream then Readers.throwing
    else
      if dest = none then modifySt (clearAll c)
      (List.range c.nStream).forM (readStream c L dest)

end KvCache

end LlamaCpp
