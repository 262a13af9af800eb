import LlamaCpp.Gguf.Context

/-!
# Reading a GGUF file

`gguf_init_from_reader`.  The bytes come from a callback, in chunks of at most `maxChunk` bytes;
the reader keeps its position and the number of bytes that it still expects.

A run ends with a context, with `invalid` (the source frees the context and returns `nullptr`),
or with one of the other faults, which end the process.  Running out of memory is left out.
-/

namespace LlamaCpp

/-- How a read ends without a context. -/
inductive GgufFault where
  | invalid
  | assertion
  | divisionByZero
  | signedOverflow
deriving DecidableEq

/-- `gguf_reader` without its parameters. -/
structure GgufReader where
  dataOffset : Nat := 0
  nbytesRemain : Nat

/-- A function of gguf.cpp that reads. -/
abbrev GgufM : Type → Type := EStateM GgufFault GgufReader

/-- What `params` ask for: no tensors, tensors without data, or all of it. -/
inductive GgufLoad where
  | none
  | noAlloc
  | alloc
deriving DecidableEq

namespace GgufReader

def fault {α : Type} (e : GgufFault) : GgufM α := fun s => .error e s

/-- Return `nullptr` if the condition holds. -/
def reject (p : Prop) [Decidable p] : GgufM Unit := if p then fault .invalid else pure ()

def ensure (p : Prop) [Decidable p] : GgufM Unit := if p then pure () else fault .assertion

def self : GgufM GgufReader := fun s => .ok s s

/-- `GGUF_MAX_STRING_LENGTH` and `GGUF_MAX_ARRAY_ELEMENTS` -/
abbrev ggufMaxLength : Nat := 1024 * 1024 * 1024

/-- The value of an `int32_t` or `int64_t` of `bits` bits. -/
def toSigned (bits n : Nat) : Int := (n : Int).bmod (2 ^ bits)

/-- Division of `int64_t`, of numbers that are not negative. -/
def divI64 (a b : Int) : GgufM Int := if b = 0 then fault .divisionByZero else pure (a / b)

/-- Multiplication of `int64_t`. -/
def mulI64 (a b : Int) : GgufM Int :=
  if -2 ^ 63 ≤ a * b ∧ a * b ≤ int64Max then pure (a * b) else fault .signedOverflow

section Bytes

variable (callback : Nat → Nat → List UInt8) (maxChunk : Nat)

/-- The loop of `gguf_reader::read_raw`: the bytes, and whether the end was reached.  Every chunk
but the last one has a byte, so `size` iterations are enough. -/
def readChunks (size offset : Nat) : Nat → List UInt8 → List UInt8 × Bool
  | 0, got => (got, false)
  | fuel + 1, got =>
    if size ≤ got.length then (got, false)
    else if sizeLimit ≤ offset + got.length then (got, false)
    else
      let chunkSize := min maxChunk (size - got.length)
      let data := callback (offset + got.length) chunkSize
      if data.length = chunkSize then readChunks size offset fuel (got ++ data)
      else (got ++ data, true)

def readRaw (size : Nat) : GgufM (List UInt8) := fun s =>
  if size = 0 then .ok [] s
  else
    let (bytes, reachedEof) := readChunks callback maxChunk size s.dataOffset size []
    if s.nbytesRemain < bytes.length then .error .assertion s
    else .ok bytes
      { dataOffset := (s.dataOffset + bytes.length) % sizeLimit
        nbytesRemain := if reachedEof then 0 else s.nbytesRemain - bytes.length }

/-- `gguf_reader::read` of `size` bytes. -/
def read (size : Nat) : GgufM (List UInt8) := do
  let s ← self
  reject (s.nbytesRemain < size)
  let bytes ← readRaw callback maxChunk size
  reject (bytes.length ≠ size)
  return bytes

/-- `gguf_reader::read` of a number. -/
def readLE (size : Nat) : GgufM Nat := do return Readers.getLE (← read callback maxChunk size)

/-- `gguf_reader::read` of an `int64_t`. -/
def readI64 : GgufM Int := do return toSigned 64 (← readLE callback maxChunk 8)

/-- `gguf_reader::read` of a string. -/
def readString : GgufM (List UInt8) := do
  let size ← readLE callback maxChunk 8
  reject (ggufMaxLength < size)
  read callback maxChunk size

/-- `gguf_reader::read` of a `bool`, one byte. -/
def readBool : GgufM (List UInt8) := do
  let byte ← readLE callback maxChunk 1
  return [if byte ≠ 0 then 1 else 0]

/-- The bytes of one value that is not a string. -/
def readValue (type : GgufType) : GgufM (List UInt8) :=
  if type = .bool then readBool callback maxChunk else read callback maxChunk type.size

/-- `n` times the same. -/
def readMany {α : Type} (x : GgufM α) : Nat → GgufM (List α)
  | 0 => pure []
  | n + 1 => do
      let a ← x
      let as ← readMany x n
      return a :: as

/-- The tests in front of an array of `n` values of at least `size` bytes. -/
def checkArray (n size : Nat) : GgufM Unit := do
  let s ← self
  reject (ggufMaxLength < n)
  reject ((sizeLimit - 1) / size < n)
  reject (s.nbytesRemain < n * size)

def seek (absoluteOffset : Nat) : GgufM Unit := fun s =>
  let endOffset := (s.dataOffset + s.nbytesRemain) % sizeLimit
  if endOffset < absoluteOffset then .error .invalid s
  else .ok () { dataOffset := absoluteOffset, nbytesRemain := endOffset - absoluteOffset }

/-! ## The header -/

/-- The magic, the version and the numbers of tensors and of key-value pairs. -/
def readHeader : GgufM (Nat × Nat × Nat) := do
  checkArray 4 1
  let magic ← readMany (read callback maxChunk 1) 4
  reject (magic.flatten ≠ ggufMagic)
  let version ← readLE callback maxChunk 4
  -- a version in the other byte order
  reject (version = 0 ∨ version &&& 0xFFFF = 0)
  reject (version = 1 ∨ ggufVersion < version)
  let nTensors ← readI64 callback maxChunk
  -- the size of `gguf_tensor_info`
  reject (nTensors < 0 ∨ ((sizeLimit - 1) / 344 : Nat) < nTensors)
  let nKv ← readI64 callback maxChunk
  -- the size of `gguf_kv`
  reject (nKv < 0 ∨ ((sizeLimit - 1) / 88 : Nat) < nKv)
  return (version, nTensors.toNat, nKv.toNat)

/-! ## Key-value pairs -/

/-- `gguf_read_emplace_helper` -/
def readEmplace (key : List UInt8) (type : GgufType) (isArray : Bool) (n : Nat) : GgufM GgufKv :=
  if type = .array then fault .invalid
  else if type = .string then
    if isArray then do
      checkArray n 8
      let strings ← readMany (readString callback maxChunk) n
      return { key := key, isArray := true, type := type, dataString := strings }
    else do
      let string ← readString callback maxChunk
      return { key := key, isArray := false, type := type, dataString := [string] }
  else if isArray then do
    checkArray n type.size
    let values ← readMany (readValue callback maxChunk type) n
    return { key := key, isArray := true, type := type, data := values.flatten }
  else do
    let value ← readValue callback maxChunk type
    return { key := key, isArray := false, type := type, data := value }

/-- `gr.read(type)`, with the values that no type has. -/
def readType : GgufM (Option GgufType) := do return GgufType.ofCode (← readLE callback maxChunk 4)

/-- The body of the loop over the key-value pairs. -/
def readKv (kvs : List GgufKv) : GgufM GgufKv := do
  let key ← readString callback maxChunk
  reject (key = [])
  reject (kvs.any fun kv => kv.key = key)
  match ← readType callback maxChunk with
  | some .array =>
    let type ← readType callback maxChunk
    let n ← readLE callback maxChunk 8
    match type with
    | some type => readEmplace callback maxChunk key type true n
    | none => fault .invalid
  | some type => readEmplace callback maxChunk key type false 1
  | none => fault .invalid

/-- The loop over the key-value pairs. -/
def readKvs : Nat → List GgufKv → GgufM (List GgufKv)
  | 0, kvs => pure kvs
  | n + 1, kvs => do
      let kv ← readKv callback maxChunk kvs
      readKvs n (kvs ++ [kv])

def alignmentIdx (kvs : List GgufKv) : Int :=
  match ({ kv := kvs } : GgufContext).findKey ggufKeyGeneralAlignment with
  | some i => toSigned 32 i
  | none => -1

/-- The alignment that the key-value pairs ask for. -/
def alignmentOf (kvs : List GgufKv) : GgufM Nat :=
  if alignmentIdx kvs = -1 then pure ggufDefaultAlignment
  else
    match ({ kv := kvs } : GgufContext).getValU32 (alignmentIdx kvs) with
    | some alignment => pure alignment
    | none => fault .assertion

/-- The alignment, which has to be a power of 2. -/
def findAlignment (kvs : List GgufKv) : GgufM Nat := do
  let alignment ← alignmentOf kvs
  reject (alignment = 0 ∨ alignment &&& (alignment - 1) ≠ 0)
  return alignment

/-! ## Tensors -/

def readName (infos : List GgufTensorInfo) : GgufM (List UInt8) := do
  let name ← readString callback maxChunk
  reject (ggmlMaxName ≤ name.length)
  reject (infos.any fun ti => ti.name = cstr name)
  return cstr name

/-- One dimension, before it is checked. -/
def readNe (nDims j : Nat) : GgufM Int := if j < nDims then readI64 callback maxChunk else pure 1

def readDim (nDims j : Nat) : GgufM Int := do
  let ne ← readNe callback maxChunk nDims j
  reject (ne < 0)
  return ne

def readDims : GgufM Dims := do
  let nDims ← readLE callback maxChunk 4
  reject (4 < nDims)
  let ne0 ← readDim callback maxChunk nDims 0
  let ne1 ← readDim callback maxChunk nDims 1
  let ne2 ← readDim callback maxChunk nDims 2
  let ne3 ← readDim callback maxChunk nDims 3
  return { ne0 := ne0, ne1 := ne1, ne2 := ne2, ne3 := ne3 }

/-- Check that the total number of elements is representable. -/
def checkDims (ne : Dims) : GgufM Unit := do
  reject ((← divI64 int64Max ne.ne1) ≤ ne.ne0)
  let rows ← mulI64 ne.ne0 ne.ne1
  reject ((← divI64 int64Max ne.ne2) ≤ rows)
  let planes ← mulI64 rows ne.ne2
  reject ((← divI64 int64Max ne.ne3) ≤ planes)

def nelements (ne : Dims) : GgufM Int := do
  mulI64 (← mulI64 (← mulI64 ne.ne0 ne.ne1) ne.ne2) ne.ne3

/-- Check the type, the row size and that the size in bytes is representable. -/
def checkType (type : Int) (ne : Dims) : GgufM Nat := do
  reject (type < 0 ∨ (ggmlTypeCount : Int) ≤ type)
  let type := type.toNat
  reject (ggmlBlckSize type = 0 ∨ ne.ne0 % ggmlBlckSize type ≠ 0)
  let blocks ← divI64 (← nelements ne) (ggmlBlckSize type)
  let limit ← divI64 (sizeLimit - 1 : Nat) (ggmlTypeSize type)
  reject (limit < blocks)
  return type

/-- The body of the loop over the tensors. -/
def readTensorInfo (infos : List GgufTensorInfo) : GgufM GgufTensorInfo := do
  let name ← readName callback maxChunk infos
  let ne ← readDims callback maxChunk
  checkDims ne
  let type ← checkType (toSigned 32 (← readLE callback maxChunk 4)) ne
  let offset ← readLE callback maxChunk 8
  return { name := name, type := type, ne := ne, nb := .of type ne, offset := offset }

def readInfos : Nat → List GgufTensorInfo → GgufM (List GgufTensorInfo)
  | 0, infos => pure infos
  | n + 1, infos => do
      let info ← readTensorInfo callback maxChunk infos
      readInfos n (infos ++ [info])

/-- The data section is aligned, if there is one. -/
def seekData (nTensors alignment : Nat) : GgufM Unit :=
  if 0 < nTensors then do
    let s ← self
    seek (ggmlPad s.dataOffset alignment)
  else pure ()

/-- The total size of the data section, taking into account the alignment. -/
def dataSize (alignment : Nat) : List GgufTensorInfo → Nat → GgufM Nat
  | [], size => pure size
  | ti :: infos, size => do
      reject (ti.offset ≠ size)
      let paddedSize := ggmlPad ti.nbytes alignment
      reject (sizeLimit - 1 - size < paddedSize)
      dataSize alignment infos (size + paddedSize)

/-! ## The `ggml_context` -/

/-- `GGML_OBJECT_SIZE` and `GGML_TENSOR_SIZE`, both multiples of `GGML_MEM_ALIGN` -/
abbrev ggmlObjectSize : Nat := 32

@[inherit_doc ggmlObjectSize]
abbrev ggmlTensorSize : Nat := 336

abbrev ggmlTensorOverhead : Nat := ggmlObjectSize + ggmlTensorSize

/-- The memory of `ggml_init`. -/
def poolSize (memSize : Nat) : Nat := ggmlPad (if memSize = 0 then 16 else memSize) 16

/-- `ggml_new_object`: the end of the objects, which must be in the memory. -/
def newObject (pool curEnd size : Nat) : GgufM Nat := do
  ensure (size ≤ sizeLimit - 1 - 15)
  let sizeNeeded := ggmlPad size 16
  ensure (curEnd ≤ sizeLimit - 1 - sizeNeeded ∧
    curEnd + sizeNeeded ≤ sizeLimit - 1 - ggmlObjectSize ∧
    curEnd + sizeNeeded + ggmlObjectSize ≤ pool)
  return curEnd + ggmlObjectSize + sizeNeeded

def newTensors (pool : Nat) : Nat → Nat → GgufM Unit
  | 0, _ => pure ()
  | n + 1, curEnd => do
      let curEnd ← newObject pool curEnd ggmlTensorSize
      newTensors pool n curEnd

/-- The tensors in a `ggml_context`, and the data of all of them. -/
def loadTensors (nTensors size : Nat) : GgufLoad → GgufM (Option (List UInt8))
  | .none => pure none
  | .noAlloc => do
      reject (nTensors ≠ 0 ∧ (sizeLimit - 1) / nTensors < ggmlTensorOverhead)
      newTensors (poolSize (nTensors * ggmlTensorOverhead)) nTensors 0
      return none
  | .alloc => do
      reject ((sizeLimit - 1) / (nTensors + 1) < ggmlTensorOverhead)
      let overhead := (nTensors + 1) * ggmlTensorOverhead
      reject (sizeLimit - 1 - overhead < size)
      let pool := poolSize (overhead + size)
      ensure (ggmlTensorSize ≤ sizeLimit - 1 - size)
      let curEnd ← newObject pool 0 (ggmlTensorSize + size)
      let data ← read callback maxChunk size
      newTensors pool nTensors curEnd
      return some data

def initFromReader (load : GgufLoad) : GgufM GgufContext := do
  let (version, nTensors, nKv) ← readHeader callback maxChunk
  let kvs ← readKvs callback maxChunk nKv []
  ensure (kvs.length = nKv)
  let alignment ← findAlignment kvs
  let infos ← readInfos callback maxChunk nTensors []
  ensure (infos.length = nTensors)
  seekData nTensors alignment
  let s ← self
  let size ← dataSize alignment infos 0
  let data ← loadTensors callback maxChunk nTensors size load
  return {
    version := version
    kv := kvs
    info := infos
    alignment := alignment
    offset := s.dataOffset
    size := size
    data := data }

end Bytes

/-- A callback that reads from a buffer. -/
def ofBytes (bytes : List UInt8) (offset len : Nat) : List UInt8 := (bytes.drop offset).take len

def new (bytes : List UInt8) : GgufReader := { nbytesRemain := bytes.length }

end GgufReader

end LlamaCpp
