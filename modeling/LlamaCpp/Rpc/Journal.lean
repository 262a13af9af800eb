import LlamaCpp.Lib.Overlay
import LlamaCpp.Rpc.Tensor

/-!
# The journal of a buffer

The client keeps a journal of what it wrote to a buffer of a worker, so that it can fill a new buffer on a worker that was
restarted.  Big writes are in the journal by their hash and small ones literally, in a spill file.

Memory is a map from addresses to bytes, `none` where nothing was written.  A worker runs the commands it gets in order, and a
queued placement is flushed before any other command, so that a placement is made here when it is queued.  What the worker has
under a hash, and where its device zeroes the padding of a tensor, come from outside.  Counters that are only logged are left
out.
-/

namespace LlamaCpp.Rpc

open Overlay (cover insertKey)

abbrev hashThreshold : Nat := 10 * 1024 * 1024

def fnvHash (data : List UInt8) : UInt64 :=
  data.foldl (fun hash x => (hash ^^^ x.toUInt64) * 0x100000001b3) 0xcbf29ce484222325

/-- A tensor at the address `id`, with what it is a view of. -/
inductive Tensor where
  | root (id : UInt64) (tensor : GgmlTensor)
  | view (id : UInt64) (tensor : GgmlTensor) (viewSrc : Tensor)

def Tensor.self : Tensor → GgmlTensor
  | .root _ tensor => tensor
  | .view _ tensor _ => tensor

structure SrcGeom where
  base : UInt64
  piece : Nat
  nPieces : Nat
  stride : Nat

/-- The name and the geometry of a slice of a model file. -/
structure Source where
  name : List UInt8
  geom : SrcGeom

/-- `rpc_buffer_journal::set_entry`.  Here `spillOff` is none for `UINT64_MAX`, and `source` for an empty name. -/
structure SetEntry where
  root : RpcTensor
  offset : UInt64
  size : Nat
  hash : UInt64
  spillOff : Option Nat
  source : Option Source

/-- `rpc_buffer_journal` -/
structure Journal where
  sets : List (Nat × SetEntry) := []
  initTensors : List RpcTensor := []
  cleared : Bool := false
  clearValue : UInt8 := 0
  spill : List UInt8 := []
  disabled : Bool := false

/-- A buffer that is not for compute, and its connection. -/
structure Buffer where
  id : UInt64
  /-- `ctx->base_ptr` -/
  base : UInt64
  size : UInt64
  remotePtr : UInt64 → Option UInt64
  serverMinor : Nat
  isQuantized : UInt32 → Bool
  /-- What the device zeroes for a tensor of a type, extents and strides: how far behind its data, and how many bytes. -/
  padding : UInt32 → (Fin maxDims → UInt32) → (Fin maxDims → UInt32) → UInt64 × Nat
  /-- `rpc_journal_small_budget` -/
  smallBudget : Nat

/-- What the process has when it makes a call. -/
structure Ambient where
  /-- The usage of the buffer is `GGML_BACKEND_BUFFER_USAGE_WEIGHTS`. -/
  weights : Bool := false
  manifest : UInt64 → Bool := fun _ => false
  /-- The name and the base of `g_rpc_src_hint`, if it is valid. -/
  srcHint : Option (List UInt8 × UInt64) := none
  /-- The spill file can be opened and written at an offset. -/
  spillOk : Nat → Bool := fun _ => true

/-- The bytes that a worker has for a hash, with the slice of a model file it is told to look in. -/
abbrev Served := Option Source → UInt64 → Option (List UInt8)

abbrev Mem := UInt64 → Option UInt8

/-- `n` bytes from `start` on that are all `value`. -/
def filled (start : UInt64) (n : Nat) (value : UInt8) : Mem := fun p =>
  if (p - start).toNat < n then some value else none

/-- The bytes `data` from `start` on. -/
def bytesAt (start : UInt64) (data : List UInt8) : Mem := fun p => data[(p - start).toNat]?

structure BufferState where
  journal : Option Journal := none
  remote : Mem := fun _ => none

namespace BufferState

def edit (s : BufferState) (f : Journal → Journal) : BufferState :=
  { s with journal := some (f (s.journal.getD {})) }

def write (s : BufferState) (layer : Mem) : BufferState :=
  { s with remote := cover s.remote layer }

end BufferState

def resolveView : Tensor → UInt64 → (UInt64 × GgmlTensor) × UInt64
  | .root id tensor, offset => ((id, tensor), offset)
  | .view id tensor viewSrc, offset =>
    if viewSrc.self.buffer = tensor.buffer then
      resolveView viewSrc (offset + (tensor.data - viewSrc.self.data))
    else ((id, tensor), offset)

namespace Buffer

variable (b : Buffer)

def serialize (root : UInt64 × GgmlTensor) : RpcTensor := serializeTensor b.remotePtr root.1 root.2

/-- Of the region of a tensor that the device zeroes. -/
def padded (t : RpcTensor) : Mem :=
  let r := b.padding t.type t.ne t.nb
  filled (t.data + r.1) r.2 0

/-- `ggml_backend_rpc_buffer_init_tensor` -/
def initTensor (tensor : Tensor) (s : BufferState) : BufferState :=
  match tensor with
  | .view .. => s
  | .root id tensor =>
    if b.isQuantized tensor.type ∧ (tensor.ne 0) % 512 ≠ 0 then
      let t := b.serialize (id, tensor)
      let s := s.edit fun j => { j with initTensors := j.initTensors ++ [{ t with data := t.data - b.base }] }
      s.write (b.padded t)
    else s

/-- `ggml_backend_rpc_buffer_clear` -/
def clear (value : UInt8) (s : BufferState) : BufferState :=
  let s := s.edit fun j => { j with cleared := true, clearValue := value }
  s.write (filled b.base b.size.toNat value)

/-- `rpc_journal_record_set`, of a write of `data`.  It has the hash of the data if `hashed`. -/
def recordSet (amb : Ambient) (root : RpcTensor) (offset : UInt64) (data : List UInt8) (hashed : Bool)
    (source : Option Source) (j : Journal) : Journal :=
  if j.disabled then j
  else
    let root := { root with data := root.data - b.base }
    let key := (root.data + offset).toNat
    if hashed then
      let e : SetEntry := { root, offset, size := data.length, hash := fnvHash data, spillOff := none, source }
      { j with sets := insertKey key e j.sets }
    else if j.spill.length + data.length > b.smallBudget ∨ !amb.spillOk j.spill.length then
      { j with disabled := true, sets := [], initTensors := [] }
    else
      let e : SetEntry := { root, offset, size := data.length, hash := 0, spillOff := some j.spill.length, source := none }
      { j with spill := j.spill ++ data, sets := insertKey key e j.sets }

/-- `rpc_buffer_set_tensor_impl`.  It fails if the worker cannot place a hash of its manifest. -/
def setTensorImpl (served : Served) (amb : Ambient) (tensor : Tensor) (data : List UInt8) (offset : UInt64)
    (src : Option Source) (s : BufferState) : Option BufferState :=
  let r := resolveView tensor offset
  let t := b.serialize r.1
  let offset := r.2
  let start := t.data + offset
  if amb.weights ∧ b.serverMinor ≥ 10 then
    let s := s.edit (b.recordSet amb t offset data true src)
    if amb.manifest (fnvHash data) then
      (served none (fnvHash data)).map fun bytes => s.write (bytesAt start bytes)
    else some (s.write (bytesAt start data))
  else if data.length > hashThreshold then
    let src := if b.serverMinor ≥ 8 then src else none
    let s := s.edit (b.recordSet amb t offset data true src)
    match served src (fnvHash data) with
    | some bytes => some (s.write (bytesAt start bytes))
    | none => some (s.write (bytesAt start data))
  else
    let s := s.edit (b.recordSet amb t offset data false none)
    some (s.write (bytesAt start data))

end Buffer

namespace Ambient

/-- The slice that pieces of the data of a call come from, `skip` bytes behind its start. -/
def source (amb : Ambient) (skip piece nPieces stride : Nat) : Option Source :=
  amb.srcHint.map fun hint => ⟨hint.1, ⟨hint.2 + UInt64.ofNat skip, piece, nPieces, stride⟩⟩

end Ambient

/-- A write of `rpc_buffer_set_tensor_impl` to a tensor. -/
structure Piece where
  data : List UInt8
  offset : UInt64
  source : Option Source

/-- Row `i` of the rows of `size` bytes that are `stride` apart. -/
def row (data : Nat → UInt8) (size stride i : Nat) : List UInt8 :=
  (List.range size).map fun k => data (i * stride + k)

def rowsPerChunk (size : Nat) : Nat := max 1 (32 * 1024 * 1024 / size)

/-- The writes of `ggml_backend_rpc_buffer_set_tensor_2d`.  The number of rows in a chunk is a quotient by their size. -/
def pieces2d (amb : Ambient) (data : Nat → UInt8) (offset : UInt64) (size nCopies strideTensor strideData : Nat) :
    Option (List Piece) :=
  if strideTensor ≠ size then
    some <| (List.range nCopies).map fun i =>
      { data := row data size strideData i
        offset := offset + UInt64.ofNat (i * strideTensor)
        source := amb.source (i * strideData) size 1 0 }
  else if size = 0 then none
  else
    let rows := rowsPerChunk size
    some <| (List.range ((nCopies + rows - 1) / rows)).map fun c =>
      let i0 := c * rows
      let n := min rows (nCopies - i0)
      { data := (List.range n).flatMap fun k => row data size strideData (i0 + k)
        offset := offset + UInt64.ofNat (i0 * strideTensor)
        source := amb.source (i0 * strideData) size n strideData }

/-- A call that changes the bytes of a buffer. -/
inductive Call where
  | initTensor (tensor : Tensor)
  | clear (value : UInt8)
  | memsetTensor (tensor : Tensor) (value : UInt8) (offset : UInt64) (size : Nat)
  | setTensor (tensor : Tensor) (data : List UInt8) (offset : UInt64)
  | setTensor2d (tensor : Tensor) (data : Nat → UInt8) (offset : UInt64)
      (size nCopies strideTensor strideData : Nat)

namespace Buffer

variable (b : Buffer)

/-- `ggml_backend_rpc_buffer_set_tensor` -/
def setTensor (served : Served) (amb : Ambient) (tensor : Tensor) (data : List UInt8) (offset : UInt64)
    (s : BufferState) : Option BufferState :=
  b.setTensorImpl served amb tensor data offset (amb.source 0 data.length 1 0) s

/-- `ggml_backend_rpc_buffer_set_tensor_2d` -/
def setTensor2d (served : Served) (amb : Ambient) (tensor : Tensor) (data : Nat → UInt8) (offset : UInt64)
    (size nCopies strideTensor strideData : Nat) (s : BufferState) : Option BufferState := do
  let pieces ← pieces2d amb data offset size nCopies strideTensor strideData
  pieces.foldlM (fun s x => b.setTensorImpl served amb tensor x.data x.offset x.source s) s

/-- `ggml_backend_rpc_buffer_memset_tensor` -/
def memsetTensor (served : Served) (amb : Ambient) (tensor : Tensor) (value : UInt8) (offset : UInt64) (size : Nat)
    (s : BufferState) : Option BufferState :=
  if b.serverMinor ≥ 15 then
    let r := resolveView tensor offset
    some (s.write (filled ((b.serialize r.1).data + r.2) size value))
  else b.setTensor served amb tensor (List.replicate size value) offset s

def call (served : Served) (amb : Ambient) (s : BufferState) : Call → Option BufferState
  | .initTensor tensor => some (b.initTensor tensor s)
  | .clear value => some (b.clear value s)
  | .memsetTensor tensor value offset size => b.memsetTensor served amb tensor value offset size s
  | .setTensor tensor data offset => b.setTensor served amb tensor data offset s
  | .setTensor2d tensor data offset size nCopies strideTensor strideData =>
    b.setTensor2d served amb tensor data offset size nCopies strideTensor strideData s

/-- The calls, from when the buffer was allocated on. -/
def calls (served : Served) (cs : List (Ambient × Call)) : Option BufferState :=
  cs.foldlM (fun s c => b.call served c.1 s c.2) {}

/-- The replay of an entry in `ggml_backend_rpc_buffer_reprovision`, where the new buffer is at `newBase`.  The server has
the version `minor`. -/
def replaySet (served : Served) (minor : Nat) (newBase : UInt64) (spill : List UInt8) (m : Mem) (e : SetEntry) :
    Option Mem :=
  let start := e.root.data + newBase + e.offset
  match e.spillOff with
  | none => (served (if minor ≥ 8 then e.source else none) e.hash).map fun bytes => cover m (bytesAt start bytes)
  | some off =>
    let bytes := (spill.drop off).take e.size
    if bytes.length ≠ e.size then none
    else some (cover m (bytesAt start bytes))

/-- `ggml_backend_rpc_buffer_reprovision`, from where the new buffer is allocated: its bytes, if true is returned -/
def reprovision (served : Served) (minor : Nat) (newBase : UInt64) (journal : Option Journal) : Option Mem :=
  match journal with
  | none => some fun _ => none
  | some j =>
    if j.disabled then none
    else
      let m : Mem := if j.cleared then filled newBase b.size.toNat j.clearValue else fun _ => none
      let m := j.initTensors.foldl (fun m t => cover m (b.padded { t with data := t.data + newBase })) m
      j.sets.foldlM (fun m x => replaySet served minor newBase j.spill m x.2) m

end Buffer

end LlamaCpp.Rpc
