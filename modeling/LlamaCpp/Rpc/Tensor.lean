import Mathlib.Algebra.GroupWithZero.Nat
import Mathlib.Data.List.Basic

/-!
# Tensors on the wire

A `GgmlTensor` is a tensor of the client, with pointers as 64-bit numbers and 0 as the null pointer.  Which buffers are of
the RPC backend, and what the worker calls them, is `remotePtr`.  `serializeTensor` makes an `rpc_tensor` of it, where extents
and strides have 32 bits.
-/

namespace LlamaCpp.Rpc

abbrev maxDims : Nat := 4

instance : NeZero maxDims := ⟨by decide⟩

abbrev maxSrc : Nat := 10

instance : LawfulBEq (Fin maxSrc) := inferInstance

/-- `GGML_MAX_OP_PARAMS / sizeof(int32_t)` -/
abbrev maxOpParams : Nat := 16

abbrev maxName : Nat := 64

structure GgmlTensor where
  type : UInt32 := 0
  buffer : UInt64 := 0
  ne : Fin maxDims → Int64 := fun _ => 1
  nb : Fin maxDims → UInt64 := fun _ => 0
  op : UInt32 := 0
  opParams : Fin maxOpParams → Int32 := fun _ => 0
  flags : Int32 := 0
  src : Fin maxSrc → UInt64 := fun _ => 0
  viewSrc : UInt64 := 0
  viewOffs : UInt64 := 0
  data : UInt64 := 0
  name : Fin maxName → UInt8 := fun _ => 0

def GgmlTensor.withSrc (t : GgmlTensor) (src : Fin maxSrc → UInt64) : GgmlTensor := { t with src := src }

structure RpcTensor where
  id : UInt64
  type : UInt32
  buffer : UInt64
  ne : Fin maxDims → UInt32
  nb : Fin maxDims → UInt32
  op : UInt32
  opParams : Fin maxOpParams → Int32
  flags : Int32
  src : Fin maxSrc → UInt64
  viewSrc : UInt64
  viewOffs : UInt64
  data : UInt64
  name : Fin maxName → UInt8

/-- The name that `snprintf` makes of a name: its text, and zeros behind it. -/
def nameText (name : Fin maxName → UInt8) (i : Fin maxName) : UInt8 :=
  if i.val + 1 < maxName ∧ ∀ j ≤ i, name j ≠ 0 then name i else 0

/-- `serialize_tensor`, of the tensor at the address `id` -/
def serializeTensor (remotePtr : UInt64 → Option UInt64) (id : UInt64) (tensor : GgmlTensor) : RpcTensor where
  id := id
  type := tensor.type
  buffer := (remotePtr tensor.buffer).getD 0
  data := if (remotePtr tensor.buffer).isSome then tensor.data else 0
  ne i := (tensor.ne i).toUInt64.toUInt32
  nb i := (tensor.nb i).toUInt32
  op := tensor.op
  opParams := tensor.opParams
  flags := tensor.flags
  src := tensor.src
  viewSrc := tensor.viewSrc
  viewOffs := tensor.viewOffs
  name := nameText tensor.name

end LlamaCpp.Rpc
