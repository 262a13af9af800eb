import LlamaCpp.Gguf.Context
import LlamaCpp.Lib.Packed
import LlamaCpp.Rpc.Tensor

/-!
# Shipping a graph

The client sends a graph as its nodes and the tensors that they refer to, and the worker builds tensors of its own from
that.  A tensor of the worker is at the address that the client has for it, as `tensor_map` has one tensor for every id.

The recursion of `create_node` has a bound, the number of tensors, and the memory pool of the graph is the number of tensors
it has room for.
-/

namespace LlamaCpp.Rpc

open Function (update)
open Readers (putLE getLE)
open Packed

/-! ## The client -/

abbrev rpcTensorSize : Nat := 296

/-- The fields of an `rpc_tensor`, which is packed. -/
def RpcTensor.fields (t : RpcTensor) : List (Nat × Nat) :=
  [(8, t.id.toNat), (4, t.type.toNat), (8, t.buffer.toNat)] ++
    List.ofFn (fun i => (4, (t.ne i).toNat)) ++ List.ofFn (fun i => (4, (t.nb i).toNat)) ++
    [(4, t.op.toNat)] ++ List.ofFn (fun i => (4, (t.opParams i).toUInt32.toNat)) ++ [(4, t.flags.toUInt32.toNat)] ++
    List.ofFn (fun i => (8, (t.src i).toNat)) ++
    [(8, t.viewSrc.toNat), (8, t.viewOffs.toNat), (8, t.data.toNat)] ++
    List.ofFn (fun i => (1, (t.name i).toNat)) ++ [(4, 0)]

def fieldWidths : List Nat :=
  [8, 4, 8] ++ List.replicate 4 4 ++ List.replicate 4 4 ++ [4] ++ List.replicate 16 4 ++ [4] ++
    List.replicate 10 8 ++ [8, 8, 8] ++ List.replicate 64 1 ++ [4]

/-- The bytes of an `rpc_tensor`. -/
def encodeTensor (t : RpcTensor) : List UInt8 := putAll t.fields

/-- The `rpc_tensor` at the start of some bytes. -/
def decodeTensor (bytes : List UInt8) : RpcTensor :=
  let v := fun k => (takeAll fieldWidths bytes).getD k 0
  { id := UInt64.ofNat (v 0)
    type := UInt32.ofNat (v 1)
    buffer := UInt64.ofNat (v 2)
    ne i := UInt32.ofNat (v (3 + i))
    nb i := UInt32.ofNat (v (7 + i))
    op := UInt32.ofNat (v 11)
    opParams i := (UInt32.ofNat (v (12 + i))).toInt32
    flags := (UInt32.ofNat (v 28)).toInt32
    src i := UInt64.ofNat (v (29 + i))
    viewSrc := UInt64.ofNat (v 39)
    viewOffs := UInt64.ofNat (v 40)
    data := UInt64.ofNat (v 41)
    name i := UInt8.ofNat (v (42 + i)) }

/-- The tensors of the client, by their addresses, and what the worker calls its buffers. -/
structure Client where
  heap : UInt64 → GgmlTensor
  remotePtr : UInt64 → Option UInt64

namespace Client

variable (c : Client)

def serialize (id : UInt64) : RpcTensor := serializeTensor c.remotePtr id (c.heap id)

def serializeLeaf (id : UInt64) : RpcTensor :=
  { c.serialize id with
    op := 0
    flags := 0
    opParams := fun _ => 0
    src := fun _ => 0
    viewSrc := 0
    viewOffs := 0 }

/-- The visited tensors, and what was made of them. -/
structure Collected where
  visited : List UInt64 := []
  tensors : List RpcTensor := []

/-- `add_leaf` of `collect_graph_tensors` -/
def addLeaf (nodes : List UInt64) (s : Collected) (t : UInt64) : Collected :=
  if t = 0 ∨ t ∈ nodes ∨ t ∈ s.visited then s
  else ⟨s.visited ++ [t], s.tensors ++ [c.serializeLeaf t]⟩

/-- What `collect_graph_tensors` does for a node. -/
def collectNode (nodes : List UInt64) (s : Collected) (node : UInt64) : Collected :=
  let s := (List.ofFn (c.heap node).src).foldl (c.addLeaf nodes) s
  let s := c.addLeaf nodes s (c.heap node).viewSrc
  if node ∈ s.visited then s else ⟨s.visited ++ [node], s.tensors ++ [c.serialize node]⟩

def collectGraphTensors (nodes : List UInt64) : List RpcTensor :=
  (nodes.foldl (c.collectNode nodes) {}).tensors

/-- The nodes and the tensors of a graph, with their numbers in 32 bits. -/
def graphTail (nodes : List UInt64) (tensors : List RpcTensor) : List UInt8 :=
  let nNodes := nodes.length % 2 ^ 32
  let nTensors := tensors.length % 2 ^ 32
  putLE 4 nNodes ++ (nodes.take nNodes).flatMap (fun id => putLE 8 id.toNat) ++
    (putLE 4 nTensors ++ (tensors.take nTensors).flatMap encodeTensor)

/-- `serialize_graph`.  The size of the output is an `int`: from 2 GiB on it is negative, so that the output cannot have it,
or it has wrapped. -/
def serializeGraph (device : UInt32) (nodes : List UInt64) : Option (List UInt8) :=
  let tensors := c.collectGraphTensors nodes
  let outputSize := 2 * 4 + nodes.length % 2 ^ 32 * 8 + 4 + tensors.length % 2 ^ 32 * rpcTensorSize
  if outputSize ≥ 2 ^ 31 then none
  else some (putLE 4 device.toNat ++ graphTail nodes tensors)

def serializeGraphUid (device : UInt32) (uid : UInt64) (nodes : List UInt64) : List UInt8 :=
  putLE 4 device.toNat ++ putLE 4 0 ++ putLE 8 uid.toNat ++ graphTail nodes (c.collectGraphTensors nodes)

end Client

/-! ## The worker -/

abbrev ggmlOpCount : UInt32 := 103

/-- A buffer of the worker.  The buffers of a meta device have no bounds of their own. -/
structure RemoteBuffer where
  base : UInt64
  size : UInt64
  isMeta : Bool := false

structure Worker where
  buffers : UInt64 → Option RemoteBuffer

/-- How a handler of the worker fails: it returns, or an assertion stops the process. -/
inductive Fault where
  | rejected
  | aborted

def nbytes (t : GgmlTensor) : UInt64 :=
  if ∃ i, t.ne i ≤ 0 then 0
  else
    let part := fun i => ((t.ne i).toUInt64 - 1) * t.nb i
    let blckSize := UInt64.ofNat (ggmlBlckSize t.type.toNat)
    if blckSize = 1 then UInt64.ofNat (ggmlTypeSize t.type.toNat) + part 0 + part 1 + part 2 + part 3
    else (t.ne 0).toUInt64 * t.nb 0 / blckSize + part 1 + part 2 + part 3

namespace Worker

variable (w : Worker)

/-- The buffer that is registered under a number of the wire. -/
def lookup (buffer : UInt64) : Option RemoteBuffer := if buffer = 0 then none else w.buffers buffer

/-- The tensor that `deserialize_tensor` makes. -/
def tensorOf (t : RpcTensor) : GgmlTensor where
  type := t.type
  buffer := if (w.lookup t.buffer).isSome then t.buffer else 0
  ne i := (t.ne i).toUInt64.toInt64
  nb i := (t.nb i).toUInt64
  op := t.op
  opParams := t.opParams
  flags := t.flags
  data := t.data
  name := nameText t.name

/-- The tensor data do not go beyond the buffer. -/
def inBuffer (b : RemoteBuffer) (t : GgmlTensor) : Prop :=
  t.data + nbytes t ≥ t.data ∧ t.data ≥ b.base ∧ t.data + nbytes t ≤ b.base + b.size

instance (b : RemoteBuffer) (t : GgmlTensor) : Decidable (inBuffer b t) :=
  inferInstanceAs (Decidable (_ ∧ _ ∧ _))

/-- `rpc_server::deserialize_tensor`, in a context that has room for another tensor or not -/
def deserializeTensor (room : Bool) (t : RpcTensor) : Except Fault GgmlTensor :=
  if t.type.toNat ≥ ggmlTypeCount then .error .rejected
  else if ggmlBlckSize t.type.toNat = 0 then .error .rejected
  else if !room then .error .aborted
  else if ∃ b ∈ w.lookup t.buffer, b.isMeta = false ∧ ¬ inBuffer b (w.tensorOf t) then .error .aborted
  else if t.op ≥ ggmlOpCount then .error .rejected
  else .ok (w.tensorOf t)

end Worker

/-- The tensors of a graph: `tensor_map` -/
structure NodeMap where
  ids : List UInt64 := []
  tensor : UInt64 → GgmlTensor := fun _ => {}

namespace NodeMap

def add (m : NodeMap) (id : UInt64) (t : GgmlTensor) : NodeMap := ⟨m.ids ++ [id], update m.tensor id t⟩

def edit (m : NodeMap) (id : UInt64) (f : GgmlTensor → GgmlTensor) : NodeMap :=
  { m with tensor := update m.tensor id (f (m.tensor id)) }

end NodeMap

/-- A graph of the worker, `none` for a null node. -/
structure Graph where
  nodes : List (Option UInt64) := []
  map : NodeMap := {}

/-- The step of a handler that also leaves the map when it fails. -/
abbrev Building := EStateM Fault NodeMap

/-- Source `i` of the new tensor `id` in `rpc_server::create_node` -/
def linkSrc (create : UInt64 → Building Unit) (id : UInt64) (t : RpcTensor) (i : Fin maxSrc) : Building Unit := do
  if t.src i ≠ 0 then
    create (t.src i)
    modify fun m => m.edit id fun r => r.withSrc (update r.src i (t.src i))

/-- What the new tensor `id` is a view of, in `rpc_server::create_node` -/
def linkViewSrc (create : UInt64 → Building Unit) (id : UInt64) (t : RpcTensor) : Building Unit := do
  if t.viewSrc ≠ 0 then
    create t.viewSrc
    modify fun m => m.edit id fun r => { r with viewSrc := t.viewSrc }

def linkNode (create : UInt64 → Building Unit) (id : UInt64) (t : RpcTensor) : Building Unit := do
  (List.finRange maxSrc).forM (linkSrc create id t)
  linkViewSrc create id t
  modify fun m => m.edit id fun r => { r with viewOffs := t.viewOffs }

namespace Worker

variable (w : Worker)

def createNode (capacity : Nat) (tensorPtrs : UInt64 → Option RpcTensor) : Nat → UInt64 → Building Unit
  | 0, _ => throw .aborted
  | fuel + 1, id => do
      let m ← get
      if id ∈ m.ids then return
      else
        match tensorPtrs id with
        | none => throw .rejected
        | some t =>
          match w.deserializeTensor (decide (m.ids.length < capacity)) t with
          | .error e => throw e
          | .ok result =>
            if result.buffer = 0 ∧ result.data ≠ 0 then throw .rejected
            else
              set (m.add id result)
              linkNode (createNode capacity tensorPtrs fuel) id t

/-- A node of the graph in `rpc_server::deserialize_compute` -/
def addNode (capacity fuel : Nat) (tensorPtrs : UInt64 → Option RpcTensor) (g : Graph) (id : UInt64) :
    Except Fault Graph :=
  match w.createNode capacity tensorPtrs fuel id g.map with
  | .ok _ m => .ok ⟨g.nodes ++ [some id], m⟩
  | .error .aborted _ => .error .aborted
  | .error .rejected m => if id ≠ 0 then .error .rejected else .ok ⟨g.nodes ++ [none], m⟩

def buildGraph (nodes : List UInt64) (tensors : List RpcTensor) : Except Fault Graph :=
  let capacity := (nodes.length + tensors.length) % 2 ^ 32
  nodes.foldlM (w.addNode capacity (tensors.length + 1) fun id => tensors.find? fun t => t.id = id) {}

/-- `rpc_server::deserialize_compute`, up to where the graph is computed -/
def deserializeCompute (src : List UInt8) : Except Fault Graph :=
  if src.length < 4 then .error .rejected
  else
    let nNodes := getLE (src.take 4)
    if src.length < 4 + nNodes * 8 + 4 then .error .rejected
    else
      let nodes := takeEach 8 nNodes (fun bytes => UInt64.ofNat (getLE (bytes.take 8))) (src.drop 4)
      let src' := src.drop (4 + nNodes * 8)
      let nTensors := getLE (src'.take 4)
      if src.length < 4 + nNodes * 8 + 4 + nTensors * rpcTensorSize then .error .rejected
      else w.buildGraph nodes (takeEach rpcTensorSize nTensors decodeTensor (src'.drop 4))

end Worker

end LlamaCpp.Rpc
