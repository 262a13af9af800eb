import LlamaCpp.Alloc.DynTallocr

/-!
# Planning a graph

`ggml_gallocr_alloc_graph_impl`: it walks over the nodes of a graph in order and gives every
tensor that is not external and not a view an address in an allocator.  A tensor is freed
when its last child, and the last child of its views, is done, or its place is taken over by
the last child.

Tensors are numbers, and `NULL` is `none`.  The entries of `buf_tallocs` are shared by equal
buffer types, so the allocators are a function of the buffer type.
-/

namespace LlamaCpp

/-- `ggml_op`: no operation, those that can work in place, and the others. -/
inductive GgmlOp where
  | none
  | fill | scale | diagMaskZero | diagMaskInf | add | addId | add1 | sub | mul | div | sqr | sqrt
  | log | unary | rope | ropeBack | siluBack | rmsNorm | rmsNormBack | softMax | softMaxBack
  | other (code : Nat)
deriving DecidableEq

def GgmlOp.canInplace : GgmlOp → Bool
  | .none => false
  | .other _ => false
  | _ => true

/-- What `ggml_are_same_layout` compares. -/
structure TensorLayout where
  type : Nat
  ne : List Nat
  nb : List Nat
deriving DecidableEq

structure GgmlTensor where
  op : GgmlOp
  layout : TensorLayout
  src : List (Option Nat) := []
  viewSrc : Option Nat := none
  /-- `GGML_TENSOR_FLAG_INPUT` and `GGML_TENSOR_FLAG_OUTPUT` -/
  input : Bool := false
  output : Bool := false
  data : Option Nat := none
  buffer : Option Nat := none

def GgmlTensor.isView (t : GgmlTensor) : Bool := t.viewSrc.isSome

/-- The entries of `src` that are not `NULL`. -/
def GgmlTensor.parents (t : GgmlTensor) : List Nat := t.src.reduceOption

structure GgmlCgraph where
  tensor : Nat → GgmlTensor
  nodes : List Nat
  leafs : List Nat

/-- What the backend says about a buffer type. -/
structure BufferTypes where
  alignment : Nat → Nat
  maxSize : Nat → Nat
  /-- `ggml_backend_buft_get_alloc_size` -/
  allocSize : Nat → GgmlTensor → Nat

structure HashNode where
  nChildren : Int := 0
  nViews : Int := 0
  bufferId : Nat := 0
  addr : BufferAddress := {}
  allocated : Bool := false

/-- The part of `ggml_gallocr` that planning writes. -/
structure Planner where
  hash : Nat → HashNode := fun _ => {}
  tallocs : Nat → DynTallocr

namespace Planner

def modify (g : Planner) (t : Nat) (f : HashNode → HashNode) : Planner :=
  { g with hash := Function.update g.hash t (f (g.hash t)) }

/-- Rewrite one allocator. -/
def setTalloc (g : Planner) (buft : Nat) (talloc : DynTallocr) : Planner :=
  { g with tallocs := Function.update g.tallocs buft talloc }

variable (G : GgmlCgraph) (B : BufferTypes) (bufts : List Nat) (g : Planner)

def isOwn (t : Nat) : Bool := (g.hash t).allocated

def isAllocated (t : Nat) : Bool :=
  (G.tensor t).data.isSome || (G.tensor t).buffer.isSome || g.isOwn t

/-- `ggml_gallocr_free_extra_space`; `none` if it ends the process. -/
def freeExtraSpace (node parent : Nat) : Option Planner := do
  let parentBuft ← bufts[(g.hash parent).bufferId]?
  let nodeBuft ← bufts[(g.hash node).bufferId]?
  let parentSize := B.allocSize parentBuft (G.tensor parent)
  let nodeSize := B.allocSize nodeBuft (G.tensor node)
  if parentSize < nodeSize then none
  else
    let talloc := g.tallocs parentBuft
    let parentSize := alignedOffset parentSize talloc.alignment
    let nodeSize := alignedOffset nodeSize talloc.alignment
    if nodeSize < parentSize then
      let addr := (g.hash parent).addr
      let talloc ← talloc.freeBytes ⟨addr.chunk, addr.offset + nodeSize⟩ (parentSize - nodeSize)
      return g.setTalloc parentBuft talloc
    else return g

/-- The tensor whose place `node` can take over from `parent`: the parent, or the source of
the parent if that is a view. -/
def reusable (node parent : Nat) : Option Nat :=
  let p := G.tensor parent
  -- if the node's data is external, then we cannot re-use it
  if !g.isOwn parent then none
  -- outputs cannot be reused
  else if p.output || p.viewSrc.any fun v => (G.tensor v).output then none
  else if (G.tensor node).layout ≠ p.layout then none
  else if (g.hash parent).nChildren = 1 ∧ (g.hash parent).nViews = 0 then
    match p.viewSrc with
    | some v =>
      if (g.hash v).nViews = 1 ∧ (g.hash v).nChildren = 0 ∧ (G.tensor v).data = p.data then some v
      else none
    | none => some parent
  else none

/-- The first parent whose place can be taken over, and the tensor that it belongs to. -/
def findReusable (node : Nat) : Option (Nat × Nat) :=
  if (G.tensor node).op.canInplace then
    (G.tensor node).parents.findSome? fun p => (g.reusable G node p).map fun v => (p, v)
  else none

def allocateNode (node : Nat) (bufferId : Int) : Option Planner :=
  if bufferId < 0 then none
  else if g.isAllocated G node || (G.tensor node).isView then some g
  else
    let g := g.modify node fun hn => { hn with allocated := true }
    match g.findReusable G node with
    | some (parent, owner) =>
      let hp := g.hash parent
      let g := g.modify node fun hn => { hn with bufferId := hp.bufferId, addr := hp.addr }
      -- avoid freeing the parent
      let g := g.modify parent fun hn => { hn with allocated := false }
      let g := g.modify owner fun hn => { hn with allocated := false }
      g.freeExtraSpace G B bufts node owner
    | none => do
        let buft ← bufts[bufferId.toNat]?
        let (addr, talloc) ← (g.tallocs buft).alloc (B.allocSize buft (G.tensor node))
        return (g.setTalloc buft talloc).modify node fun hn =>
          { hn with bufferId := bufferId.toNat, addr := addr }

def freeNode (node : Nat) : Option Planner :=
  -- graph outputs are never freed
  if (G.tensor node).output then some g
  else do
    let buft ← bufts[(g.hash node).bufferId]?
    let talloc ← (g.tallocs buft).freeBytes (g.hash node).addr (B.allocSize buft (G.tensor node))
    return (g.setTalloc buft talloc).modify node fun hn => { hn with allocated := false }

/-! ## The loops of `ggml_gallocr_alloc_graph_impl` -/

/-- Count the children and views that node `i` makes, and allocate the inputs. -/
def countNode (bufferId : Int) (node : Nat) : Option Planner := do
  let t := G.tensor node
  let g := match t.viewSrc with
    | some v => if t.op ≠ .none then g.modify v fun hn => { hn with nViews := hn.nViews + 1 } else g
    | none => g
  let g ← if t.input then g.allocateNode G B bufts node bufferId else some g
  t.parents.foldlM (fun g src =>
    let g := g.modify src fun hn => { hn with nChildren := hn.nChildren + 1 }
    if (G.tensor src).input then g.allocateNode G B bufts src bufferId else some g) g

def updateParent (parent : Nat) : Option Planner :=
  let g := g.modify parent fun hn => { hn with nChildren := hn.nChildren - 1 }
  if (g.hash parent).nChildren = 0 ∧ (g.hash parent).nViews = 0 then
    match (G.tensor parent).viewSrc with
    | some v =>
      let g := g.modify v fun hn => { hn with nViews := hn.nViews - 1 }
      if (g.hash v).nViews = 0 ∧ (g.hash v).nChildren = 0 ∧ (g.hash v).allocated then
        g.freeNode G B bufts v
      else some g
    | none => if (g.hash parent).allocated then g.freeNode G B bufts parent else some g
  else some g

/-- Allocate node `i` and free the parents that are done. -/
def allocNode (bufferId : Int) (node : Nat) : Option Planner := do
  let parents := (G.tensor node).parents
  -- allocate parents (only leafs need to be allocated at this point)
  let g ← parents.foldlM (fun g parent => g.allocateNode G B bufts parent bufferId) g
  let g ← g.allocateNode G B bufts node bufferId
  parents.foldlM (fun g parent => g.updateParent G B bufts parent) g

/-- `ggml_gallocr_alloc_graph_impl`; `none` if it ends the process. -/
def allocGraphImpl (nodeBufferIds leafBufferIds : Nat → Int) : Option Planner := do
  let g := { g with hash := fun _ => {} }
  -- these may be tensors that the application is not using in the graph
  let g ← G.leafs.zipIdx.foldlM (fun g leaf =>
    g.allocateNode G B bufts leaf.1 (leafBufferIds leaf.2)) g
  -- allocate other graph inputs and leafs first to avoid overwriting them
  let g ← G.nodes.zipIdx.foldlM (fun g node =>
    g.countNode G B bufts (nodeBufferIds node.2) node.1) g
  G.nodes.zipIdx.foldlM (fun g node => g.allocNode G B bufts (nodeBufferIds node.2) node.1) g

end Planner

end LlamaCpp
