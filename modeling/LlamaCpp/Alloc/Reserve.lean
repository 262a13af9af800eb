import LlamaCpp.Alloc.Planner

/-!
# Reserving buffers for a plan

`ggml_gallocr_reserve_n_impl` records the plan by position in the graph and allocates a
vbuffer for every entry of `bufts`; entries with the same buffer type hold the same pointer.
`ggml_gallocr_alloc_graph` gives the tensors of a graph the addresses of a recorded plan.

A pointer to a vbuffer is a number that is not used again, and the heap counts how often each
of them was freed.
-/

namespace LlamaCpp

/-- `tensor_alloc`; no place stands for a buffer id of -1. -/
structure TensorAlloc where
  place : Option (Nat × BufferAddress) := none
  sizeMax : Nat := 0

structure NodeAlloc where
  dst : TensorAlloc
  src : List TensorAlloc

structure VbufferHeap where
  /-- The next pointer. -/
  next : Nat := 0
  /-- The sizes of the backend buffers of a vbuffer. -/
  chunks : Nat → List Nat := fun _ => []
  /-- How often a vbuffer was freed. -/
  frees : Nat → Nat := fun _ => 0

/-- The pointers in `buffers`, and the heap. -/
structure VbufferTable where
  entry : Nat → Option Nat := fun _ => none
  heap : VbufferHeap := {}

structure Gallocr where
  planner : Planner
  buffers : VbufferTable := {}
  nodeAllocs : List NodeAlloc := []
  leafAllocs : List TensorAlloc := []

/-- What the allocations of one vbuffer come to: whether there is memory for the vbuffer, and
the size of the backend buffer for chunk `n`, if it is allocated. -/
structure AllocOutcome where
  vbuffer : Bool
  chunk : Nat → Nat → Option Nat

/-- An allocated buffer has the size that was asked for. -/
def AllocOutcome.Fits (o : AllocOutcome) : Prop :=
  ∀ n size got, o.chunk n size = some got → size ≤ got

/-! ## Vbuffers -/

namespace VbufferTable

variable (s : VbufferTable)

def free : Option Nat → VbufferTable
  | none => s
  | some p => { s with heap := { s.heap with
      frees := Function.update s.heap.frees p (s.heap.frees p + 1) } }

def set (i : Nat) (p : Option Nat) : VbufferTable :=
  { s with entry := Function.update s.entry i p }

def chunkSize (p n : Nat) : Nat := (s.heap.chunks p).getD n 0

/-- The sizes of the chunks; `none` if one of them is not allocated. -/
def allocChunks (talloc : DynTallocr) (o : AllocOutcome) : Option (List Nat) :=
  if o.vbuffer then (talloc.chunks.zipIdx.mapM fun chunk => o.chunk chunk.2 chunk.1.maxSize) else none

/-- `galloc->buffers[i] = ggml_vbuffer_alloc(..)` -/
def alloc (i : Nat) (talloc : DynTallocr) (o : AllocOutcome) : VbufferTable :=
  match allocChunks talloc o with
  | none => s.set i none
  | some sizes =>
    { entry := Function.update s.entry i (some s.heap.next)
      heap := { s.heap with
        next := s.heap.next + 1
        chunks := Function.update s.heap.chunks s.heap.next sizes } }

/-- An earlier entry with the same allocator. -/
def sharer (bufts : List Nat) (i : Nat) : Option Nat :=
  (List.range i).find? fun j => bufts[j]? = bufts[i]?

/-- Whether entry `i` is `NULL` or has a chunk that is too small. -/
def needsRealloc (talloc : DynTallocr) (i : Nat) : Bool :=
  match s.entry i with
  | none => true
  | some p => (List.range talloc.chunks.length).any fun n => s.chunkSize p n < talloc.maxSize n

/-- If the buffer type is used multiple times, we reuse the same buffer. -/
def share (bufts : List Nat) (i : Nat) : VbufferTable :=
  match sharer bufts i with
  | none => s
  | some j => s.set i (s.entry j)

/-- The body of the loop over the buffers; `false` if an allocation failed. -/
def reserveEntry (bufts : List Nat) (tallocs : Nat → DynTallocr) (noAlloc : Bool)
    (outcome : Nat → AllocOutcome) (i : Nat) : Bool × VbufferTable :=
  let s := s.share bufts i
  let talloc := tallocs (bufts.getD i 0)
  if s.needsRealloc talloc i then
    let s := s.free (s.entry i)
    if noAlloc then (true, s.set i none)
    else
      let s := s.alloc i talloc (outcome i)
      ((s.entry i).isSome, s)
  else (true, s)

/-- The loop over the buffers; it stops at a failure. -/
def reserveEntries (bufts : List Nat) (tallocs : Nat → DynTallocr) (noAlloc : Bool)
    (outcome : Nat → AllocOutcome) : List Nat → VbufferTable → Bool × VbufferTable
  | [], s => (true, s)
  | i :: is, s =>
    match s.reserveEntry bufts tallocs noAlloc outcome i with
    | (false, s) => (false, s)
    | (true, s) => reserveEntries bufts tallocs noAlloc outcome is s

/-- `ggml_gallocr_free`: the vbuffers. -/
def freeAll (n : Nat) : VbufferTable :=
  (List.range n).foldl (fun s i =>
    if (List.range i).any fun j => s.entry j = s.entry i then s else s.free (s.entry i)) s

end VbufferTable

/-! ## Plans -/

namespace Gallocr

variable (G : GgmlCgraph) (B : BufferTypes) (bufts : List Nat) (g : Gallocr)

def newN : Gallocr where
  planner := { tallocs := fun buft => .new (B.alignment buft) (B.maxSize buft) }

def tensorAlloc (planner : Planner) (t : Nat) : TensorAlloc :=
  if (G.tensor t).isView || (G.tensor t).data.isSome then {}
  else
    let hn := planner.hash t
    { place := some (hn.bufferId, hn.addr)
      sizeMax := B.allocSize (bufts.getD hn.bufferId 0) (G.tensor t) }

def nodeAlloc (planner : Planner) (t : Nat) : NodeAlloc where
  dst := tensorAlloc G B bufts planner t
  src := (G.tensor t).src.map fun
    | none => {}
    | some src => tensorAlloc G B bufts planner src

/-- The plan of a graph, from allocators that are reset. -/
def plan (nodeBufferIds leafBufferIds : Nat → Int) : Option Planner :=
  { g.planner with tallocs := fun buft => (g.planner.tallocs buft).reset }.allocGraphImpl G B bufts
    nodeBufferIds leafBufferIds

/-- `ggml_gallocr_reserve_n_impl`; `none` if it ends the process. -/
def reserveNImpl (nodeBufferIds leafBufferIds : Nat → Int) (noAlloc : Bool)
    (outcome : Nat → AllocOutcome) : Option (Bool × Gallocr) := do
  let planner ← g.plan G B bufts nodeBufferIds leafBufferIds
  let (ok, buffers) := g.buffers.reserveEntries bufts planner.tallocs noAlloc outcome
    (List.range bufts.length)
  return (ok,
    { planner := planner
      buffers := buffers
      -- a failure invalidates the assignments
      nodeAllocs := if ok then G.nodes.map (nodeAlloc G B bufts planner) else []
      leafAllocs := if ok then G.leafs.map (tensorAlloc G B bufts planner) else [] })

/-- `ggml_gallocr_node_needs_realloc`, which returns whether the plan is good. -/
def nodeNeedsRealloc (t : GgmlTensor) (talloc : TensorAlloc) : Bool :=
  if t.data.isNone && !t.isView then
    match talloc.place with
    | none => false
    | some (bufferId, _) => talloc.sizeMax = B.allocSize (bufts.getD bufferId 0) t
  else talloc.sizeMax = 0

/-- `ggml_gallocr_needs_realloc`, with the exact-plan rule. -/
def needsRealloc : Bool :=
  if g.nodeAllocs.length ≠ G.nodes.length then true
  else if g.leafAllocs.length ≠ G.leafs.length then true
  else
    (G.nodes.zip g.nodeAllocs).any fun (t, alloc) =>
      !nodeNeedsRealloc B bufts (G.tensor t) alloc.dst ||
        ((G.tensor t).src.zipIdx.any fun (src, j) =>
          match src with
          | none => false
          | some src => !nodeNeedsRealloc B bufts (G.tensor src) (alloc.src.getD j {}))

abbrev Placement := Nat → Option (Nat × BufferAddress)

/-- `ggml_gallocr_init_tensor`; `none` if the vbuffer is `NULL`. -/
def initTensor (placed : Placement) (t : Nat) (talloc : TensorAlloc) : Option Placement :=
  if (G.tensor t).isView || (G.tensor t).data.isSome || (G.tensor t).buffer.isSome ||
      (placed t).isSome then some placed
  else do
    let place ← talloc.place
    let _ ← g.buffers.entry place.1
    return Function.update placed t (some place)

def initNode (placed : Placement) (t : Nat) (alloc : NodeAlloc) : Option Placement := do
  let placed ← (G.tensor t).src.zipIdx.foldlM (fun placed src =>
    match src.1 with
    | none => some placed
    | some p => g.initTensor G placed p (alloc.src.getD src.2 {})) placed
  g.initTensor G placed t alloc.dst

/-- The addresses from the recorded plan. -/
def initGraph : Option Placement := do
  let placed ← (G.leafs.zip g.leafAllocs).foldlM
    (fun placed leaf => g.initTensor G placed leaf.1 leaf.2) fun _ => none
  (G.nodes.zip g.nodeAllocs).foldlM (fun placed node => g.initNode G placed node.1 node.2) placed

/-- `ggml_gallocr_alloc_graph`: the addresses, if it succeeds. -/
def allocGraph (outcome : Nat → AllocOutcome) : Option (Option Placement × Gallocr) := do
  if g.needsRealloc G B bufts then
    if bufts.length = 1 then
      let (ok, g) ← g.reserveNImpl G B bufts (fun _ => 0) (fun _ => 0) false outcome
      if ok then
        let placed ← g.initGraph G
        return (some placed, g)
      else return (none, g)
    else return (none, g)
  else
    let placed ← g.initGraph G
    return (some placed, g)

end Gallocr

end LlamaCpp
