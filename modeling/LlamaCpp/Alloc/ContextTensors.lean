import LlamaCpp.Lib.Checks

/-!
# The tensors of a context

`ggml_backend_alloc_ctx_tensors_from_buft_impl` of ggml-alloc.c.  It adds up the padded sizes of
the tensors that have no data yet, cuts the row of tensors where the sum would be more than the
greatest size of a buffer, and hands every piece to `alloc_tensor_range`, which allocates a buffer
of the sum and places the tensors of the piece one behind the other.

Tensors are numbers, and `NULL` is `none`.  Sizes and addresses are natural numbers.
-/

namespace LlamaCpp.ContextTensors

/-- A buffer that was there before, or the `i`-th one that is allocated here. -/
abbrev BufferId : Type := Nat ⊕ Nat

/-- `ggml_tensor` -/
structure CtxTensor where
  nbytes : Nat
  viewSrc : Option Nat := none
  viewOffs : Nat := 0
  buffer : Option BufferId := none
  data : Option Nat := none

structure BackendBuffer where
  base : Nat
  size : Nat

structure BufferType where
  alignment : Nat
  maxSize : Nat
  /-- `ggml_backend_buft_get_alloc_size` -/
  allocSize : Nat → Nat

structure Backend where
  /-- The base of the `i`-th buffer of a size, or `NULL`. -/
  allocBuffer : Nat → Nat → Option Nat
  /-- `ggml_backend_buffer_init_tensor` is a success. -/
  initTensor : Nat → Bool

/-- Why there is no buffer: two kinds of abort, and `NULL`. -/
inductive Stop where
  | notEnoughSpace
  | assertion
  | failed
deriving DecidableEq

/-- `GGML_PAD`, for a power of two. -/
def ggmlPad (x n : Nat) : Nat := (x + n - 1) / n * n

def alignedOffset (buffer offset alignment : Nat) : Nat :=
  offset + (alignment - (buffer + offset) % alignment) % alignment

/-- `ggml_tallocr`, with the size of its buffer. -/
structure Tallocr where
  buffer : Nat
  base : Nat
  size : Nat
  alignment : Nat
  offset : Nat

def Tallocr.new (buffer : Nat) (b : BackendBuffer) (alignment : Nat) : Tallocr :=
  { buffer, base := b.base, size := b.size, alignment, offset := alignedOffset b.base 0 alignment }

section Functions

variable (B : BufferType) (backend : Backend)

def tensorAlloc (talloc : Tallocr) (tensors : Nat → CtxTensor) (t addr : Nat) :
    Except Stop (Nat → CtxTensor) :=
  let x := tensors t
  if x.buffer = none ∧ x.data = none ∧ x.viewSrc = none ∧ talloc.base ≤ addr ∧
      addr + B.allocSize t ≤ talloc.base + talloc.size then
    if backend.initTensor t then
      .ok (Function.update tensors t { x with buffer := some (.inr talloc.buffer), data := some addr })
    else .error .failed
  else .error .assertion

def viewInit (tensors : Nat → CtxTensor) (t : Nat) : Except Stop (Nat → CtxTensor) :=
  let x := tensors t
  match x.viewSrc with
  | none => .error .assertion
  | some src =>
    let y := tensors src
    if x.buffer = none ∧ y.buffer ≠ none ∧ (y.data ≠ none ∨ x.nbytes = 0) then
      if backend.initTensor t then
        .ok (Function.update tensors t { x with buffer := y.buffer, data := y.data.map (· + x.viewOffs) })
      else .error .failed
    else .error .assertion

def tallocrAlloc (talloc : Tallocr) (tensors : Nat → CtxTensor) (t : Nat) :
    Except Stop (Tallocr × (Nat → CtxTensor)) :=
  let size := ggmlPad (B.allocSize t) talloc.alignment
  if talloc.size < talloc.offset + size then .error .notEnoughSpace
  else do
    let tensors ← tensorAlloc B backend talloc tensors t (talloc.base + talloc.offset)
    .ok ({ talloc with offset := talloc.offset + size }, tensors)

/-- The body of the loop of `alloc_tensor_range`. -/
def placeTensor (s : Tallocr × (Nat → CtxTensor)) (t : Nat) : Except Stop (Tallocr × (Nat → CtxTensor)) :=
  let x := s.2 t
  if x.data = none then
    if x.viewSrc = none then tallocrAlloc B backend s.1 s.2 t
    else if x.buffer = none then do
      let tensors ← viewInit backend s.2 t
      .ok (s.1, tensors)
    else .ok s
  else if x.viewSrc ≠ none ∧ x.buffer = none then do
    -- view of a pre-allocated tensor
    let tensors ← viewInit backend s.2 t
    .ok (s.1, tensors)
  else .ok s

/-- The tensors, the buffers allocated so far, the tensors from `first` on, and the two sums. -/
structure Progress where
  tensors : Nat → CtxTensor
  buffers : List BackendBuffer := []
  nbytesTotal : Nat := 0
  pending : List Nat := []
  curBufSize : Nat := 0

/-- `alloc_tensor_range`, for the tensors from `first` on. -/
def allocTensorRange (s : Progress) : Except Stop Progress :=
  match backend.allocBuffer s.buffers.length s.curBufSize with
  | none => .error .failed
  | some base => do
      let b : BackendBuffer := { base, size := s.curBufSize }
      let talloc := Tallocr.new s.buffers.length b B.alignment
      let (_, tensors) ← s.pending.foldlM (placeTensor B backend) (talloc, s.tensors)
      .ok { s with tensors, buffers := s.buffers ++ [b] }

def Fresh (x : CtxTensor) : Prop := x.data = none ∧ x.viewSrc = none

instance (x : CtxTensor) : Decidable (Fresh x) := inferInstanceAs (Decidable (_ ∧ _))

def thisSize (tensors : Nat → CtxTensor) (t : Nat) : Nat :=
  if Fresh (tensors t) then ggmlPad (B.allocSize t) B.alignment else 0

/-- The body of the loop over the tensors. -/
def sizeTensor (noAlloc : Bool) (s : Progress) (t : Nat) : Except Stop Progress :=
  let size := thisSize B s.tensors t
  if 0 < s.curBufSize ∧ B.maxSize < s.curBufSize + size then do
    -- allocate tensors in the current buffer
    let s' ← if noAlloc then .ok s else allocTensorRange B backend s
    .ok { s' with pending := [t], nbytesTotal := s.nbytesTotal + s.curBufSize, curBufSize := size }
  else .ok { s with pending := s.pending ++ [t], curBufSize := s.curBufSize + size }

/-- What is left after the loop. -/
def allocRemaining (noAlloc : Bool) (s : Progress) : Except Stop Progress :=
  if 0 < s.curBufSize then
    let s := { s with nbytesTotal := s.nbytesTotal + s.curBufSize }
    if noAlloc then .ok s else allocTensorRange B backend s
  else .ok s

/-- `ggml_backend_alloc_ctx_tensors_from_buft_impl`; the buffers that are returned, and the tensors
and the number of bytes as they are left. -/
def allocCtxTensors (ctx : List Nat) (tensors : Nat → CtxTensor) (noAlloc : Bool) :
    Except Stop (Option (List BackendBuffer) × Progress) := do
  let s ← ctx.foldlM (sizeTensor B backend noAlloc) { tensors }
  let s ← allocRemaining B backend noAlloc s
  .ok (if noAlloc ∨ s.buffers = [] then none else some s.buffers, s)

end Functions

end LlamaCpp.ContextTensors
