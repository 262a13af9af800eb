import LlamaCpp.Batch.Ubatch

/-!
# The compressor of the DSV4 cache

`dsv4_build_comp_plan` of llama-kv-cache-dsv4.cpp says, for one micro-batch, which rows the graph
gathers to compress the blocks that the micro-batch completes, to which rows of the compressed cache
they go, and which tokens are kept in the state for later.  `process` is what the graph does with the
plan: gather from the old state, the micro-batch and the zero row, then write, then persist.

The state is a ring of `state_size` rows for every stream.  A row is `none` while it is zero.  Row
numbers are natural numbers; they fit in `int32_t` since they number the rows of tensors in memory.
-/

namespace LlamaCpp.Dsv4

/-- `GGML_PAD(x, 256)` -/
def pad256 (x : Nat) : Nat := (x + 255) / 256 * 256

def compSize (kvSize ratio : Nat) : Nat := max 1 ((kvSize + ratio - 1) / ratio)

/-- A compressor of a cache with `nCells` cells for every stream.  The state holds the window of a
block, and the compressed cache a row for every block of the cells. -/
structure CompParams where
  ratio : Nat
  overlap : Bool
  stateSize : Nat
  kvSize : Nat
  nStream : Nat
  nCells : Nat
  ratio_pos : 0 < ratio
  nStream_pos : 0 < nStream
  window_le : (if overlap then 2 * ratio else ratio) ≤ stateSize
  rows_le : nCells ≤ ratio * kvSize

theorem le_mul_pad256 (nCells : Nat) {ratio : Nat} (h : 0 < ratio) :
    nCells ≤ ratio * pad256 (compSize nCells ratio) := by
  have hpad : compSize nCells ratio ≤ pad256 (compSize nCells ratio) := by
    unfold pad256
    omega
  have hdiv : nCells ≤ ratio * ((nCells + ratio - 1) / ratio) := by
    have hmod := Nat.div_add_mod (nCells + ratio - 1) ratio
    have hlt := Nat.mod_lt (nCells + ratio - 1) h
    omega
  have hle : (nCells + ratio - 1) / ratio ≤ pad256 (compSize nCells ratio) :=
    Nat.le_trans (Nat.le_max_right ..) hpad
  exact Nat.le_trans hdiv (Nat.mul_le_mul_left ratio hle)

abbrev csaRatio : Nat := 4

abbrev hcaRatio : Nat := 128

/-- The parameters of `csa_state` and `kv_csa`, and of `lid_state` and `kv_lid`. -/
def csa (nCells nStream : Nat) (h : 0 < nStream) : CompParams where
  ratio := csaRatio
  overlap := true
  stateSize := 2 * csaRatio
  kvSize := pad256 (compSize nCells csaRatio)
  nStream := nStream
  nCells := nCells
  ratio_pos := by decide
  nStream_pos := h
  window_le := by decide
  rows_le := le_mul_pad256 nCells (by decide)

/-! ## The plan -/

structure CompPlan where
  statePos : List Nat
  statePersistSrcIdxs : List Nat
  statePersistDstIdxs : List Nat
  stateReadIdxs : List Nat
  stateWriteIdxs : List Nat
  stateWritePos : List Nat
  nVisible : List Nat
  nKv : Nat
  nStream : Nat

/-- `dsv4_stream_offset`; `none` if it throws. -/
def streamOffset (nStream : Nat) (seqId : SeqId) (size : Nat) : Option Nat :=
  if nStream ≤ 1 then some 0
  else if nStream ≤ seqId.val then none
  else some (seqId.val * size)

section Plan

variable (p : CompParams) (ubatch : LlamaUbatch)

def hasCoupled : Bool := (List.range ubatch.nTokens).any fun i => 1 < (ubatch.seqId i).length

/-- `dsv4_comp_graph_n_stream` -/
def compGraphNStream : Nat :=
  if p.nStream ≤ 1 ∨ ubatch.nSeqsUnq ≤ 1 ∨ hasCoupled ubatch then 1 else ubatch.nSeqsUnq

def stateRows : Nat := p.stateSize * p.nStream

/-- `curr_token_idx_map`: a later token of the same sequence and position overwrites an earlier one. -/
def currTokenIdx (seqId : SeqId) (pos : Int) : Option Nat :=
  (List.range ubatch.nTokens).reverse.find? fun i => seqId ∈ ubatch.seqId i ∧ ubatch.pos i = pos

/-- `state_source_idx`: the zero row, a token of the micro-batch, or a row of the state. -/
def stateSourceIdx (seqId : SeqId) (pos : Int) : Option Nat :=
  if pos < 0 then some (stateRows p + ubatch.nTokens)
  else
    match currTokenIdx ubatch seqId pos with
    | some i => some (stateRows p + i)
    | none => (streamOffset p.nStream seqId p.stateSize).map (· + pos.toNat % p.stateSize)

def sourceIdxs (seqId : SeqId) (start : Int) : Option (List Nat) :=
  (List.range p.ratio).mapM fun j : Nat => stateSourceIdx p ubatch seqId (start + j)

/-- The sources of the preceding block, with overlap. -/
def prevIdxs (seqId : SeqId) (start : Int) : Option (List Nat) :=
  if p.overlap then sourceIdxs p ubatch seqId start else some []

structure PersistRow where
  dst : Nat
  src : Nat
  pos : Nat

/-- Persist a token in a row, unless a later token is persisted there. -/
def persist (dst src pos : Nat) : List PersistRow → List PersistRow
  | [] => [⟨dst, src, pos⟩]
  | row :: rows =>
    if row.dst = dst then
      if row.pos < pos then ⟨dst, src, pos⟩ :: rows else row :: rows
    else row :: persist dst src pos rows

/-- What the loop collects.  Without overlap `curReads` is `state_read_idxs`. -/
structure Commits where
  persistRows : List PersistRow := []
  prevReads : List Nat := []
  curReads : List Nat := []
  writeIdxs : List Nat := []
  writePos : List Nat := []

/-- The body of the loop over the sequences of a token. -/
def planSeq (i pos : Nat) (c : Commits) (seqId : SeqId) : Option Commits := do
  let streamOff ← streamOffset p.nStream seqId p.stateSize
  let c := { c with persistRows := persist (streamOff + pos % p.stateSize) i pos c.persistRows }
  if (pos + 1) % p.ratio ≠ 0 then some c
  else
    let sourceStart := pos + 1 - p.ratio
    let cacheOff ← streamOffset p.nStream seqId p.kvSize
    let prev ← prevIdxs p ubatch seqId ((sourceStart : Int) - p.ratio)
    let cur ← sourceIdxs p ubatch seqId sourceStart
    some { c with
      prevReads := c.prevReads ++ prev
      curReads := c.curReads ++ cur
      writeIdxs := c.writeIdxs ++ [cacheOff + pos / p.ratio]
      writePos := c.writePos ++ [sourceStart] }

/-- The body of the loop over the tokens. -/
def planToken (c : Commits) (i : Nat) : Option Commits :=
  if ubatch.pos i < 0 then some c
  else (ubatch.seqId i).foldlM (planSeq p ubatch i (ubatch.pos i).toNat) c

def validTokens : List Nat := (List.range ubatch.nTokens).filter fun i => 0 ≤ ubatch.pos i

/-- A step without a completed block writes to the last row. -/
def addFiller (c : Commits) : Option Commits :=
  if p.ratio = csaRatio ∧ c.writeIdxs = [] ∧ validTokens ubatch ≠ [] then do
    let i ← (validTokens ubatch).head?
    let seqId ← (ubatch.seqId i).head?
    let cacheOff ← streamOffset p.nStream seqId p.kvSize
    let sourceIdx ← stateSourceIdx p ubatch seqId (ubatch.pos i)
    some { c with
      prevReads := if p.overlap then List.replicate p.ratio sourceIdx else []
      curReads := List.replicate p.ratio sourceIdx
      writeIdxs := [cacheOff + p.kvSize - 1]
      writePos := [0] }
  else some c

def visibleRows : List Nat :=
  (List.range ubatch.nTokens).map fun i =>
    if ubatch.pos i < 0 then 0 else ((ubatch.pos i).toNat + 1) / p.ratio

/-- `dsv4_build_comp_plan`; `none` if it throws. -/
def buildCompPlan : Option CompPlan :=
  if p.nStream ≤ 1 ∧ 1 < ubatch.nSeqsUnq then none
  else do
    let c ← (List.range ubatch.nTokens).foldlM (planToken p ubatch) {}
    let c ← addFiller p ubatch c
    let rows := c.persistRows.insertionSort fun a b => a.dst ≤ b.dst
    some {
      statePos := (validTokens ubatch).map fun i => (ubatch.pos i).toNat % p.ratio
      statePersistSrcIdxs := rows.map (·.src)
      statePersistDstIdxs := rows.map (·.dst)
      stateReadIdxs := c.prevReads ++ c.curReads
      stateWriteIdxs := c.writeIdxs
      stateWritePos := c.writePos
      nVisible := visibleRows p ubatch
      nKv := pad256 ((visibleRows p ubatch).foldl max 0)
      nStream := compGraphNStream p ubatch }

end Plan

/-! ## The graph -/

/-- The rows of the state, and the compressed cache: for every row the window that was compressed. -/
structure CompState (V : Type) where
  ring : Nat → Option V := fun _ => none
  cache : Nat → Option (List (Option V)) := fun _ => none

/-- A micro-batch with the rows that the graph computes for its tokens. -/
structure CompInput (V : Type) where
  ubatch : LlamaUbatch
  rows : Nat → V

variable {V : Type}

/-- The rows that are gathered from: the state, the micro-batch and a zero row. -/
def sourceRow (p : CompParams) (ring : Nat → Option V) (x : CompInput V) (row : Nat) : Option V :=
  if row < stateRows p then ring row
  else if row < stateRows p + x.ubatch.nTokens then some (x.rows (row - stateRows p))
  else none

namespace CompPlan

/-- The rows that are gathered for block `k`.  With overlap, the first half of the indices are the
rows of the preceding blocks. -/
def window (plan : CompPlan) (p : CompParams) (source : Nat → Option V) (k : Nat) : List (Option V) :=
  let chunk := fun start => ((plan.stateReadIdxs.drop start).take p.ratio).map source
  if p.overlap then
    chunk (k * p.ratio) ++ chunk (p.ratio * plan.stateWriteIdxs.length + k * p.ratio)
  else chunk (k * p.ratio)

end CompPlan

def CompState.apply (st : CompState V) (p : CompParams) (x : CompInput V) (plan : CompPlan) : CompState V where
  cache := plan.stateWriteIdxs.zipIdx.foldl
    (fun cache (row, k) => Function.update cache row (some (plan.window p (sourceRow p st.ring x) k))) st.cache
  ring := (plan.statePersistDstIdxs.zip plan.statePersistSrcIdxs).foldl
    (fun ring (dst, src) => Function.update ring dst (some (x.rows src))) st.ring

end LlamaCpp.Dsv4
