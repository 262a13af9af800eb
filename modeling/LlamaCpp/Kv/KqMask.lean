import LlamaCpp.Kv.Cache

/-!
# The attention mask

`set_input_kq_mask` decides, for every token of a ubatch and every cell, whether the token
attends to the cell.  Unless the mask carries ALiBi biases, only the first token of a
sequence in a stream is evaluated cell by cell.  A later one copies that row and evaluates
the cells again that were recorded for it: those with a position close to the ubatch.

`KqMaskArgs.test` is what the plain loop would write.  `LlamaCpp.Kv.KqMaskRows` compares the
two.
-/

namespace LlamaCpp

def KvCellExt.is2dGt (ext : KvCellExt) (ox oy : Int) : Bool :=
  decide (oy < ext.y ∨ ext.y = oy ∧ ox < ext.x)

/-- An element of the mask: `0`, `-INFINITY`, or the bias of ALiBi. -/
inductive KqMaskValue where
  | keep
  | drop
  | bias (dist : Int)
deriving DecidableEq

/-- The template parameters of `set_input_kq_mask_impl`. -/
structure KqMaskFlags where
  causal : Bool
  swa : Bool
  is2d : Bool
  alibi : Bool

structure KqMaskArgs where
  ubatch : LlamaUbatch
  vCells : Nat → KvCells
  seqToStream : SeqId → Nat
  nSwa : Nat
  swaType : LlamaSwaType
  nKv : Nat
  nStream : Nat
  /-- Tokens per stream. -/
  nTps : Nat
  /-- The caller divides the tokens evenly among the streams. -/
  nTokens_eq : nStream * nTps = ubatch.nTokens

/-- What the loop over the tokens of a stream rewrites. -/
structure KqMaskState where
  data : Nat → KqMaskValue
  /-- The first token of a sequence. -/
  seqSrct : SeqId → Option Nat
  /-- The cells to evaluate again for later tokens of a sequence. -/
  seqIdxs : SeqId → List Nat

namespace KqMaskState

variable (σ : KqMaskState)

/-- `data[k] = v`. -/
@[simps -fullyApplied] def put (k : Nat) (v : KqMaskValue) : KqMaskState :=
  { σ with data := Function.update σ.data k v }

/-- `seq_idxs[s].push_back(j)`. -/
@[simps -fullyApplied] def record (s : SeqId) (j : Nat) : KqMaskState :=
  { σ with seqIdxs := Function.update σ.seqIdxs s (σ.seqIdxs s ++ [j]) }

/-- The `std::copy` of `n` elements from `src` to `dst`. -/
@[simps -fullyApplied] def copy (n src dst : Nat) : KqMaskState :=
  { σ with data := fun k => if dst ≤ k ∧ k < dst + n then σ.data (src + (k - dst)) else σ.data k }

@[simps -fullyApplied] def start (s : SeqId) (i : Nat) : KqMaskState :=
  { σ with
    seqSrct := Function.update σ.seqSrct s (some i)
    seqIdxs := Function.update σ.seqIdxs s [] }

end KqMaskState

namespace KqMaskArgs

variable (a : KqMaskArgs) (f : KqMaskFlags)

/-- `ubatch->seq_id[i][0]`. -/
def seqId (i : Nat) : SeqId := (a.ubatch.seqId i).headD 0

/-- `v_cells.at(seq_to_stream[s])`. -/
def cells (s : SeqId) : KvCells := a.vCells (a.seqToStream s)

/-- `seq_pos_min`: the least position of each sequence in the ubatch. -/
def seqPosMin : SeqId → Int :=
  (List.range a.ubatch.nTokens).foldl
    (fun m i => Function.update m (a.seqId i) (min (m (a.seqId i)) (a.ubatch.pos i)))
    fun _ => llamaPosMax

/-- `p0 + (int32_t) (n_swa + 32)`, at 32 bits. -/
def windowEnd (p0 : Int) : Int := Int.bmod (p0 + toInt32 (a.nSwa + 32)) (2 ^ 32)

/-- The tests on the position of cell `j` for token `i`. -/
def testPos (i j : Nat) : KqMaskValue :=
  let p0 := (a.cells (a.seqId i)).pos j
  let p1 := a.ubatch.pos i
  let p1x := if f.is2d then a.ubatch.pos (i + a.ubatch.nTokens * 2) else 0
  let p1y := if f.is2d then a.ubatch.pos (i + a.ubatch.nTokens) else 0
  if f.causal ∧ p1 < p0 then .drop
  else if f.causal ∧ f.is2d ∧ p0 = p1 ∧ ((a.cells (a.seqId i)).ext j).is2dGt p1x p1y then .drop
  else if f.swa ∧ isMaskedSwa a.nSwa a.swaType p0 p1 then .drop
  else if f.alibi then .bias (-((p0 - p1).natAbs : Int))
  else .keep

/-- All tests on cell `j` for token `i`, from scratch. -/
def test (i j : Nat) : KqMaskValue :=
  if (a.cells (a.seqId i)).isEmpty j then .drop
  else if ¬(a.cells (a.seqId i)).seqHas j (a.seqId i) then .drop
  else a.testPos f i j

/-- The body of the loop over the cells; `prev` says that the row is a copy. -/
def visit (i : Nat) (prev : Bool) (σ : KqMaskState) (j : Nat) : KqMaskState :=
  let dst := a.nKv * i + j
  if (a.cells (a.seqId i)).isEmpty j then σ.put dst .drop
  else if ¬(a.cells (a.seqId i)).seqHas j (a.seqId i) then σ.put dst .drop
  else
    let σ₁ :=
      if ¬f.alibi ∧ ¬prev ∧ a.seqPosMin (a.seqId i) ≤ a.windowEnd ((a.cells (a.seqId i)).pos j) then
        σ.record (a.seqId i) j
      else σ
    σ₁.put dst (a.testPos f i j)

def visitAll (i : Nat) (σ : KqMaskState) : KqMaskState :=
  (List.range a.nKv).foldl (a.visit f i false) σ

def visitRecorded (i : Nat) (σ : KqMaskState) : KqMaskState :=
  ((σ.seqIdxs (a.seqId i)).take a.nKv).foldl (a.visit f i true) σ

/-- The row of token `i`. -/
def visitToken (i : Nat) (σ : KqMaskState) : KqMaskState :=
  if f.alibi then a.visitAll f i σ
  else
    match σ.seqSrct (a.seqId i) with
    | some srct => a.visitRecorded f i (σ.copy a.nKv (a.nKv * srct) (a.nKv * i))
    | none => a.visitAll f i (σ.start (a.seqId i) i)

/-- The rows of stream `s`. -/
def visitStream (data : Nat → KqMaskValue) (s : Nat) : Nat → KqMaskValue :=
  ((List.range a.nTps).foldl (fun σ ii => a.visitToken f (s * a.nTps + ii) σ)
    ⟨data, fun _ => none, fun _ => []⟩).data

def setInputKqMaskImpl (data : Nat → KqMaskValue) : Nat → KqMaskValue :=
  (List.range a.nStream).foldl (a.visitStream f) data

end KqMaskArgs

end LlamaCpp
