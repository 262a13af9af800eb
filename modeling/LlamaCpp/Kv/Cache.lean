import LlamaCpp.Batch.Split
import LlamaCpp.Kv.Cells

/-!
# The KV cache

`llama_kv_cache`, as far as its cells go: the streams of cell tables, the search
heads, and the operations of `llama_memory_i` on them.  The tensors are left to
`LlamaCpp.Kv.State`.

A call that ends the process in `GGML_ASSERT` or `GGML_ABORT` returns `none`.  A
list index or a stream out of range is undefined in the source and reads a default
here.  Sizes, heads and cell indices are `Nat`: the searches keep them at most the
cache size.

Most operations make one pass over the cells of a stream and remember the first
cell they emptied.  `KvCells.sweep` is that pass, with the loop body as a parameter.
-/

namespace LlamaCpp

/-! ## Configuration -/

inductive LlamaSwaType where
  | none
  | standard
  | chunked
  | symmetric

/-- The cast `(int32_t) n` of an unsigned value. -/
def toInt32 (n : Nat) : Int := Int.bmod n (2 ^ 32)

/-- `llama_hparams::is_masked_swa`, for positions that are not negative. -/
def isMaskedSwa (nSwa : Nat) (swaType : LlamaSwaType) (p0 p1 : Int) : Bool :=
  match swaType with
  | .none => false
  | .standard => decide (toInt32 nSwa ≤ p1 - p0)
  | .chunked => decide (p0 < ((p1.toNat / nSwa * nSwa : Nat) : Int))
  | .symmetric =>
    let halfNSwa := (toInt32 nSwa).tdiv 2
    let posDiff := p1 - p0
    decide (posDiff < -halfNSwa ∨ halfNSwa < posDiff)

/-- `std::numeric_limits<llama_pos>::max()`. -/
def llamaPosMax : Int := 2147483647

/-- The start of a position range; a negative one is the beginning. -/
def rangeLo (p0 : Int) : Int := if p0 < 0 then 0 else p0

/-- The end of a position range; a negative one is past every position. -/
def rangeHi (p1 : Int) : Int := if p1 < 0 then llamaPosMax else p1

/-- What the operations read of the constructor arguments and of `hparams`. -/
structure KvConfig where
  nSeqMax : Nat
  nStream : Nat
  kvSize : Nat
  nSwa : Nat
  swaType : LlamaSwaType
  /-- Set when the cache has index keys and one stream per sequence. -/
  msaStrictSlots : Bool
  nPosPerEmbd : Nat
  pleNHeads : Nat
  pleImageTokenId : Nat
  pleEosTokenId : Nat
  canShift : Bool
  /-- `other != nullptr`: the cells belong to another cache. -/
  shared : Bool

namespace KvConfig

variable (c : KvConfig)

def seqToStreamSize : Nat := if 1 < c.nStream then c.nStream else llamaMaxSeq

def seqToStream (s : SeqId) : Nat := if 1 < c.nStream then s.val else 0

def isMasked (p0 p1 : Int) : Bool := isMaskedSwa c.nSwa c.swaType p0 p1

/-- `has_cell_ext`: M-RoPE needs the 2D position, the PLE n-gram hash the token. -/
def hasCellExt : Bool := decide (1 < c.nPosPerEmbd ∨ 0 < c.pleNHeads)

end KvConfig

/-! ## One pass over a stream -/

namespace KvCells

/-- Visit the cells in index order.  `act` rewrites a cell and says whether that
emptied it; the second component is the first emptied cell, `size` if there is
none. -/
def sweep (act : KvCells → Nat → KvCells × Bool) (cells : KvCells) : KvCells × Nat :=
  (List.range cells.size).foldl
    (fun σ i =>
      let r := act σ.1 i
      (r.1, if r.2 ∧ σ.2 = cells.size then i else σ.2))
    (cells, cells.size)

/-- Restrict a loop body to the cells of `s` with a position in `[p0, p1)`. -/
def onSeq (s : SeqId) (p0 p1 : Int) (act : KvCells → Nat → KvCells × Bool) :
    KvCells → Nat → KvCells × Bool :=
  fun cells i => if cells.posIn i p0 p1 ∧ cells.seqHas i s then act cells i else (cells, false)

end KvCells

/-! ## The cache -/

structure KvCache where
  vCells : Nat → KvCells
  /-- Where the next search of a stream starts. -/
  vHeads : Nat → Nat
  /-- The stream copies that the next update performs, as source and destination. -/
  scInfo : List (Nat × Nat)

namespace KvCache

/-- `v_cells[t] = cells`. -/
@[simps] def setCells (kv : KvCache) (t : Nat) (cells : KvCells) : KvCache :=
  { kv with vCells := Function.update kv.vCells t cells }

@[simps] def setHead (kv : KvCache) (t head : Nat) : KvCache :=
  { kv with vHeads := Function.update kv.vHeads t head }

/-- The head after a pass: the first emptied cell, if the head is behind it. -/
def lowerHead (kv : KvCache) (t newHead : Nat) : KvCache :=
  if newHead ≠ (kv.vCells t).size ∧ newHead < kv.vHeads t then kv.setHead t newHead else kv

/-- A pass over stream `t` that lowers the head. -/
def pass (kv : KvCache) (t : Nat) (act : KvCells → Nat → KvCells × Bool) : KvCache :=
  let r := (kv.vCells t).sweep act
  (kv.setCells t r.1).lowerHead t r.2

variable (c : KvConfig)

def init : KvCache where
  vCells := fun _ => KvCells.empty.resize c.kvSize
  vHeads := fun _ => 0
  scInfo := []

def clear (kv : KvCache) : KvCache :=
  (List.range c.nStream).foldl (fun kv t => (kv.setCells t (kv.vCells t).reset).setHead t 0) kv

def getSize (kv : KvCache) : Nat := (kv.vCells (c.seqToStream 0)).size

def seqPosMin (kv : KvCache) (s : SeqId) : Int := (kv.vCells (c.seqToStream s)).seqPosMin s

def seqPosMax (kv : KvCache) (s : SeqId) : Int := (kv.vCells (c.seqToStream s)).seqPosMax s

/-! ## `get_prev_tokens` -/

/-- `hist`: the tokens of the cells that could precede a token of the ubatch, in the
order they are visited. -/
def history (kv : KvCache) (ubatch : LlamaUbatch) (n : Nat) : List (SeqId × Int × Int) :=
  let ps := (List.range ubatch.nTokens).map ubatch.pos
  let pMin := ps.foldl min llamaPosMax
  let pMax := ps.foldl max (-llamaPosMax - 1)
  let seqs := (ubatch.seqIdUnq.take ubatch.nSeqsUnq).toFinset
  (List.range c.nStream).flatMap fun t => (kv.vCells t).forEachTokenIn seqs (pMin - toInt32 n) pMax

/-- `hist.find`: a later entry replaces an earlier one. -/
def prevToken (hist : List (SeqId × Int × Int)) (s : SeqId) (p : Int) : Option Int :=
  (hist.reverse.find? fun x => decide (x.1 = s ∧ x.2.1 = p)).map fun x => x.2.2

/-- `get_prev_tokens`: for every token the `n` tokens before it. -/
def getPrevTokens (kv : KvCache) (ubatch : LlamaUbatch) (n : Nat) : List Int :=
  let hist := kv.history c ubatch n
  (List.range ubatch.nTokens).flatMap fun i => (List.range n).map fun j =>
    let p := ubatch.pos i - toInt32 (n - j)
    if p < 0 then llamaTokenNull
    else (prevToken hist ((ubatch.seqId i).headD 0) p).getD llamaTokenNull

/-! ## `seq_rm` -/

/-- A removal of `[p0, p1)` takes cells of `s` and leaves later ones. -/
def leavesTail (kv : KvCache) (s : SeqId) (p0 p1 : Int) : Bool :=
  let pmin := kv.seqPosMin c s
  let pmax := kv.seqPosMax c s
  decide (0 ≤ pmin ∧ (p0 ≤ pmax ∧ pmin < p1) ∧ p1 ≤ pmax)

/-- The MSA check: some sequence the removal is about would keep a tail. -/
def msaRejects (kv : KvCache) (seqId : Option SeqId) (p0 p1 : Int) : Bool :=
  c.msaStrictSlots && (List.finRange llamaMaxSeq).any fun sid =>
    decide (sid.val < c.seqToStreamSize ∧ (seqId = none ∨ seqId = some sid)) &&
      kv.leavesTail c sid p0 p1

/-- The loop of `seq_rm` for every sequence: clear the cells with a position in
`[p0, p1)`. -/
def rmRange (p0 p1 : Int) (cells : KvCells) (i : Nat) : KvCells × Bool :=
  if cells.posIn i p0 p1 then (cells.rm i, true) else (cells, false)

/-- The removal proper, once the range is known and not rejected. -/
def rmCells (kv : KvCache) (seqId : Option SeqId) (p0 p1 : Int) : KvCache :=
  match seqId with
  | some s => kv.pass (c.seqToStream s) (KvCells.onSeq s p0 p1 fun cells i => cells.seqRm i s)
  | none => (List.range c.nStream).foldl (fun kv t => kv.pass t (rmRange p0 p1)) kv

/-- `seq_rm`; `seqId = none` is `-1`. -/
def seqRm (kv : KvCache) (seqId : Option SeqId) (p0 p1 : Int) : Option (KvCache × Bool) :=
  if c.shared then some (kv, true)
  else if ∃ s ∈ seqId, c.seqToStreamSize ≤ s.val then none
  else
    if rangeHi p1 ≤ rangeLo p0 then some (kv, true)
    else if kv.msaRejects c seqId (rangeLo p0) (rangeHi p1) then some (kv, false)
    else some (kv.rmCells c seqId (rangeLo p0) (rangeHi p1), true)

/-! ## `seq_cp`, `seq_keep`, `seq_add`, `seq_div` -/

/-- The loop of a copy between streams: cell `i` of `dst` becomes a copy of cell `i`
of `src` if that holds `s`. -/
def copyCell (src : KvCells) (s d : SeqId) (dst : KvCells) (i : Nat) : KvCells :=
  if src.seqHas i s then
    let shift := src.shift i
    let dst₁ := (dst.posSet i (src.pos i - shift)).seqAdd i d
    let dst₂ := if shift ≠ 0 then (dst₁.posAdd i shift).1 else dst₁
    dst₂.extSet i (src.ext i)
  else dst

/-- A copy between streams replaces the destination. -/
def copyStream (kv : KvCache) (s d : SeqId) : KvCache :=
  let s0 := c.seqToStream s
  let s1 := c.seqToStream d
  let cells := (List.range (kv.vCells s0).size).foldl
    (copyCell (kv.vCells s0) s d) (kv.vCells s1).reset
  { (kv.setCells s1 cells).setHead s1 (kv.vHeads s0) with scInfo := kv.scInfo ++ [(s0, s1)] }

def seqCp (kv : KvCache) (s d : SeqId) (p0 p1 : Int) : Option KvCache :=
  if c.shared then some kv
  else if c.seqToStreamSize ≤ s.val ∨ c.seqToStreamSize ≤ d.val then none
  else if c.seqToStream s = c.seqToStream d then
    if s = d then some kv
    else
      let act := KvCells.onSeq s (rangeLo p0) (rangeHi p1) fun cells i => (cells.seqAdd i d, false)
      some (kv.setCells (c.seqToStream s) ((kv.vCells (c.seqToStream s)).sweep act).1)
  else if (0 < p0 ∧ p0 + 1 < kv.getSize c) ∨ (0 < p1 ∧ p1 + 1 < kv.getSize c) then none
  else some (kv.copyStream c s d)

def seqKeep (kv : KvCache) (s : SeqId) : Option KvCache :=
  if c.shared then some kv
  else if c.seqToStreamSize ≤ s.val then none
  else some (kv.pass (c.seqToStream s) fun cells i => cells.seqKeep i s)

def seqAdd (kv : KvCache) (s : SeqId) (p0 p1 shift : Int) : Option KvCache :=
  if c.shared then some kv
  else if c.seqToStreamSize ≤ s.val ∨ c.nPosPerEmbd ≠ 1 then none
  else if shift = 0 ∨ rangeLo p0 = rangeHi p1 then some kv
  else
    let t := c.seqToStream s
    let r := (kv.vCells t).sweep
      (KvCells.onSeq s (rangeLo p0) (rangeHi p1) fun cells i => cells.posAdd i shift)
    some ((kv.setCells t r.1).setHead t (if r.2 ≠ r.1.size then r.2 else 0))

def seqDiv (kv : KvCache) (s : SeqId) (p0 p1 d : Int) : Option KvCache :=
  if c.shared then some kv
  else if c.seqToStreamSize ≤ s.val ∨ c.nPosPerEmbd ≠ 1 then none
  else if d = 1 ∨ rangeLo p0 = rangeHi p1 then some kv
  else
    let t := c.seqToStream s
    let act := KvCells.onSeq s (rangeLo p0) (rangeHi p1) fun cells i => (cells.posDiv i d, false)
    some (kv.setCells t ((kv.vCells t).sweep act).1)

/-! ## `update` -/

def getHasShift (kv : KvCache) : Bool := (List.range c.nStream).any fun t => (kv.vCells t).hasShift

/-- `init_update` and `update` on the cells: the pending stream copies are handed to
the update, and the shifts are forgotten once the K-shift graph has run.
`computed` says that it did. -/
def update (kv : KvCache) (computed : Bool) : Option KvCache :=
  let kv' := { kv with scInfo := [] }
  if c.shared ∨ ¬kv.getHasShift c then some kv'
  else if ¬c.canShift then none
  else if ¬computed then some kv'
  else some ((List.range c.nStream).foldl
    (fun kv t => kv.setCells t (kv.vCells t).resetShift) kv')

/-! ## `find_slot` -/

/-- `slot_info`: for every stream of a ubatch, the cells of its tokens. -/
structure SlotInfo where
  s0 : Nat
  s1 : Nat
  strm : List Nat
  idxs : List (List Nat)
deriving DecidableEq

namespace SlotInfo

/-- The value `{}`: no slot. -/
def none : SlotInfo := ⟨0, 0, [], []⟩

def isEmpty (sinfo : SlotInfo) : Bool := sinfo.idxs.isEmpty

/-- `size`: the tokens per stream. -/
def size (sinfo : SlotInfo) : Nat := (sinfo.idxs.headD []).length

def slots (sinfo : SlotInfo) : List (Nat × List Nat) := sinfo.strm.zip sinfo.idxs

def push (sinfo : SlotInfo) (t : Nat) (idxs : List Nat) : SlotInfo :=
  ⟨min sinfo.s0 t, max sinfo.s1 t, sinfo.strm ++ [t], sinfo.idxs ++ [idxs]⟩

end SlotInfo

/-- `can_use`: the cell is empty, or its only sequence does not attend to it any
more. -/
def canUse (cells : KvCells) (idx : Nat) : Bool :=
  cells.isEmpty idx ||
    (cells.seqCount idx == 1 &&
      match cells.seqGet idx with
      | some s => c.isMasked (cells.pos idx) (cells.seqPosMax s + 1)
      | none => false)

/-- The variables of the search: `head_cur`, `n_tested` and `res.idxs[s]`. -/
structure Search where
  headCur : Nat
  nTested : Nat
  idxs : List Nat

/-- Test `n` cells from the head on; a contiguous search stops at the first that
cannot be used. -/
def testCells (cells : KvCells) (cont : Bool) : Nat → Search → Search
  | 0, σ => σ
  | n + 1, σ =>
    let idx := σ.headCur
    let σ' := { σ with headCur := σ.headCur + 1, nTested := σ.nTested + 1 }
    if canUse c cells idx then testCells cells cont n { σ' with idxs := σ'.idxs ++ [idx] }
    else if cont then σ'
    else testCells cells cont n σ'

/-- The `while` loop; `none` is `return { }`.  An iteration that does not wrap around
tests a cell, so `2 * size + 2` iterations are enough. -/
def searchLoop (cells : KvCells) (cont : Bool) (nTokens : Nat) : Nat → Search → Option (List Nat)
  | 0, _ => none
  | fuel + 1, σ =>
    let nTest := if cont then nTokens else 1
    if cells.size < σ.headCur + nTest then
      searchLoop cells cont nTokens fuel
        { σ with headCur := 0, nTested := σ.nTested + (cells.size - σ.headCur) }
    else
      let σ' := testCells c cells cont nTest σ
      if σ'.idxs.length = nTokens then some σ'.idxs
      else if cells.size ≤ σ'.nTested then none
      else searchLoop cells cont nTokens fuel (if cont then { σ' with idxs := [] } else σ')

/-- The MSA placement: every token goes to the cell of its position. -/
def msaPlace (cells : KvCells) (cont : Bool) : List Int → List Nat → Option (List Nat)
  | [], idxs => some idxs
  | p :: ps, idxs =>
    if p < 0 ∨ (cells.size : Int) ≤ p then none
    else
      let idx := p.toNat
      if ¬cells.isEmpty idx then none
      else if ∃ last ∈ idxs.getLast?, if cont then idx ≠ last + 1 else idx ≤ last then none
      else msaPlace cells cont ps (idxs ++ [idx])

/-- The cells that stream `t` offers to tokens at the positions `ps`. -/
def streamSlot (kv : KvCache) (t : Nat) (cont : Bool) (ps : List Int) : Option (List Nat) :=
  let cells := kv.vCells t
  let nTokens := ps.length
  if cells.size < nTokens then none
  else if c.msaStrictSlots then msaPlace cells cont ps []
  else
    -- enough unused cells before the head: start from the beginning
    let headCur := if cells.getUsed + 2 * nTokens < kv.vHeads t then 0 else kv.vHeads t
    searchLoop c cells cont nTokens (2 * cells.size + 2) ⟨headCur, 0, []⟩

/-- `n_seqs` of `find_slot`: the streams a ubatch is spread over. -/
def nSeqs (ubatch : LlamaUbatch) : Nat := if 1 < c.nStream then ubatch.nSeqsUnq else 1

/-- `n_tokens` of `find_slot`: the tokens per stream. -/
def tokensPerStream (ubatch : LlamaUbatch) : Nat := ubatch.nTokens / nSeqs c ubatch

def groupPos (ubatch : LlamaUbatch) (g : Nat) : List Int :=
  (List.range (tokensPerStream c ubatch)).map fun ii =>
    ubatch.pos (g * tokensPerStream c ubatch + ii)

/-- The loop of `find_slot` over the groups `gs`. -/
def findStreams (kv : KvCache) (ubatch : LlamaUbatch) (cont : Bool) :
    List Nat → SlotInfo → Option SlotInfo
  | [], res => some res
  | g :: gs, res =>
    let seqId := ubatch.seqIdUnq.getD g 0
    if 1 < c.nStream ∧ ubatch.seqId (g * tokensPerStream c ubatch) ≠ [seqId] then none
    else
      match kv.streamSlot c (c.seqToStream seqId) cont (groupPos c ubatch g) with
      | none => some .none
      | some idxs => findStreams kv ubatch cont gs (res.push (c.seqToStream seqId) idxs)

def findSlot (kv : KvCache) (ubatch : LlamaUbatch) (cont : Bool) : Option SlotInfo :=
  if 1 < c.nStream ∧ ubatch.nTokens % ubatch.nSeqsUnq ≠ 0 then none
  else kv.findStreams c ubatch cont (List.range (nSeqs c ubatch)) ⟨llamaMaxSeq, 0, [], []⟩

/-! ## `apply_ubatch` -/

/-- A token and its cell: `i` is the index in the ubatch. -/
structure Target where
  strm : Nat
  i : Nat
  idx : Nat

/-- The tokens of a ubatch in the order they are placed. -/
def SlotInfo.targets (sinfo : SlotInfo) : List Target :=
  sinfo.slots.zipIdx.flatMap fun slot => (List.range sinfo.size).map fun ii =>
    ⟨slot.1.1, slot.2 * sinfo.size + ii, slot.1.2.getD ii 0⟩

/-- The extra record that is stored with token `i`; `none` if nothing is stored. -/
def ubatchExt (ubatch : LlamaUbatch) (i : Nat) : Option KvCellExt :=
  if ubatch.isPos2d ∨ ubatch.token.isSome ∨ 0 < c.pleNHeads then
    some
      { x := if ubatch.isPos2d then ubatch.pos (i + ubatch.nTokens * 2) else 0
        y := if ubatch.isPos2d then ubatch.pos (i + ubatch.nTokens) else 0
        tok :=
          match ubatch.token with
          | some token => token i
          | none =>
            -- embeddings have consumed the image placeholder already
            if 0 < c.pleNHeads then
              if c.pleImageTokenId ≠ 0 then toInt32 c.pleImageTokenId
              else toInt32 c.pleEosTokenId
            else llamaTokenNull }
  else none

/-- The cache and `seq_pos_max_rm` while the tokens are placed. -/
structure Placing where
  kv : KvCache
  maxRm : SeqId → Int

/-- Empty the cell of a token, and note the position that is lost. -/
def evict (σ : Placing) (t idx : Nat) : Placing :=
  let cells := σ.kv.vCells t
  if cells.isEmpty idx then σ
  else
    { kv := σ.kv.setCells t (cells.rm idx)
      maxRm :=
        match cells.seqGet idx with
        | some s => Function.update σ.maxRm s (max (σ.maxRm s) (cells.pos idx))
        | none => σ.maxRm }

/-- Write token `i` into an empty cell. -/
def writeToken (ubatch : LlamaUbatch) (i : Nat) (cells : KvCells) (idx : Nat) : KvCells :=
  let cells₁ := cells.posSet idx (ubatch.pos i)
  let cells₂ :=
    match ubatchExt c ubatch i with
    | some e => cells₁.extSet idx e
    | none => cells₁
  (ubatch.seqId i).foldl (fun cells s => cells.seqAdd idx s) cells₂

/-- The loop body that places one token. -/
def placeToken (ubatch : LlamaUbatch) (σ : Placing) (τ : Target) : Placing :=
  let σ' := evict σ τ.strm τ.idx
  { σ' with
    kv := σ'.kv.setCells τ.strm (writeToken c ubatch τ.i (σ'.kv.vCells τ.strm) τ.idx) }

/-- Purge the positions of `s` below the largest one that was overwritten. -/
def purgeSeq (maxRm : SeqId → Int) (kv : KvCache) (s : SeqId) : Option KvCache :=
  if maxRm s = -1 then some kv
  else if c.seqToStreamSize ≤ s.val then none
  else if kv.seqPosMin c s ≤ maxRm s then
    match kv.seqRm c (some s) (kv.seqPosMin c s) (maxRm s + 1) with
    | some (kv', true) => some kv'
    | _ => none
  else some kv

/-- The heads move behind the last cells of the slots. -/
def advanceHeads (sinfo : SlotInfo) (kv : KvCache) : KvCache :=
  sinfo.slots.foldl (fun kv slot => kv.setHead slot.1 (slot.2.getLastD 0 + 1)) kv

def applyUbatch (kv : KvCache) (sinfo : SlotInfo) (ubatch : LlamaUbatch) : Option KvCache :=
  if c.shared then some kv
  else if c.msaStrictSlots ∧ ∃ τ ∈ sinfo.targets, (τ.idx : Int) ≠ ubatch.pos τ.i then none
  else
    let σ := sinfo.targets.foldl (placeToken c ubatch) ⟨kv, fun _ => -1⟩
    ((List.finRange llamaMaxSeq).foldlM (purgeSeq c σ.maxRm) σ.kv).map (advanceHeads sinfo)

/-! ## `prepare` and `init_batch` -/

/-- `state_t`: what `prepare` remembers of one placement. -/
structure PrepState where
  sinfo : SlotInfo
  vHeadsOld : Nat → Nat
  vCells : List KvCells

def saveSlots (kv : KvCache) (sinfo : SlotInfo) : List KvCells :=
  sinfo.slots.map fun slot => (kv.vCells slot.1).cpIdxs slot.2

/-- The placement loop: the recovery stack, the cache behind the last placement, and
whether all ubatches were placed. -/
def placeAll (kv : KvCache) : List LlamaUbatch → Option (List PrepState × KvCache × Bool)
  | [] => some ([], kv, true)
  | u :: us =>
    (kv.findSlot c u false).bind fun sinfo =>
      if sinfo.isEmpty then some ([], kv, false)
      else
        (kv.applyUbatch c sinfo u).bind fun kv' =>
          (kv'.placeAll us).map fun (states, kv'', success) =>
            (⟨sinfo, kv.vHeads, kv.saveSlots sinfo⟩ :: states, kv'', success)

/-- Undo one placement.  The old head is looked up under the index of the stream in
the slot, not under the stream. -/
def rollback (state : PrepState) (kv : KvCache) : KvCache :=
  (state.sinfo.slots.zip state.vCells).zipIdx.foldl
    (fun kv x =>
      let t := x.1.1.1
      (kv.setCells t ((kv.vCells t).setIdxs x.1.1.2 x.1.2)).setHead t (state.vHeadsOld x.2))
    kv

/-- `prepare`; the slots are empty if some ubatch found none. -/
def prepare (kv : KvCache) (ubatches : List LlamaUbatch) : Option (List SlotInfo × KvCache) :=
  (kv.placeAll c ubatches).bind fun (states, kv', success) =>
    if states.isEmpty ∧ success then none
    else some (if success then states.map (·.sinfo) else [], states.foldr rollback kv')

end KvCache

end LlamaCpp
