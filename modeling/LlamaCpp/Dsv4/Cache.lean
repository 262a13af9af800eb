import LlamaCpp.Dsv4.CompPlan
import LlamaCpp.Kv.Iswa

/-!
# The stores of the DSV4 cache

`llama_kv_cache_dsv4` has seven stores: the raw cache with its two halves, three caches
of compressed keys (CSA, HCA and the indexer) and the three compressor states behind
them.  Every store has one stream for every sequence, and the stream of sequence `s` is
number `s`.

The calls of `llama_memory_i` are here, with the tensors byte by byte.  A copy of a
sequence is only queued; `update` makes the queued copies.
-/

namespace LlamaCpp.Dsv4

open Readers (Reader Fault putLE takeLE modifySt)

/-! ## Configuration -/

/-- How a tensor describes its rows in a saved state. -/
structure RowShape where
  ty : UInt32
  ne0 : UInt64
  rowSize : UInt64

structure KeyLayer where
  il : UInt32
  k : RowShape

structure CompLayer where
  il : UInt32
  kv : RowShape
  score : RowShape

/-- The parameters of a `llama_dsv4_comp_state`. -/
structure CompStateConfig where
  ratio : UInt32
  stateSize : UInt32
  nEmbdState : UInt32
  layers : List CompLayer

/-- A cache of compressed keys: its cells, its tensors and its ratio. -/
structure KeyCacheConfig where
  cells : KvConfig
  layers : List KeyLayer
  ratio : Nat

/-- What the constructor sets up. -/
structure Dsv4Config where
  nSeqMax : Nat
  raw : IswaConfig
  csa : KeyCacheConfig
  hca : KeyCacheConfig
  lid : KeyCacheConfig
  csaState : CompStateConfig
  hcaState : CompStateConfig
  lidState : CompStateConfig
  /-- The streams are per sequence even if the cache is unified. -/
  streams : ∀ kv ∈ [raw.base, raw.swa, csa.cells, hca.cells, lid.cells], kv.nStream = nSeqMax
  owned : ∀ kv ∈ [csa.cells, hca.cells, lid.cells], kv.shared = false

/-! ## State -/

/-- The tensors of a layer of a compressor state. -/
inductive CompTensorKind where
  | kv
  | score
deriving DecidableEq

/-- One stream of a tensor: `layer.kv_stream[strm]` or `layer.score_stream[strm]`. -/
structure CompTensor where
  kind : CompTensorKind
  layer : Nat
  strm : Nat
deriving DecidableEq

/-- The contents of the tensors, byte by byte. -/
abbrev CompData := CompTensor → Nat → UInt8

/-- `llama_dsv4_comp_state`. -/
structure CompStore where
  data : CompData
  /-- The stream copies that the next update performs, as source and destination. -/
  scInfo : List (Nat × Nat)

structure Dsv4State where
  raw : IswaState
  csa : KvState
  hca : KvState
  lid : KvState
  csaState : CompStore
  hcaState : CompStore
  lidState : CompStore

/-! ## Compressor states -/

namespace CompStore

/-- `clear`; `seqId = none` is `-1`. -/
def clear (seqId : Option SeqId) (st : CompStore) : CompStore :=
  { st with
    data := fun tensor j =>
      match seqId with
      | none => 0
      | some s => if tensor.strm = s.val then 0 else st.data tensor j }

def seqCp (s d : SeqId) (st : CompStore) : CompStore :=
  if s = d then st else { st with scInfo := st.scInfo ++ [(s.val, d.val)] }

def applyCopies (copies : List (Nat × Nat)) (data : CompData) : CompData :=
  copies.foldl
    (fun data x tensor =>
      if tensor.strm = x.2 then data { tensor with strm := x.1 } else data tensor)
    data

/-- The queue is moved out by `init_update`, and `apply` makes the copies. -/
def update (st : CompStore) : CompStore := ⟨applyCopies st.scInfo st.data, []⟩

end CompStore

/-! ## Caches of compressed keys -/

/-- `dsv4_clear_tensor_stream` on the keys of every layer. -/
def clearKeyStream (t : Nat) (data : KvData) : KvData :=
  fun tensor j => if tensor.kind = .k ∧ tensor.strm = t then 0 else data tensor j

/-- `clear_seq` of `clear_compressed`. -/
def clearSeq (c : KvConfig) (s : SeqId) (σ : KvState) : Option KvState :=
  (σ.cache.seqRm c (some s) (-1) (-1)).map fun (kv, _) => ⟨kv, clearKeyStream s.val σ.data⟩

variable (c : Dsv4Config)

/-- The cache the constructor leaves: the buffers are cleared. -/
def init : Dsv4State where
  raw := Iswa.init c.raw
  csa := ⟨KvCache.init c.csa.cells, fun _ _ => 0⟩
  hca := ⟨KvCache.init c.hca.cells, fun _ _ => 0⟩
  lid := ⟨KvCache.init c.lid.cells, fun _ _ => 0⟩
  csaState := ⟨fun _ _ => 0, []⟩
  hcaState := ⟨fun _ _ => 0, []⟩
  lidState := ⟨fun _ _ => 0, []⟩

/-- `clear_compressed(seq_id, true)`. -/
def clearCompressed (seqId : Option SeqId) (σ : Dsv4State) : Option Dsv4State :=
  let states (σ : Dsv4State) : Dsv4State :=
    { σ with
      csaState := σ.csaState.clear seqId
      hcaState := σ.hcaState.clear seqId
      lidState := σ.lidState.clear seqId }
  match seqId with
  | none =>
    some (states
      { σ with
        csa := KvCache.clearAll c.csa.cells σ.csa
        hca := KvCache.clearAll c.hca.cells σ.hca
        lid := KvCache.clearAll c.lid.cells σ.lid })
  | some s =>
    if c.nSeqMax ≤ s.val then none
    else
      (clearSeq c.csa.cells s σ.csa).bind fun csa =>
        (clearSeq c.hca.cells s σ.hca).bind fun hca =>
          (clearSeq c.lid.cells s σ.lid).map fun lid =>
            states { σ with csa := csa, hca := hca, lid := lid }

def clear (data : Bool) (σ : Dsv4State) : Option Dsv4State :=
  clearCompressed c none { σ with raw := Iswa.clear c.raw data σ.raw }

/-! ## Sequences -/

def keysRm (kc : KvConfig) (s : SeqId) (p0 : Int) (σ : KvState) : Option (KvState × Bool) :=
  (σ.cache.seqRm kc (some s) p0 (-1)).map fun (kv, res) => ({ σ with cache := kv }, res)

/-- `seq_rm` of a tail behind the last position: only rows that are not visible yet. -/
def rmTail (s : SeqId) (p0 : Int) (σ : Dsv4State) : Option (Dsv4State × Bool) :=
  (Iswa.seqRm c.raw (some s) p0 (-1) σ.raw).bind fun (raw, r₀) =>
    (keysRm c.csa.cells s (p0 / csaRatio) σ.csa).bind fun (csa, r₁) =>
      (keysRm c.hca.cells s (p0 / hcaRatio) σ.hca).bind fun (hca, r₂) =>
        (keysRm c.lid.cells s (p0 / csaRatio) σ.lid).map fun (lid, r₃) =>
          ({ σ with raw := raw, csa := csa, hca := hca, lid := lid }, r₀ && r₁ && r₂ && r₃)

/-- `seq_rm`; `seqId = none` is `-1`. -/
def seqRm (seqId : Option SeqId) (p0 p1 : Int) (σ : Dsv4State) : Option (Dsv4State × Bool) :=
  if 0 ≤ p1 then some (σ, false)
  else if 0 < p0 then
    match seqId with
    | none => some (σ, false)
    | some s =>
      if c.nSeqMax ≤ s.val ∨ p0 ≤ Iswa.seqPosMax c.raw s σ.raw then some (σ, false)
      else rmTail c s p0 σ
  else
    (Iswa.seqRm c.raw seqId p0 p1 σ.raw).bind fun (raw, res) =>
      if res then (clearCompressed c seqId { σ with raw := raw }).map fun σ => (σ, true)
      else some ({ σ with raw := raw }, false)

/-- `seq_cp`: the caches copy their cells at once, the tensors follow in `update`. -/
def seqCp (s d : SeqId) (p0 p1 : Int) (σ : Dsv4State) : Option Dsv4State :=
  if 0 < p0 ∨ 0 ≤ p1 then none
  else
    (Iswa.seqCp c.raw s d p0 p1 σ.raw).bind fun raw =>
      (σ.csa.mapCells fun kv => kv.seqCp c.csa.cells s d (-1) (-1)).bind fun csa =>
        (σ.hca.mapCells fun kv => kv.seqCp c.hca.cells s d (-1) (-1)).bind fun hca =>
          (σ.lid.mapCells fun kv => kv.seqCp c.lid.cells s d (-1) (-1)).bind fun lid =>
            if c.nSeqMax ≤ s.val ∨ c.nSeqMax ≤ d.val then none
            else
              some
                { raw := raw, csa := csa, hca := hca, lid := lid
                  csaState := σ.csaState.seqCp s d
                  hcaState := σ.hcaState.seqCp s d
                  lidState := σ.lidState.seqCp s d }

/-- One iteration of the loop of `seq_keep`. -/
def dropOther (s : SeqId) (σ : Dsv4State) (id : SeqId) : Option Dsv4State :=
  if id = s then some σ
  else
    (Iswa.seqRm c.raw (some id) (-1) (-1) σ.raw).bind fun (raw, _) =>
      clearCompressed c (some id) { σ with raw := raw }

def seqKeep (s : SeqId) (σ : Dsv4State) : Option Dsv4State :=
  if c.nSeqMax ≤ s.val then none
  else
    (Iswa.seqKeep c.raw s σ.raw).bind fun raw =>
      ((List.finRange llamaMaxSeq).filter fun id => id.val < c.nSeqMax).foldlM (dropOther c s)
        { σ with raw := raw }

def seqAdd (s : SeqId) (p0 p1 shift : Int) (σ : Dsv4State) : Option Dsv4State :=
  (Iswa.seqAdd c.raw s p0 p1 shift σ.raw).map fun raw => { σ with raw := raw }

def seqDiv (s : SeqId) (p0 p1 d : Int) (σ : Dsv4State) : Option Dsv4State :=
  (Iswa.seqDiv c.raw s p0 p1 d σ.raw).map fun raw => { σ with raw := raw }

/-- `init_update` and `apply`: every store makes its queued copies. -/
def update (shift : KvCache → KvData → KvData) (computed : Bool) (σ : Dsv4State) : Option Dsv4State :=
  (Iswa.update c.raw shift computed σ.raw).bind fun raw =>
    (σ.csa.update c.csa.cells shift computed).bind fun csa =>
      (σ.hca.update c.hca.cells shift computed).bind fun hca =>
        (σ.lid.update c.lid.cells shift computed).map fun lid =>
          { raw := raw, csa := csa, hca := hca, lid := lid
            csaState := σ.csaState.update
            hcaState := σ.hcaState.update
            lidState := σ.lidState.update }

/-! ## Saving -/

/-- `DSV4_STATE_MAGIC`, `DSV4_STATE_VERSION`, `DSV4_STATE_MODE_FULL` and
`DSV4_STATE_MODE_PARTIAL`. -/
def stateMagic : Nat := 0x34565344
def stateVersion : Nat := 1
def stateModeFull : Nat := 0
def stateModePartial : Nat := 1

/-- `DSV4_K_CACHE_STATE_VER` and `DSV4_COMP_STATE_VER`. -/
def keyCacheStateVer : Nat := 2
def compStateVer : Nat := 1

/-- `dsv4_state_n_used_k_rows`. -/
def nUsedKRows (posMax : Int) (ratio kvSize : Nat) : Nat :=
  if posMax < 0 then 0 else min kvSize ((posMax.toNat + 1) / ratio)

/-- `dsv4_state_src_stream_range`, as the first stream and the number of streams. -/
def srcStreams (nStream : Nat) (seqId : Option SeqId) : Option (Nat × Nat) :=
  match seqId with
  | none => some (0, nStream)
  | some s =>
    if 1 < nStream then if nStream ≤ s.val then none else some (s.val, 1)
    else some (0, 1)

/-- `dsv4_state_dst_stream_range`. -/
def dstStream (nStream : Nat) (seqId : Option SeqId) (ns : Nat) : Option Nat :=
  match seqId with
  | none => if ns ≠ nStream then none else some 0
  | some s =>
    if ns ≠ 1 then none
    else if 1 < nStream ∧ nStream ≤ s.val then none
    else some (if 1 < nStream then s.val else 0)

/-- `dsv4_state_write_tensor_streams`; `row t` are the bytes of stream `t`. -/
def writeTensorStreams (shape : RowShape) (nRows s0 ns : Nat) (row : Nat → Nat → UInt8) : List UInt8 :=
  putLE 4 shape.ty.toNat ++ (putLE 8 shape.ne0.toNat ++ (putLE 8 nRows ++
    (putLE 8 shape.rowSize.toNat ++ (List.range ns).flatMap fun i =>
      (List.range (nRows * shape.rowSize.toNat)).map (row (s0 + i)))))

def writeKeyCache (kc : KeyCacheConfig) (σ : KvState) (seqId : Option SeqId) (nRows : Nat) :
    Option (List UInt8) :=
  (srcStreams kc.cells.nStream seqId).bind fun (s0, ns) =>
    if kc.cells.kvSize < nRows then none
    else
      some (putLE 4 keyCacheStateVer ++ (putLE 4 nRows ++ (putLE 4 ns ++
        (putLE 4 kc.layers.length ++ kc.layers.zipIdx.flatMap fun x =>
          putLE 4 x.1.il.toNat ++
            writeTensorStreams x.1.k nRows s0 ns fun t => σ.data ⟨.k, x.2, t⟩))))

def writeCompState (nStream : Nat) (sc : CompStateConfig) (st : CompStore) (seqId : Option SeqId) :
    Option (List UInt8) :=
  (srcStreams nStream seqId).map fun (s0, ns) =>
    putLE 4 compStateVer ++ (putLE 4 sc.ratio.toNat ++ (putLE 4 sc.stateSize.toNat ++
      (putLE 4 sc.nEmbdState.toNat ++ (putLE 4 ns ++ (putLE 4 sc.layers.length ++
        sc.layers.zipIdx.flatMap fun x =>
          putLE 4 x.1.il.toNat ++
            (writeTensorStreams x.1.kv sc.stateSize.toNat s0 ns (fun t => st.data ⟨.kv, x.2, t⟩) ++
              writeTensorStreams x.1.score sc.stateSize.toNat s0 ns
                fun t => st.data ⟨.score, x.2, t⟩))))))

/-- `n_rows_csa` and so on: the rows of a saved sequence that it can see. -/
def savedRows (kc : KeyCacheConfig) (σ : Dsv4State) (seqId : Option SeqId) : Nat :=
  match seqId with
  | none => kc.cells.kvSize
  | some s => nUsedKRows (Iswa.seqPosMax c.raw s σ.raw) kc.ratio kc.cells.kvSize

/-- `state_write`; `none` if it throws. -/
def stateWrite (σ : Dsv4State) (seqId : Option SeqId) (partialOnly : Bool) : Option (List UInt8) := do
  let keys (kc : KeyCacheConfig) (kv : KvState) : Option (List UInt8) :=
    if partialOnly then some [] else writeKeyCache kc kv seqId (savedRows c kc σ seqId)
  let csa ← keys c.csa σ.csa
  let hca ← keys c.hca σ.hca
  let lid ← keys c.lid σ.lid
  let csaState ← writeCompState c.nSeqMax c.csaState σ.csaState seqId
  let hcaState ← writeCompState c.nSeqMax c.hcaState σ.hcaState seqId
  let lidState ← writeCompState c.nSeqMax c.lidState σ.lidState seqId
  return putLE 4 stateMagic ++ (putLE 4 stateVersion ++
    (putLE 4 (if partialOnly then stateModePartial else stateModeFull) ++
      (Iswa.stateWrite c.raw σ.raw seqId partialOnly ++
        (csa ++ (hca ++ (lid ++ (csaState ++ (hcaState ++ lidState))))))))

/-! ## Restoring -/

section Read

variable {ρ : Type}

/-- `io.read_tensor` for the streams from `s0` on; `put t` overwrites the head of stream
`t`. -/
def readStreams (put : Nat → List UInt8 → ρ → ρ) (size s0 : Nat) : Nat → Reader ρ Unit
  | 0 => pure ()
  | ns + 1 => do
      let bytes ← Readers.take size
      modifySt (put s0 bytes)
      readStreams put size (s0 + 1) ns

def readTensorStreams (shape : RowShape) (tensorRows nRows s0 ns : Nat)
    (put : Nat → List UInt8 → ρ → ρ) : Reader ρ Unit := do
  let ty ← takeLE 4
  let ne0 ← takeLE 8
  let rows ← takeLE 8
  let rowSize ← takeLE 8
  if ty ≠ shape.ty.toNat ∨ ne0 ≠ shape.ne0.toNat ∨ rows ≠ nRows ∨ rowSize ≠ shape.rowSize.toNat then
    Readers.throwing
  else if tensorRows < nRows then Readers.throwing
  else readStreams put (nRows * shape.rowSize.toNat) s0 ns

end Read

def readLayer {ρ : Type} (il : UInt32) (x : Reader ρ Unit) : Reader ρ Unit := do
  let ilRef ← takeLE 4
  if ilRef ≠ il.toNat then Readers.throwing else x

/-- `dsv4_state_read_k_cache`. -/
def readKeyCache (kc : KeyCacheConfig) (seqId : Option SeqId) : Reader KvData Unit := do
  let version ← takeLE 4
  let nRows ← takeLE 4
  let ns ← takeLE 4
  let nLayer ← takeLE 4
  if version ≠ 1 ∧ version ≠ keyCacheStateVer then Readers.throwing
  else if version = 1 ∧ nRows ≠ kc.cells.kvSize then Readers.throwing
  else if kc.cells.kvSize < nRows then Readers.throwing
  else
    match dstStream kc.cells.nStream seqId ns with
    | none => Readers.throwing
    | some s0 =>
      if nLayer ≠ kc.layers.length then Readers.throwing
      else
        kc.layers.zipIdx.forM fun x =>
          readLayer x.1.il (readTensorStreams x.1.k kc.cells.kvSize nRows s0 ns
            fun t bytes data => data.store ⟨.k, x.2, t⟩ 0 bytes)

def CompData.store (data : CompData) (tensor : CompTensor) (bytes : List UInt8) : CompData :=
  fun t j => if t = tensor ∧ j < bytes.length then bytes.getD j 0 else data t j

def readCompState (nStream : Nat) (sc : CompStateConfig) (seqId : Option SeqId) :
    Reader CompData Unit := do
  let version ← takeLE 4
  let ratio ← takeLE 4
  let stateSize ← takeLE 4
  let nEmbdState ← takeLE 4
  let ns ← takeLE 4
  let nLayer ← takeLE 4
  if version ≠ compStateVer then Readers.throwing
  else if ratio ≠ sc.ratio.toNat ∨ stateSize ≠ sc.stateSize.toNat ∨
      nEmbdState ≠ sc.nEmbdState.toNat then
    Readers.throwing
  else if nLayer ≠ sc.layers.length then Readers.throwing
  else
    match dstStream nStream seqId ns with
    | none => Readers.throwing
    | some s0 =>
      sc.layers.zipIdx.forM fun x => readLayer x.1.il do
        readTensorStreams x.1.kv sc.stateSize.toNat sc.stateSize.toNat s0 ns
          fun t bytes data => CompData.store data ⟨.kv, x.2, t⟩ bytes
        readTensorStreams x.1.score sc.stateSize.toNat sc.stateSize.toNat s0 ns
          fun t bytes data => CompData.store data ⟨.score, x.2, t⟩ bytes

/-- The magic number, the version and the mode. -/
def readHeader {ρ : Type} (partialOnly : Bool) : Reader ρ Unit := do
  let magic ← takeLE 4
  let version ← takeLE 4
  if magic ≠ stateMagic then Readers.throwing
  else if version ≠ stateVersion then Readers.throwing
  else
    let mode ← takeLE 4
    if mode ≠ stateModeFull ∧ mode ≠ stateModePartial then Readers.throwing
    else if decide (mode = stateModePartial) ≠ partialOnly then Readers.throwing
    else return ()

/-- `kv_csa->clear(true)`, `kv_hca->clear(true)` and `kv_lid->clear(true)`. -/
def clearKeyCaches (σ : Dsv4State) : Dsv4State :=
  { σ with
    csa := KvCache.clearAll c.csa.cells σ.csa
    hca := KvCache.clearAll c.hca.cells σ.hca
    lid := KvCache.clearAll c.lid.cells σ.lid }

/-- The caches of compressed keys: all of them are cleared, and then read. -/
def readKeyCaches (seqId : Option SeqId) : Reader Dsv4State Unit := do
  modifySt (clearKeyCaches c)
  Readers.zoom (fun σ => σ.csa.data) (fun σ data => { σ with csa := { σ.csa with data := data } })
    (readKeyCache c.csa seqId)
  Readers.zoom (fun σ => σ.hca.data) (fun σ data => { σ with hca := { σ.hca with data := data } })
    (readKeyCache c.hca seqId)
  Readers.zoom (fun σ => σ.lid.data) (fun σ data => { σ with lid := { σ.lid with data := data } })
    (readKeyCache c.lid seqId)

def readCompStates (seqId : Option SeqId) : Reader Dsv4State Unit := do
  Readers.zoom (fun σ => σ.csaState.data)
    (fun σ data => { σ with csaState := { σ.csaState with data := data } })
    (readCompState c.nSeqMax c.csaState seqId)
  Readers.zoom (fun σ => σ.hcaState.data)
    (fun σ data => { σ with hcaState := { σ.hcaState with data := data } })
    (readCompState c.nSeqMax c.hcaState seqId)
  Readers.zoom (fun σ => σ.lidState.data)
    (fun σ data => { σ with lidState := { σ.lidState with data := data } })
    (readCompState c.nSeqMax c.lidState seqId)

/-- The raw cache. -/
def readRaw (seqId : Option SeqId) (partialOnly : Bool) : Reader Dsv4State Unit :=
  Readers.zoom Dsv4State.raw (fun σ raw => { σ with raw := raw })
    (Iswa.stateRead c.raw seqId partialOnly)

/-- `state_read`; `seqId = none` is `-1`. -/
def stateRead (seqId : Option SeqId) (partialOnly : Bool) : Reader Dsv4State Unit := do
  readHeader partialOnly
  readRaw c seqId partialOnly
  if partialOnly then readCompStates c seqId
  else
    readKeyCaches c seqId
    readCompStates c seqId

end LlamaCpp.Dsv4
