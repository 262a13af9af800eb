import LlamaCpp.Kv.StateRoundTrip

/-!
# The cache of a model with sliding windows

`llama_kv_cache_iswa` keeps two caches: `base` for the layers with full attention, and
`swa` for the layers with a window, whose cells may be overwritten once they are masked.
Every call goes to `base` first and then to `swa`.
-/

namespace LlamaCpp

/-- What the constructor sets up. -/
structure IswaConfig where
  base : KvConfig
  swa : KvConfig
  baseLayout : KvLayout
  swaLayout : KvLayout
  base_swaType : base.swaType = .none
  /-- Both caches have the same number of sequences and streams. -/
  nSeqMax_eq : swa.nSeqMax = base.nSeqMax
  nStream_eq : swa.nStream = base.nStream
  nStream_cases : base.nStream = 1 ∨ base.nStream = base.nSeqMax
  /-- Neither borrows the cells of another cache. -/
  base_shared : base.shared = false
  swa_shared : swa.shared = false
  base_fits : base.Fits
  swa_fits : swa.Fits

structure IswaState where
  base : KvState
  swa : KvState

namespace KvState

/-- A call that does not touch the tensors. -/
def mapCells (σ : KvState) (f : KvCache → Option KvCache) : Option KvState :=
  (f σ.cache).map fun kv => { σ with cache := kv }

def clear (c : KvConfig) (data : Bool) (σ : KvState) : KvState where
  cache := σ.cache.clear c
  data := if data then fun _ _ => 0 else σ.data

/-- The stream copies of an update: the tensors of every layer, one copy after the
other. -/
def copyStreams (copies : List (Nat × Nat)) (data : KvData) : KvData :=
  copies.foldl
    (fun data x tensor =>
      if tensor.strm = x.2 then data { tensor with strm := x.1 } else data tensor)
    data

/-- `init_update` and `update`, with the tensors.  `shift` is what the K-shift graph makes
of them. -/
def update (c : KvConfig) (shift : KvCache → KvData → KvData) (computed : Bool) (σ : KvState) :
    Option KvState :=
  (σ.cache.update c computed).map fun kv =>
    let data := if c.shared then σ.data else copyStreams σ.cache.scInfo σ.data
    ⟨kv, if ¬c.shared ∧ σ.cache.getHasShift c ∧ computed then shift σ.cache data else data⟩

end KvState

namespace Iswa

open Readers (Reader)

variable (c : IswaConfig)

/-- The caches that the constructor leaves. -/
def init : IswaState where
  base := ⟨KvCache.init c.base, fun _ _ => 0⟩
  swa := ⟨KvCache.init c.swa, fun _ _ => 0⟩

def clear (data : Bool) (σ : IswaState) : IswaState where
  base := σ.base.clear c.base data
  swa := σ.swa.clear c.swa data

def onBoth (f : KvConfig → KvCache → Option KvCache) (σ : IswaState) : Option IswaState :=
  (σ.base.mapCells (f c.base)).bind fun base => (σ.swa.mapCells (f c.swa)).map fun swa => ⟨base, swa⟩

def seqRm (seqId : Option SeqId) (p0 p1 : Int) (σ : IswaState) : Option (IswaState × Bool) :=
  (σ.base.cache.seqRm c.base seqId p0 p1).bind fun (base, res) =>
    (σ.swa.cache.seqRm c.swa seqId p0 p1).map fun (swa, res') =>
      (⟨{ σ.base with cache := base }, { σ.swa with cache := swa }⟩, res && res')

def seqCp (s d : SeqId) (p0 p1 : Int) : IswaState → Option IswaState :=
  onBoth c fun c kv => kv.seqCp c s d p0 p1

def seqKeep (s : SeqId) : IswaState → Option IswaState := onBoth c fun c kv => kv.seqKeep c s

def seqAdd (s : SeqId) (p0 p1 shift : Int) : IswaState → Option IswaState :=
  onBoth c fun c kv => kv.seqAdd c s p0 p1 shift

def seqDiv (s : SeqId) (p0 p1 d : Int) : IswaState → Option IswaState :=
  onBoth c fun c kv => kv.seqDiv c s p0 p1 d

/-- `seq_pos_max`: that of the window. -/
def seqPosMax (s : SeqId) (σ : IswaState) : Int := σ.swa.cache.seqPosMax c.swa s

/-- `init_update` and the update of both caches. -/
def update (shift : KvCache → KvData → KvData) (computed : Bool) (σ : IswaState) : Option IswaState :=
  (σ.base.update c.base shift computed).bind fun base =>
    (σ.swa.update c.swa shift computed).map fun swa => ⟨base, swa⟩

/-! ## Batches -/

/-- `prepare` on `base` and then on `swa`.  The batch is refused if one of the lists of
slots is empty; `swa` is not asked if `base` has none. -/
def prepare (ubatches : List LlamaUbatch) (σ : IswaState) :
    Option ((List KvCache.SlotInfo × List KvCache.SlotInfo) × IswaState) :=
  (σ.base.cache.prepare c.base ubatches).bind fun (sinfosBase, base) =>
    let σ₁ := { σ with base := { σ.base with cache := base } }
    if sinfosBase.isEmpty then some (([], []), σ₁)
    else
      (σ.swa.cache.prepare c.swa ubatches).map fun (sinfosSwa, swa) =>
        ((sinfosBase, sinfosSwa), { σ₁ with swa := { σ.swa with cache := swa } })

def applyUbatch (σ : IswaState) (x : (KvCache.SlotInfo × KvCache.SlotInfo) × LlamaUbatch) :
    Option IswaState :=
  (σ.base.mapCells fun kv => kv.applyUbatch c.base x.1.1 x.2).bind fun base =>
    (σ.swa.mapCells fun kv => kv.applyUbatch c.swa x.1.2 x.2).map fun swa => ⟨base, swa⟩

/-- Prepare the ubatches, and apply the first `n` of them if there is room in both
caches. -/
def decode (ubatches : List LlamaUbatch) (n : Nat) (σ : IswaState) : Option IswaState :=
  (prepare c ubatches σ).bind fun ((sinfosBase, sinfosSwa), σ') =>
    if sinfosBase.isEmpty ∨ sinfosSwa.isEmpty then some σ'
    else (((sinfosBase.zip sinfosSwa).zip ubatches).take n).foldlM (applyUbatch c) σ'

/-! ## Saving and restoring -/

/-- `state_write`; `partialOnly` is the flag `LLAMA_STATE_SEQ_FLAGS_PARTIAL_ONLY`. -/
def stateWrite (σ : IswaState) (seqId : Option SeqId) (partialOnly : Bool) : List UInt8 :=
  (if partialOnly then [] else KvCache.stateWrite c.base c.baseLayout σ.base seqId) ++
    KvCache.stateWrite c.swa c.swaLayout σ.swa seqId

/-- Restore `base`. -/
def readBase (seqId : Option SeqId) : Reader IswaState Unit :=
  Readers.zoom IswaState.base (fun σ base => { σ with base := base })
    (KvCache.stateRead c.base c.baseLayout seqId)

/-- Restore `swa`. -/
def readSwa (seqId : Option SeqId) : Reader IswaState Unit :=
  Readers.zoom IswaState.swa (fun σ swa => { σ with swa := swa })
    (KvCache.stateRead c.swa c.swaLayout seqId)

def stateRead (seqId : Option SeqId) (partialOnly : Bool) : Reader IswaState Unit :=
  if partialOnly then readSwa c seqId
  else do
    readBase c seqId
    readSwa c seqId

end Iswa

end LlamaCpp
