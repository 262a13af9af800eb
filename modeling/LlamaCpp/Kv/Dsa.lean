import LlamaCpp.Kv.Iswa
import LlamaCpp.Kv.PrepareReset
import LlamaCpp.Kv.Sections
import LlamaCpp.Lib.Runs

/-!
# The cache of a model with sparse attention

`llama_kv_cache_dsa` keeps two caches with the same cells: `mla` for the attention, and
`lid` for the keys of the indexer.  Every call goes to `mla` first and then to `lid`, and
the calls look at nothing but the cells, so the two stay in step as long as both calls are
made and begin in the same state.

Two calls can end between the caches.  A batch that does not fit is given up after the
`prepare` of `mla`, and a restore that throws is given up where it is.  `reaches_lockstep`
says that nothing else parts them: the first if `prepare` gives back what it takes
(`GivesBack`), the second if the state is refused before anything is changed or its two
sections are complete and hold the same records (`Op.Keeps`).
-/

namespace LlamaCpp

/-- What the constructor sets up.  The two caches get the same parameters, so they have the
same cells. -/
structure DsaConfig where
  cells : KvConfig
  mlaLayout : KvLayout
  lidLayout : KvLayout
  /-- Neither borrows the cells of another cache. -/
  cells_shared : cells.shared = false

structure DsaState where
  mla : KvState
  lid : KvState

namespace Dsa

open KvCache (SlotInfo CellRecord GivesBack takeSection restoreCells)
open Readers (Reader getLE)

/-! ## The calls -/

section Calls

variable (c : DsaConfig)

/-- The caches that the constructor leaves. -/
def init : DsaState where
  mla := ⟨KvCache.init c.cells, fun _ _ => 0⟩
  lid := ⟨KvCache.init c.cells, fun _ _ => 0⟩

def clear (data : Bool) (σ : DsaState) : DsaState where
  mla := σ.mla.clear c.cells data
  lid := σ.lid.clear c.cells data

def onBoth (f : KvCache → Option KvCache) (σ : DsaState) : Option DsaState :=
  (σ.mla.mapCells f).bind fun mla => (σ.lid.mapCells f).map fun lid => ⟨mla, lid⟩

def seqRm (seqId : Option SeqId) (p0 p1 : Int) (σ : DsaState) : Option (DsaState × Bool) :=
  (σ.mla.cache.seqRm c.cells seqId p0 p1).bind fun (mla, res) =>
    (σ.lid.cache.seqRm c.cells seqId p0 p1).map fun (lid, res') =>
      (⟨{ σ.mla with cache := mla }, { σ.lid with cache := lid }⟩, res && res')

def seqCp (s d : SeqId) (p0 p1 : Int) : DsaState → Option DsaState :=
  onBoth fun kv => kv.seqCp c.cells s d p0 p1

def seqKeep (s : SeqId) : DsaState → Option DsaState := onBoth fun kv => kv.seqKeep c.cells s

def seqAdd (s : SeqId) (p0 p1 shift : Int) : DsaState → Option DsaState :=
  onBoth fun kv => kv.seqAdd c.cells s p0 p1 shift

def seqDiv (s : SeqId) (p0 p1 d : Int) : DsaState → Option DsaState :=
  onBoth fun kv => kv.seqDiv c.cells s p0 p1 d

/-- `prepare` on `mla` and then on `lid`.  The batch is refused if one of the lists of slots
is empty; `lid` is not asked if `mla` has none. -/
def prepare (ubatches : List LlamaUbatch) (σ : DsaState) :
    Option ((List SlotInfo × List SlotInfo) × DsaState) :=
  (σ.mla.cache.prepare c.cells ubatches).bind fun (sinfosMla, mla) =>
    let σ₁ := { σ with mla := { σ.mla with cache := mla } }
    if sinfosMla.isEmpty then some (([], []), σ₁)
    else
      (σ.lid.cache.prepare c.cells ubatches).map fun (sinfosLid, lid) =>
        ((sinfosMla, sinfosLid), { σ₁ with lid := { σ.lid with cache := lid } })

def applyUbatch (σ : DsaState) (x : (SlotInfo × SlotInfo) × LlamaUbatch) : Option DsaState :=
  (σ.mla.mapCells fun kv => kv.applyUbatch c.cells x.1.1 x.2).bind fun mla =>
    (σ.lid.mapCells fun kv => kv.applyUbatch c.cells x.1.2 x.2).map fun lid => ⟨mla, lid⟩

/-- `init_batch`, and `apply` for the first `n` ubatches if there is room in both caches. -/
def decode (ubatches : List LlamaUbatch) (n : Nat) (σ : DsaState) : Option DsaState :=
  (prepare c ubatches σ).bind fun ((sinfosMla, sinfosLid), σ') =>
    if sinfosMla.isEmpty ∨ sinfosLid.isEmpty then some σ'
    else (((sinfosMla.zip sinfosLid).zip ubatches).take n).foldlM (applyUbatch c) σ'

def stateRead (dest : Option SeqId) : Reader DsaState Unit := do
  Readers.zoom DsaState.mla (fun σ mla => { σ with mla := mla })
    (KvCache.stateRead c.cells c.mlaLayout dest)
  Readers.zoom DsaState.lid (fun σ lid => { σ with lid := lid })
    (KvCache.stateRead c.cells c.lidLayout dest)

end Calls

inductive Op where
  | clear (data : Bool)
  | seqRm (seqId : Option SeqId) (p0 p1 : Int)
  | seqCp (s d : SeqId) (p0 p1 : Int)
  | seqKeep (s : SeqId)
  | seqAdd (s : SeqId) (p0 p1 shift : Int)
  | seqDiv (s : SeqId) (p0 p1 d : Int)
  | decode (ubatches : List LlamaUbatch) (n : Nat)
  | stateRead (dest : Option SeqId) (bytes : List UInt8)

/-- One call.  A restore may end in an exception. -/
def step (c : DsaConfig) (σ : DsaState) : Op → Option DsaState
  | .clear data => some (clear c data σ)
  | .seqRm seqId p0 p1 => (seqRm c seqId p0 p1 σ).map Prod.fst
  | .seqCp s d p0 p1 => seqCp c s d p0 p1 σ
  | .seqKeep s => seqKeep c s σ
  | .seqAdd s p0 p1 shift => seqAdd c s p0 p1 shift σ
  | .seqDiv s p0 p1 d => seqDiv c s p0 p1 d σ
  | .decode ubatches n => decode c ubatches n σ
  | .stateRead dest bytes => Readers.state? (stateRead c dest) ⟨bytes, σ⟩

variable {c : DsaConfig} {σ σ' : DsaState}

/-! ## Calls that keep the caches in step -/

/-- The two caches have the same cells and heads, and find the same slots. -/
structure Lockstep (c : DsaConfig) (σ : DsaState) : Prop where
  pos : ∀ t < c.cells.nStream, ∀ i < c.cells.kvSize,
    (σ.mla.cache.vCells t).pos i = (σ.lid.cache.vCells t).pos i
  seq : ∀ t < c.cells.nStream, ∀ i < c.cells.kvSize,
    (σ.mla.cache.vCells t).seq i = (σ.lid.cache.vCells t).seq i
  head : ∀ t < c.cells.nStream, σ.mla.cache.vHeads t = σ.lid.cache.vHeads t
  slots : ∀ ubatches, (σ.mla.cache.prepare c.cells ubatches).map Prod.fst =
    (σ.lid.cache.prepare c.cells ubatches).map Prod.fst

theorem lockstep_of_eq (h : σ.mla.cache = σ.lid.cache) : Lockstep c σ where
  pos := fun _ _ _ _ => by rw [h]
  seq := fun _ _ _ _ => by rw [h]
  head := fun _ _ => by rw [h]
  slots := fun _ => by rw [h]

variable (c) in
/-- The state is refused before anything is changed. -/
def Refused (bytes : List UInt8) : Prop := bytes.length < 4 ∨ getLE (bytes.take 4) ≠ c.cells.nStream

variable (c) in
/-- The sections of the two caches are complete and hold the same records, and there is room
for them. -/
def SameSections (dest : Option SeqId) (kv : KvCache) (bytes : List UInt8) : Prop :=
  ∃ rss rest rest', takeSection c.cells c.mlaLayout dest bytes = some (rss, rest) ∧
    takeSection c.cells c.lidLayout dest rest = some (rss, rest') ∧
      (restoreCells c.cells dest kv rss).isSome

/-- A batch that does not fit leaves no trace in `mla`, and a restore goes through in both
caches or in none. -/
def Op.Keeps (c : DsaConfig) (σ : DsaState) : Op → Prop
  | .decode ubatches _ => (∃ states kv', σ.mla.cache.placeAll c.cells ubatches = some (states, kv', false)) →
      GivesBack c.cells σ.mla.cache ubatches
  | .stateRead dest bytes => Refused c bytes ∨ SameSections c dest σ.mla.cache bytes
  | _ => True

theorem onBoth_eq (h : σ.mla.cache = σ.lid.cache) {f : KvCache → Option KvCache}
    (hrun : onBoth f σ = some σ') : σ'.mla.cache = σ'.lid.cache := by
  obtain ⟨mla, hmla, hrun⟩ := Option.bind_eq_some_iff.mp hrun
  obtain ⟨lid, hlid, rfl⟩ := Option.map_eq_some_iff.mp hrun
  obtain ⟨kv, hkv, rfl⟩ := Option.map_eq_some_iff.mp hmla
  obtain ⟨kv', hkv', rfl⟩ := Option.map_eq_some_iff.mp hlid
  rw [h, hkv'] at hkv
  exact (Option.some.inj hkv).symm

theorem seqRm_eq (h : σ.mla.cache = σ.lid.cache) {seqId : Option SeqId} {p0 p1 : Int} {ok : Bool}
    (hrun : seqRm c seqId p0 p1 σ = some (σ', ok)) : σ'.mla.cache = σ'.lid.cache := by
  obtain ⟨⟨mla, res⟩, hmla, hrun⟩ := Option.bind_eq_some_iff.mp hrun
  obtain ⟨⟨lid, res'⟩, hlid, heq⟩ := Option.map_eq_some_iff.mp hrun
  obtain ⟨rfl, -⟩ := Prod.mk.inj heq
  rw [h, hlid] at hmla
  exact congrArg Prod.fst (Option.some.inj hmla).symm

/-- The slots of both caches are the same. -/
theorem eq_of_mem_zip_self {α β : Type} {as : List α} {bs : List β} {x : (α × α) × β}
    (hx : x ∈ (as.zip as).zip bs) : x.1.1 = x.1.2 := by
  obtain ⟨i, hi, rfl⟩ := List.mem_iff_getElem.mp hx
  simp

theorem decode_eq (h : σ.mla.cache = σ.lid.cache) {us : List LlamaUbatch} {n : Nat}
    (hkeeps : (Op.decode us n).Keeps c σ) (hrun : decode c us n σ = some σ') :
    σ'.mla.cache = σ'.lid.cache := by
  obtain ⟨⟨⟨sinfosMla, sinfosLid⟩, σ₁⟩, hprep, hrun⟩ := Option.bind_eq_some_iff.mp hrun
  obtain ⟨⟨sinfos, mla⟩, hmla, hprep⟩ := Option.bind_eq_some_iff.mp hprep
  cases sinfos with
  | nil =>
    obtain ⟨⟨rfl, rfl⟩, rfl⟩ : (sinfosMla = [] ∧ sinfosLid = []) ∧ _ = σ₁ := by simpa using hprep
    obtain rfl : _ = σ' := by simpa using hrun
    obtain ⟨states, kvN, hplace⟩ := KvCache.placeAll_of_noSlots hmla
    have hback : mla = σ.mla.cache := KvCache.prepare_eq_self (hkeeps ⟨states, kvN, hplace⟩) hmla
    exact hback.trans h
  | cons sinfo sinfos =>
    obtain ⟨⟨sinfos', lid⟩, hlid, heq⟩ := Option.map_eq_some_iff.mp hprep
    obtain ⟨hs, rfl⟩ := Prod.mk.inj heq
    obtain ⟨rfl, rfl⟩ := Prod.mk.inj hs
    -- `lid` finds the slots of `mla`
    rw [← h, hmla] at hlid
    obtain ⟨rfl, rfl⟩ := Prod.mk.inj (Option.some.inj hlid)
    simp only [List.isEmpty_cons, Bool.false_eq_true, or_self, if_false] at hrun
    refine Loops.foldlM_inv (I := fun σ : DsaState => σ.mla.cache = σ.lid.cache) rfl
      (fun x hx σ σ' hσ happly => ?_) hrun
    obtain ⟨⟨sinfoMla, sinfoLid⟩, u⟩ := x
    obtain rfl : sinfoMla = sinfoLid := eq_of_mem_zip_self (List.mem_of_mem_take hx)
    exact onBoth_eq hσ happly

/-! ## Restoring -/

theorem stateRead_eq (h : σ.mla.cache = σ.lid.cache) {dest : Option SeqId} {bytes : List UInt8}
    (hkeeps : (Op.stateRead dest bytes).Keeps c σ)
    (hrun : Readers.state? (stateRead c dest) ⟨bytes, σ⟩ = some σ') : σ'.mla.cache = σ'.lid.cache := by
  unfold stateRead at hrun
  by_cases hd : ∃ d ∈ dest, c.cells.seqToStreamSize ≤ d.val
  · have hone : KvCache.stateRead c.cells c.mlaLayout dest ⟨bytes, σ.mla⟩ = .error .abort ⟨bytes, σ.mla⟩ :=
      KvCache.stateRead_outOfRange c.cells_shared hd
    rw [Readers.state?_bind_abort (Readers.zoom_error hone)] at hrun
    simp at hrun
  have hd : ∀ d ∈ dest, d.val < c.cells.seqToStreamSize := fun d hmem =>
    Nat.lt_of_not_le fun hle => hd ⟨d, hmem, hle⟩
  rcases hkeeps with href | ⟨rss, rest, rest', hmla, hlid, hroom⟩
  · -- the call throws at once
    obtain ⟨rest, hone⟩ : ∃ rest, KvCache.stateRead c.cells c.mlaLayout dest ⟨bytes, σ.mla⟩ =
        .error .thrown ⟨rest, σ.mla⟩ := KvCache.stateRead_refused c.cells_shared hd href
    rw [Readers.state?_bind_thrown (Readers.zoom_error hone)] at hrun
    obtain rfl := Option.some.inj hrun
    exact h
  · obtain ⟨kv, hkv⟩ := Option.isSome_iff_exists.mp hroom
    obtain ⟨data, hone⟩ := KvCache.stateRead_of_section c.cells_shared hd hmla hkv σ.mla.data
    obtain ⟨data', htwo⟩ := KvCache.stateRead_of_section c.cells_shared hd hlid (h ▸ hkv) σ.lid.data
    rw [Readers.state?_bind_ok (Readers.zoom_ok hone)] at hrun
    rw [Readers.state?_ok (Readers.zoom_ok htwo)] at hrun
    obtain rfl := Option.some.inj hrun
    rfl

/-! ## Runs -/

theorem step_eq {op : Op} (h : σ.mla.cache = σ.lid.cache) (hkeeps : op.Keeps c σ)
    (hrun : step c σ op = some σ') : σ'.mla.cache = σ'.lid.cache := by
  cases op with
  | clear data =>
    obtain rfl := Option.some.inj hrun
    exact congrArg (KvCache.clear c.cells) h
  | seqRm seqId p0 p1 =>
    obtain ⟨⟨σ₁, ok⟩, hrm, rfl⟩ := Option.map_eq_some_iff.mp hrun
    exact seqRm_eq h hrm
  | seqCp s d p0 p1 | seqKeep s | seqAdd s p0 p1 shift | seqDiv s p0 p1 d => exact onBoth_eq h hrun
  | decode us n => exact decode_eq h hkeeps hrun
  | stateRead dest bytes => exact stateRead_eq h hkeeps hrun

/-- The caches stay in lockstep in every run whose batches that do not fit leave no trace in
`mla`, and whose restores go through in both caches or in none. -/
theorem reaches_lockstep (h : Runs.Reaches (step c) (fun σ op => op.Keeps c σ) (init c) σ) : Lockstep c σ := by
  have hinv : ∀ (σ : DsaState) (op : Op) (σ' : DsaState), σ.mla.cache = σ.lid.cache → op.Keeps c σ →
      step c σ op = some σ' → σ'.mla.cache = σ'.lid.cache := fun _ _ _ hσ hkeeps hrun => step_eq hσ hkeeps hrun
  exact lockstep_of_eq (h.inv hinv rfl)

def threeCells : DsaConfig where
  cells := KvCache.unifiedConfig 3 .none
  mlaLayout := KvCache.noLayers
  lidLayout := KvCache.noLayers
  cells_shared := rfl

def twoTokens : Op := .decode [KvCache.textUbatch [(0, 0), (0, 1)]] 1

/-- A section with one cell: sequence `1` at position `5`. -/
def oneCellSection : List UInt8 :=
  [1, 0, 0, 0, 1, 0, 0, 0] ++ [5, 0, 0, 0, 1, 0, 0, 0, 1, 0, 0, 0] ++ [0, 0, 0, 0, 0, 0, 0, 0]

/-- A batch, and then a restore of two such sections. -/
theorem reaches_lockstep_restored : ∃ σ, ((step threeCells (init threeCells) twoTokens).bind fun σ =>
      step threeCells σ (.stateRead none (oneCellSection ++ oneCellSection))) = some σ ∧
    Lockstep threeCells σ := by
  have hrun : ((step threeCells (init threeCells) twoTokens).bind fun σ =>
      if (KvCache.restoreCells threeCells.cells none σ.mla.cache [[⟨5, {}, [1]⟩]]).isSome then
        (step threeCells σ (.stateRead none (oneCellSection ++ oneCellSection))).map fun _ => ()
      else none) = some () := by
    decide +kernel
  obtain ⟨σ₁, hone, hrun⟩ := Option.bind_eq_some_iff.mp hrun
  obtain ⟨hroom, hrun⟩ := Option.ite_none_right_eq_some.mp hrun
  obtain ⟨σ, htwo, -⟩ := Option.map_eq_some_iff.mp hrun
  have hfits : ((init threeCells).mla.cache.placeAll threeCells.cells
      [KvCache.textUbatch [(0, 0), (0, 1)]]).map (fun x => x.2.2) = some true := by
    decide +kernel
  have hbatch : twoTokens.Keeps threeCells (init threeCells) := by
    rintro ⟨states, kv', hplace⟩
    rw [hplace] at hfits
    simp at hfits
  have hsections : (Op.stateRead none (oneCellSection ++ oneCellSection)).Keeps threeCells σ₁ :=
    .inr ⟨[[⟨5, {}, [1]⟩]], oneCellSection, [], by decide +kernel, by decide +kernel, hroom⟩
  exact ⟨σ, Option.bind_eq_some_iff.mpr ⟨σ₁, hone, htwo⟩,
    reaches_lockstep ((Runs.Reaches.refl.step hbatch hone).step hsections htwo)⟩

/-- The state ends behind its first section: `mla` is restored, `lid` keeps its tokens. -/
theorem stateRead_breaks_lockstep :
    ¬∀ (c : DsaConfig) (σ : DsaState), Runs.Reaches (step c) (fun _ _ => True) (init c) σ → Lockstep c σ := by
  intro h
  have hrun : ([twoTokens, .stateRead none [1, 0, 0, 0, 0, 0, 0, 0]].foldlM (step threeCells)
      (init threeCells)).map (fun σ => ((σ.mla.cache.vCells 0).pos 0, (σ.lid.cache.vCells 0).pos 0)) =
      some (-1, 0) := by
    decide +kernel
  obtain ⟨σ, hσ, hpos⟩ := Option.map_eq_some_iff.mp hrun
  have hlock := h threeCells σ (Runs.Reaches.refl.ofList (fun _ _ _ => trivial) hσ)
  have heq := hlock.pos 0 (by decide) 0 (by decide)
  obtain ⟨hmla, hlid⟩ := Prod.mk.inj hpos
  rw [hmla, hlid] at heq
  exact absurd heq (by decide)

end Dsa

end LlamaCpp
