import LlamaCpp.Dsv4.CacheRuns
import LlamaCpp.Kv.CopyQueue

/-!
# Tables and contents

A state of the cache has two halves: the cell tables with their heads, and the contents,
which are the tensors and the queues of copies.  The calls that manage sequences act on
the tables without a look at the contents, and what they do to the contents depends on
the tables alone: the same state with other contents takes the same way (`step_acts`).

What a call does to the contents is an `Effect`.
-/

namespace LlamaCpp

open List Option

/-- The tensors of a cache and its queue. -/
structure KvStore where
  data : KvData
  scInfo : List (Nat × Nat)

namespace KvState

def store (σ : KvState) : KvStore := ⟨σ.data, σ.cache.scInfo⟩

def withStore (σ : KvState) (γ : KvStore) : KvState := ⟨σ.cache.withQueue γ.scInfo, γ.data⟩

@[simp] theorem withStore_cache (σ : KvState) (γ : KvStore) :
    (σ.withStore γ).cache = σ.cache.withQueue γ.scInfo := rfl

@[simp] theorem withStore_data (σ : KvState) (γ : KvStore) : (σ.withStore γ).data = γ.data := rfl

end KvState

namespace Dsv4

open KvCache (streamCopy)

structure Contents where
  base : KvStore
  swa : KvStore
  csa : KvStore
  hca : KvStore
  lid : KvStore
  csaState : CompStore
  hcaState : CompStore
  lidState : CompStore

def Dsv4State.contents (σ : Dsv4State) : Contents where
  base := σ.raw.base.store
  swa := σ.raw.swa.store
  csa := σ.csa.store
  hca := σ.hca.store
  lid := σ.lid.store
  csaState := σ.csaState
  hcaState := σ.hcaState
  lidState := σ.lidState

def Dsv4State.withContents (σ : Dsv4State) (γ : Contents) : Dsv4State where
  raw := ⟨σ.raw.base.withStore γ.base, σ.raw.swa.withStore γ.swa⟩
  csa := σ.csa.withStore γ.csa
  hca := σ.hca.withStore γ.hca
  lid := σ.lid.withStore γ.lid
  csaState := γ.csaState
  hcaState := γ.hcaState
  lidState := γ.lidState

@[simp] theorem contents_withContents (σ : Dsv4State) (γ : Contents) : (σ.withContents γ).contents = γ := rfl

/-! ## Effects -/

/-- The streams whose compressed rows and states are zeroed. -/
inductive Scope where
  | streams (ts : List Nat)
  | all

namespace Scope

/-- The stream is zeroed. -/
def Covers (scope : Scope) (t : Nat) : Prop :=
  match scope with
  | .streams ts => t ∈ ts
  | .all => True

instance (scope : Scope) : DecidablePred scope.Covers := fun t => by
  unfold Covers
  cases scope <;> infer_instance

def onKeys (scope : Scope) (data : KvData) : KvData :=
  match scope with
  | .streams ts => ts.foldl (fun data t => clearKeyStream t data) data
  | .all => fun _ _ => 0

def onStates (scope : Scope) (data : CompData) : CompData := fun tensor j =>
  if scope.Covers tensor.strm then 0 else data tensor j

theorem onKeys_streams (ts : List Nat) (data : KvData) (layer t j : Nat) :
    (Scope.streams ts).onKeys data ⟨.k, layer, t⟩ j = if t ∈ ts then 0 else data ⟨.k, layer, t⟩ j := by
  unfold onKeys
  dsimp only
  induction ts generalizing data with
  | nil => rfl
  | cons u ts ih =>
    rw [foldl_cons, ih]
    by_cases ht : t ∈ ts
    · rw [if_pos ht, if_pos (mem_cons_of_mem _ ht)]
    · by_cases hu : t = u
      · simp [clearKeyStream, hu]
      · simp [clearKeyStream, hu, ht]

end Scope

structure Effect where
  /-- The tensors of the raw cache are zeroed. -/
  rawCleared : Bool
  scope : Scope
  /-- Every store puts off the copy of a sequence. -/
  copied : Option (SeqId × SeqId)

variable (c : Dsv4Config)

namespace Effect

/-- The entries of a cache in its queue. -/
def queued (kv : KvConfig) (e : Effect) : List (Nat × Nat) :=
  match e.copied with
  | none => []
  | some (s, d) => streamCopy kv s d

/-- The entries of a compressor state in its queue. -/
def queuedState (e : Effect) : List (Nat × Nat) :=
  match e.copied with
  | none => []
  | some (s, d) => if s = d then [] else [(s.val, d.val)]

def onRaw (kv : KvConfig) (e : Effect) (γ : KvStore) : KvStore :=
  ⟨if e.rawCleared then fun _ _ => 0 else γ.data, γ.scInfo ++ e.queued kv⟩

def onKeys (kc : KeyCacheConfig) (e : Effect) (γ : KvStore) : KvStore :=
  ⟨e.scope.onKeys γ.data, γ.scInfo ++ e.queued kc.cells⟩

def onState (e : Effect) (γ : CompStore) : CompStore := ⟨e.scope.onStates γ.data, γ.scInfo ++ e.queuedState⟩

def apply (e : Effect) (γ : Contents) : Contents where
  base := e.onRaw c.raw.base γ.base
  swa := e.onRaw c.raw.swa γ.swa
  csa := e.onKeys c.csa γ.csa
  hca := e.onKeys c.hca γ.hca
  lid := e.onKeys c.lid γ.lid
  csaState := e.onState γ.csaState
  hcaState := e.onState γ.hcaState
  lidState := e.onState γ.lidState

def idle : Effect := ⟨false, .streams [], none⟩

/-- Zero the compressed rows and states of a scope. -/
def wipe (scope : Scope) : Effect := ⟨false, scope, none⟩

end Effect

/-- `f` leads from `σ` to `σ'` whatever the contents are, and changes them by `e`. -/
def Acts (f : Dsv4State → Option Dsv4State) (e : Contents → Contents) (σ σ' : Dsv4State) : Prop :=
  ∀ γ, f (σ.withContents γ) = some (σ'.withContents (e γ))

/-! ## The parts of a call -/

variable {p0 : Int} {seqId : Option SeqId}

section Parts

variable {c} {σ σ' : Dsv4State} {κ κ' : KvState}

theorem clear_withStore (kv : KvConfig) (κ : KvState) (γ : KvStore) (data : Bool) :
    (κ.withStore γ).clear kv data =
      (κ.clear kv data).withStore ⟨if data then fun _ _ => 0 else γ.data, γ.scInfo⟩ := by
  unfold KvState.clear
  rw [KvState.withStore_cache, KvCache.clear_withQueue]
  rfl

theorem clearAll_withStore (kv : KvConfig) (κ : KvState) (γ : KvStore) :
    KvCache.clearAll kv (κ.withStore γ) = (KvCache.clearAll kv κ).withStore ⟨fun _ _ => 0, γ.scInfo⟩ := by
  unfold KvCache.clearAll
  rw [KvState.withStore_cache, KvCache.clear_withQueue]
  rfl

theorem clearSeq_withStore {kv : KvConfig} {s : SeqId} (hrun : clearSeq kv s κ = some κ') (γ : KvStore) :
    clearSeq kv s (κ.withStore γ) = some (κ'.withStore ⟨clearKeyStream s.val γ.data, γ.scInfo⟩) := by
  unfold clearSeq at hrun ⊢
  obtain ⟨⟨cache, ok⟩, hrm, rfl⟩ := map_eq_some_iff.mp hrun
  rw [KvState.withStore_cache, KvCache.adds_seqRm hrm]
  rfl

theorem keysRm_withStore {kv : KvConfig} {s : SeqId} {ok : Bool}
    (hrun : keysRm kv s p0 κ = some (κ', ok)) (γ : KvStore) :
    keysRm kv s p0 (κ.withStore γ) = some (κ'.withStore γ, ok) := by
  unfold keysRm at hrun ⊢
  obtain ⟨⟨cache, ok⟩, hrm, heq⟩ := map_eq_some_iff.mp hrun
  obtain ⟨rfl, rfl⟩ := Prod.mk.inj heq
  rw [KvState.withStore_cache, KvCache.adds_seqRm hrm]
  rfl

theorem mapCells_withStore {f : KvCache → Option KvCache} {new : List (Nat × Nat)}
    (hf : ∀ {kv kv'}, f kv = some kv' → KvCache.Adds f new kv kv') (hrun : κ.mapCells f = some κ') (γ : KvStore) :
    (κ.withStore γ).mapCells f = some (κ'.withStore ⟨γ.data, γ.scInfo ++ new⟩) := by
  obtain ⟨cache, hcache, rfl⟩ := Iswa.mapCells_eq_some.mp hrun
  unfold KvState.mapCells
  rw [KvState.withStore_cache, hf hcache]
  rfl

theorem rawRm_withStore {raw raw' : IswaState} {p1 : Int} {ok : Bool}
    (hrun : Iswa.seqRm c.raw seqId p0 p1 raw = some (raw', ok)) (base swa : KvStore) :
    Iswa.seqRm c.raw seqId p0 p1 ⟨raw.base.withStore base, raw.swa.withStore swa⟩ =
      some (⟨raw'.base.withStore base, raw'.swa.withStore swa⟩, ok) := by
  obtain ⟨kv, kv', res, res', hb, hw, rfl, rfl⟩ := Iswa.seqRm_eq_some hrun
  unfold Iswa.seqRm
  rw [KvState.withStore_cache, KvCache.adds_seqRm hb, KvState.withStore_cache, KvCache.adds_seqRm hw]
  rfl

theorem onBoth_withStore {f : KvConfig → KvCache → Option KvCache} {new : KvConfig → List (Nat × Nat)}
    (hf : ∀ {kv cache cache'}, f kv cache = some cache' → KvCache.Adds (f kv) (new kv) cache cache')
    {raw raw' : IswaState} (hrun : Iswa.onBoth c.raw f raw = some raw') (base swa : KvStore) :
    Iswa.onBoth c.raw f ⟨raw.base.withStore base, raw.swa.withStore swa⟩ =
      some ⟨raw'.base.withStore ⟨base.data, base.scInfo ++ new c.raw.base⟩,
        raw'.swa.withStore ⟨swa.data, swa.scInfo ++ new c.raw.swa⟩⟩ := by
  unfold Iswa.onBoth at hrun ⊢
  obtain ⟨κ, hκ, hrun⟩ := bind_eq_some_iff.mp hrun
  obtain ⟨κ', hκ', rfl⟩ := map_eq_some_iff.mp hrun
  rw [mapCells_withStore hf hκ base, bind_some, mapCells_withStore hf hκ' swa]
  rfl

end Parts

/-! ## The calls -/

section Calls

variable {c} {σ σ' : Dsv4State} {s : SeqId}

/-- A zeroed scope touches neither the raw cache nor the queues. -/
theorem apply_wipe (scope : Scope) (γ : Contents) : (Effect.wipe scope).apply c γ =
    { γ with
      csa := ⟨scope.onKeys γ.csa.data, γ.csa.scInfo⟩
      hca := ⟨scope.onKeys γ.hca.data, γ.hca.scInfo⟩
      lid := ⟨scope.onKeys γ.lid.data, γ.lid.scInfo⟩
      csaState := ⟨scope.onStates γ.csaState.data, γ.csaState.scInfo⟩
      hcaState := ⟨scope.onStates γ.hcaState.data, γ.hcaState.scInfo⟩
      lidState := ⟨scope.onStates γ.lidState.data, γ.lidState.scInfo⟩ } := by
  simp [Effect.apply, Effect.onRaw, Effect.onKeys, Effect.onState, Effect.queued, Effect.queuedState, Effect.wipe]

theorem onStates_streams_nil (data : CompData) : (Scope.streams []).onStates data = data := by
  funext tensor j
  exact if_neg (not_mem_nil (a := tensor.strm))

theorem apply_idle (γ : Contents) : Effect.idle.apply c γ = γ := by
  refine (apply_wipe (.streams []) γ).trans ?_
  simp only [onStates_streams_nil]
  rfl

/-- What `clear_compressed` zeroes. -/
def scopeOf (seqId : Option SeqId) : Scope :=
  match seqId with
  | none => .all
  | some s => .streams [s.val]

theorem clear_eq (seqId : Option SeqId) (st : CompStore) :
    st.clear seqId = ⟨(scopeOf seqId).onStates st.data, st.scInfo⟩ := by
  unfold CompStore.clear scopeOf
  congr 1
  funext tensor j
  cases seqId with
  | none => rfl
  | some s => simp [Scope.onStates, Scope.Covers]

theorem acts_clearCompressed (hrun : clearCompressed c seqId σ = some σ') :
    Acts (clearCompressed c seqId) ((Effect.wipe (scopeOf seqId)).apply c) σ σ' := by
  intro γ
  rw [apply_wipe]
  unfold clearCompressed at hrun ⊢
  simp only [clear_eq] at hrun ⊢
  cases seqId with
  | none =>
    obtain rfl := some.inj hrun
    dsimp only [Dsv4State.withContents]
    rw [clearAll_withStore, clearAll_withStore, clearAll_withStore]
    rfl
  | some s =>
    dsimp only at hrun ⊢
    obtain ⟨hs, hrun⟩ := ite_none_left_eq_some.mp hrun
    obtain ⟨csa, hcsa, hrun⟩ := bind_eq_some_iff.mp hrun
    obtain ⟨hca, hhca, hrun⟩ := bind_eq_some_iff.mp hrun
    obtain ⟨lid, hlid, rfl⟩ := map_eq_some_iff.mp hrun
    rw [if_neg hs]
    dsimp only [Dsv4State.withContents]
    rw [clearSeq_withStore hcsa, bind_some, clearSeq_withStore hhca, bind_some, clearSeq_withStore hlid]
    rfl

/-! ### `seq_rm` -/

theorem acts_rmTail {ok : Bool} (hrun : rmTail c s p0 σ = some (σ', ok)) (γ : Contents) :
    rmTail c s p0 (σ.withContents γ) = some (σ'.withContents γ, ok) := by
  unfold rmTail at hrun ⊢
  obtain ⟨⟨raw, r₀⟩, hraw, hrun⟩ := bind_eq_some_iff.mp hrun
  obtain ⟨⟨csa, r₁⟩, hcsa, hrun⟩ := bind_eq_some_iff.mp hrun
  obtain ⟨⟨hca, r₂⟩, hhca, hrun⟩ := bind_eq_some_iff.mp hrun
  obtain ⟨⟨lid, r₃⟩, hlid, heq⟩ := map_eq_some_iff.mp hrun
  obtain ⟨rfl, rfl⟩ := Prod.mk.inj heq
  dsimp only [Dsv4State.withContents]
  rw [rawRm_withStore hraw, bind_some]
  rw [keysRm_withStore hcsa, bind_some]
  rw [keysRm_withStore hhca, bind_some]
  rw [keysRm_withStore hlid]
  rfl

variable (c) in
/-- What `seq_rm` zeroes: the sequence, if it is removed from its first position on. -/
def rmScope (seqId : Option SeqId) (p0 p1 : Int) (σ : Dsv4State) : Scope :=
  if p1 < 0 ∧ p0 ≤ 0 ∧ (Iswa.seqRm c.raw seqId p0 p1 σ.raw).map Prod.snd = some true then scopeOf seqId
  else .streams []

theorem acts_seqRm {p1 : Int} {ok : Bool}
    (hrun : seqRm c seqId p0 p1 σ = some (σ', ok)) (γ : Contents) :
    seqRm c seqId p0 p1 (σ.withContents γ) =
      some (σ'.withContents ((Effect.wipe (rmScope c seqId p0 p1 σ)).apply c γ), ok) := by
  have hidle : (Effect.wipe (.streams [])).apply c γ = γ := apply_idle γ
  have hmax : ∀ s, Iswa.seqPosMax c.raw s (σ.withContents γ).raw = Iswa.seqPosMax c.raw s σ.raw := fun _ => rfl
  unfold seqRm at hrun ⊢
  split_ifs at hrun with hp1 hp0
  · have hscope : rmScope c seqId p0 p1 σ = .streams [] := if_neg (by omega)
    obtain ⟨rfl, rfl⟩ := Prod.mk.inj (some.inj hrun)
    rw [if_pos hp1, hscope, hidle]
  · have hscope : rmScope c seqId p0 p1 σ = .streams [] := if_neg (by omega)
    rw [if_neg hp1, if_pos hp0, hscope, hidle]
    cases seqId with
    | none =>
      obtain ⟨rfl, rfl⟩ := Prod.mk.inj (some.inj hrun)
      rfl
    | some s =>
      dsimp only at hrun ⊢
      rw [hmax]
      split_ifs at hrun with hs
      · obtain ⟨rfl, rfl⟩ := Prod.mk.inj (some.inj hrun)
        rw [if_pos hs]
      · rw [if_neg hs]
        exact acts_rmTail hrun γ
  · obtain ⟨⟨raw, res⟩, hraw, hrun⟩ := bind_eq_some_iff.mp hrun
    have hraw' : Iswa.seqRm c.raw seqId p0 p1 (σ.withContents γ).raw =
        some (⟨raw.base.withStore γ.base, raw.swa.withStore γ.swa⟩, res) := rawRm_withStore hraw _ _
    rw [if_neg hp1, if_neg hp0, hraw', bind_some]
    cases res with
    | true =>
      have hscope : rmScope c seqId p0 p1 σ = scopeOf seqId :=
        if_pos ⟨by omega, by omega, by rw [hraw]; rfl⟩
      obtain ⟨σ₁, hclear, heq⟩ := map_eq_some_iff.mp hrun
      obtain ⟨rfl, rfl⟩ := Prod.mk.inj heq
      rw [hscope]
      exact congrArg (Option.map fun σ => (σ, true)) (acts_clearCompressed hclear γ)
    | false =>
      have hscope : rmScope c seqId p0 p1 σ = .streams [] := if_neg (by simp [hraw])
      obtain ⟨rfl, rfl⟩ := Prod.mk.inj (some.inj hrun)
      rw [hscope, hidle]
      rfl

/-! ### `seq_keep` -/

def otherStreams (s : SeqId) (ids : List SeqId) : List Nat := (ids.filter (· ≠ s)).map Fin.val

theorem onStates_cons (t : Nat) (ts : List Nat) (data : CompData) :
    (Scope.streams (t :: ts)).onStates data = (Scope.streams ts).onStates ((Scope.streams [t]).onStates data) := by
  funext tensor j
  unfold Scope.onStates
  by_cases ht : tensor.strm = t
  · simp [Scope.Covers, ht]
  · simp [Scope.Covers, ht]

theorem wipe_cons (t : Nat) (ts : List Nat) (γ : Contents) :
    (Effect.wipe (.streams (t :: ts))).apply c γ =
      (Effect.wipe (.streams ts)).apply c ((Effect.wipe (.streams [t])).apply c γ) := by
  simp only [apply_wipe, onStates_cons t ts]
  rfl

theorem acts_dropOther {id : SeqId} (hid : id ≠ s) (hrun : dropOther c s σ id = some σ') :
    Acts (fun σ => dropOther c s σ id) ((Effect.wipe (.streams [id.val])).apply c) σ σ' := by
  intro γ
  change dropOther c s (σ.withContents γ) id = _
  unfold dropOther at hrun ⊢
  rw [if_neg hid] at hrun ⊢
  obtain ⟨⟨raw, res⟩, hraw, hclear⟩ := bind_eq_some_iff.mp hrun
  dsimp only [Dsv4State.withContents]
  rw [rawRm_withStore hraw, bind_some]
  exact acts_clearCompressed hclear γ

theorem acts_dropOthers {ids : List SeqId} (hrun : ids.foldlM (dropOther c s) σ = some σ') :
    Acts (fun σ => ids.foldlM (dropOther c s) σ) ((Effect.wipe (.streams (otherStreams s ids))).apply c) σ σ' := by
  induction ids generalizing σ with
  | nil =>
    obtain rfl := some.inj hrun
    exact fun γ => congrArg (fun γ => some (σ.withContents γ)) (apply_idle γ).symm
  | cons id ids ih =>
    obtain ⟨σ₁, hone, hrest⟩ := bind_eq_some_iff.mp hrun
    intro γ
    change (dropOther c s (σ.withContents γ) id).bind (fun σ => ids.foldlM (dropOther c s) σ) = _
    by_cases hid : id = s
    · obtain rfl : σ = σ₁ := by simpa [dropOther, hid] using hone
      have hsame : dropOther c s (σ.withContents γ) id = some (σ.withContents γ) := by
        simp [dropOther, hid]
      have hothers : otherStreams s (id :: ids) = otherStreams s ids := by simp [otherStreams, hid]
      rw [hsame, bind_some, hothers]
      exact ih hrest γ
    · have hothers : otherStreams s (id :: ids) = id.val :: otherStreams s ids := by
        simp [otherStreams, hid]
      have hdrop : dropOther c s (σ.withContents γ) id = _ := acts_dropOther hid hone γ
      rw [hdrop, bind_some, hothers, wipe_cons id.val (otherStreams s ids)]
      exact ih hrest _

def seqIds (n : Nat) : List SeqId := (List.finRange llamaMaxSeq).filter fun id => id.val < n

theorem acts_seqKeep (hrun : seqKeep c s σ = some σ') :
    Acts (seqKeep c s) ((Effect.wipe (.streams (otherStreams s (seqIds c.nSeqMax)))).apply c) σ σ' := by
  intro γ
  unfold seqKeep at hrun ⊢
  obtain ⟨hs, hrun⟩ := ite_none_left_eq_some.mp hrun
  obtain ⟨raw, hraw, hrun⟩ := bind_eq_some_iff.mp hrun
  rw [if_neg hs]
  dsimp only [Dsv4State.withContents]
  unfold Iswa.seqKeep at hraw ⊢
  rw [onBoth_withStore (fun h => KvCache.adds_seqKeep h) hraw, bind_some]
  simp only [append_nil]
  exact acts_dropOthers hrun γ

/-! ### `seq_cp` and `clear` -/

theorem acts_seqCp {d : SeqId} {p1 : Int} (hrun : seqCp c s d p0 p1 σ = some σ') :
    Acts (seqCp c s d p0 p1) (Effect.apply c ⟨false, .streams [], some (s, d)⟩) σ σ' := by
  intro γ
  unfold seqCp at hrun ⊢
  obtain ⟨hp, hrun⟩ := ite_none_left_eq_some.mp hrun
  obtain ⟨raw, hraw, hrun⟩ := bind_eq_some_iff.mp hrun
  obtain ⟨csa, hcsa, hrun⟩ := bind_eq_some_iff.mp hrun
  obtain ⟨hca, hhca, hrun⟩ := bind_eq_some_iff.mp hrun
  obtain ⟨lid, hlid, hrun⟩ := bind_eq_some_iff.mp hrun
  obtain ⟨hids, hrun⟩ := ite_none_left_eq_some.mp hrun
  obtain rfl := some.inj hrun
  rw [if_neg hp]
  dsimp only [Dsv4State.withContents]
  unfold Iswa.seqCp at hraw ⊢
  rw [onBoth_withStore (fun h => KvCache.adds_seqCp h) hraw, bind_some,
    mapCells_withStore (fun h => KvCache.adds_seqCp h) hcsa, bind_some,
    mapCells_withStore (fun h => KvCache.adds_seqCp h) hhca, bind_some,
    mapCells_withStore (fun h => KvCache.adds_seqCp h) hlid, bind_some, if_neg hids]
  have hstate : ∀ st : CompStore, st.seqCp s d = Effect.onState ⟨false, .streams [], some (s, d)⟩ st := by
    intro st
    unfold CompStore.seqCp Effect.onState Effect.queuedState
    dsimp only
    rw [onStates_streams_nil]
    split_ifs
    · rw [append_nil]
    · rfl
  rw [hstate, hstate, hstate]
  rfl

theorem acts_clear {data : Bool} (hrun : clear c data σ = some σ') :
    Acts (clear c data) (Effect.apply c ⟨data, .all, none⟩) σ σ' := by
  intro γ
  have hclear := acts_clearCompressed (show clearCompressed c none _ = some σ' from hrun)
    { γ with
      base := ⟨if data then fun _ _ => 0 else γ.base.data, γ.base.scInfo⟩
      swa := ⟨if data then fun _ _ => 0 else γ.swa.data, γ.swa.scInfo⟩ }
  rw [apply_wipe] at hclear
  unfold clear Iswa.clear
  dsimp only [Dsv4State.withContents] at hclear ⊢
  rw [clear_withStore, clear_withStore]
  refine hclear.trans ?_
  simp [Effect.apply, Effect.onRaw, Effect.onKeys, Effect.onState, Effect.queued, Effect.queuedState, scopeOf]

end Calls

/-! ## One call -/

def Call.Manages : Call → Prop
  | .clear _ | .seqRm _ _ _ | .seqCp _ _ _ _ | .seqKeep _ => True
  | _ => False

def Call.effect (σ : Dsv4State) : Call → Effect
  | .clear data => ⟨data, .all, none⟩
  | .seqRm seqId p0 p1 => .wipe (rmScope c seqId p0 p1 σ)
  | .seqCp s d _ _ => ⟨false, .streams [], some (s, d)⟩
  | .seqKeep s => .wipe (.streams (otherStreams s (seqIds c.nSeqMax)))
  | _ => .idle

/-- A call takes the same way with other contents. -/
theorem step_acts {σ σ' : Dsv4State} {call : Call} (hcall : call.Manages) (hrun : step c σ call = some σ') :
    Acts (fun σ => step c σ call) ((call.effect c σ).apply c) σ σ' := by
  cases call with
  | clear data => exact acts_clear hrun
  | seqRm seqId p0 p1 =>
    obtain ⟨⟨σ₁, ok⟩, hrm, rfl⟩ := map_eq_some_iff.mp hrun
    intro γ
    change (seqRm c seqId p0 p1 (σ.withContents γ)).map Prod.fst = _
    rw [acts_seqRm hrm γ]
    rfl
  | seqCp s d p0 p1 => exact acts_seqCp hrun
  | seqKeep s => exact acts_seqKeep hrun
  | seqAdd | seqDiv | update | decode | compute => exact hcall.elim

end Dsv4

end LlamaCpp
