import LlamaCpp.Dsv4.Contents
import LlamaCpp.Dsv4.RestoreFrame

/-!
# Copies of sequences that are put off

`seq_cp` copies the cells at once and leaves the tensors to the next update, while a
removal zeroes compressed rows and compressor states at once.  The reference is the cache
that makes every copy when it is asked for (`immediately`).

The two follow each other as long as no removal gets between a copy and its source
(`Call.Safe`): `run_made` for the runs and `update_deferred` for the update behind them.
The raw cache needs no condition, as only `clear` zeroes its tensors, and all of them.
-/

namespace LlamaCpp

open List Option

open Copies (Store Made Safe origin)

/-- The queued copies are made. -/
def KvStore.settle (γ : KvStore) : KvStore := ⟨KvState.copyStreams γ.scInfo γ.data, []⟩

namespace Dsv4

variable {c : Dsv4Config} {σ σ' : Dsv4State}

/-- The queued copies of all stores are made. -/
def Contents.settle (γ : Contents) : Contents where
  base := γ.base.settle
  swa := γ.swa.settle
  csa := γ.csa.settle
  hca := γ.hca.settle
  lid := γ.lid.settle
  csaState := γ.csaState.update
  hcaState := γ.hcaState.update
  lidState := γ.lidState.update

def flush (σ : Dsv4State) : Dsv4State := σ.withContents σ.contents.settle

variable (c) in
/-- The reference: a call, and the copies it asks for at once. -/
def immediately (σ : Dsv4State) (call : Call) : Option Dsv4State := (step c σ call).map flush

/-! ## The stores as tables -/

/-- The bytes of a stream that was zeroed. -/
def zeros : Nat → UInt8 := fun _ => 0

def rawView (γ : KvStore) : Store (KvTensorKind × Nat) Nat (Nat → UInt8) :=
  ⟨fun k t => γ.data ⟨k.1, k.2, t⟩, γ.scInfo⟩

/-- The keys of the layers of a cache of compressed keys. -/
def keyView (γ : KvStore) : Store Nat Nat (Nat → UInt8) := ⟨fun layer t => γ.data ⟨.k, layer, t⟩, γ.scInfo⟩

def compView (γ : CompStore) : Store (CompTensorKind × Nat) Nat (Nat → UInt8) :=
  ⟨fun k t => γ.data ⟨k.1, k.2, t⟩, γ.scInfo⟩

theorem rawView_settle (γ : KvStore) : rawView γ.settle = (rawView γ).settle := by
  unfold rawView KvStore.settle Store.settle
  congr 1
  funext k
  exact KvState.streams_copyStreams γ.scInfo γ.data k.1 k.2

theorem keyView_settle (γ : KvStore) : keyView γ.settle = (keyView γ).settle := by
  unfold keyView KvStore.settle Store.settle
  congr 1
  funext layer
  exact KvState.streams_copyStreams γ.scInfo γ.data .k layer

theorem applyCopies_streams (q : List (Nat × Nat)) (data : CompData) (kind : CompTensorKind) (layer : Nat) :
    (fun t => CompStore.applyCopies q data ⟨kind, layer, t⟩) = Copies.copies q fun t => data ⟨kind, layer, t⟩ := by
  induction q generalizing data with
  | nil => rfl
  | cons x q ih =>
    unfold CompStore.applyCopies Copies.copies
    rw [foldl_cons, foldl_cons]
    refine (ih _).trans (congrArg (Copies.copies q) ?_)
    funext t
    rw [Function.update_apply]

theorem compView_settle (γ : CompStore) : compView γ.update = (compView γ).settle := by
  unfold compView CompStore.update Store.settle
  congr 1
  funext k
  exact applyCopies_streams γ.scInfo γ.data k.1 k.2

theorem rawView_onRaw (kv : KvConfig) (e : Effect) (γ : KvStore) : rawView (e.onRaw kv γ) =
    (rawView γ).after zeros (fun _ => e.rawCleared = true) (e.queued kv) := by
  unfold rawView Effect.onRaw Store.after Copies.blank
  congr 1
  funext k t
  cases e.rawCleared <;> rfl

theorem keyView_onKeys (kc : KeyCacheConfig) (e : Effect) (γ : KvStore) : keyView (e.onKeys kc γ) =
    (keyView γ).after zeros e.scope.Covers (e.queued kc.cells) := by
  unfold keyView Effect.onKeys Store.after Copies.blank
  congr 1
  funext layer t j
  cases e.scope with
  | all => exact congrFun (if_pos trivial).symm j
  | streams ts =>
    dsimp only
    rw [Scope.onKeys_streams]
    by_cases ht : t ∈ ts
    · have hcov : (Scope.streams ts).Covers t := ht
      rw [if_pos ht, if_pos hcov]
      rfl
    · have hcov : ¬(Scope.streams ts).Covers t := ht
      rw [if_neg ht, if_neg hcov]

theorem compView_onState (e : Effect) (γ : CompStore) : compView (e.onState γ) =
    (compView γ).after zeros e.scope.Covers e.queuedState := by
  unfold compView Effect.onState Store.after Copies.blank
  congr 1
  funext k t j
  unfold Scope.onStates
  dsimp only
  split_ifs <;> rfl

/-! ## The simulation -/

variable (c) in
/-- `γ'` is `γ` with its copies made, on the tensors there are. -/
structure AllMade (γ γ' : Contents) : Prop where
  base : Made (fun _ => True) (rawView γ.base) (rawView γ'.base)
  swa : Made (fun _ => True) (rawView γ.swa) (rawView γ'.swa)
  csa : Made (· < c.csa.layers.length) (keyView γ.csa) (keyView γ'.csa)
  hca : Made (· < c.hca.layers.length) (keyView γ.hca) (keyView γ'.hca)
  lid : Made (· < c.lid.layers.length) (keyView γ.lid) (keyView γ'.lid)
  csaState : Made (·.2 < c.csaState.layers.length) (compView γ.csaState) (compView γ'.csaState)
  hcaState : Made (·.2 < c.hcaState.layers.length) (compView γ.hcaState) (compView γ'.hcaState)
  lidState : Made (·.2 < c.lidState.layers.length) (compView γ.lidState) (compView γ'.lidState)

variable (c) in
/-- Zeroing a scope gets between no queued copy and its source: a stream that a queued copy
will fill is zeroed exactly if the stream it is filled from is, unless that holds zeros
anyway. -/
structure SafeScope (scope : Scope) (γ : Contents) : Prop where
  csa : Safe zeros scope.Covers (· < c.csa.layers.length) (keyView γ.csa)
  hca : Safe zeros scope.Covers (· < c.hca.layers.length) (keyView γ.hca)
  lid : Safe zeros scope.Covers (· < c.lid.layers.length) (keyView γ.lid)
  csaState : Safe zeros scope.Covers (·.2 < c.csaState.layers.length) (compView γ.csaState)
  hcaState : Safe zeros scope.Covers (·.2 < c.hcaState.layers.length) (compView γ.hcaState)
  lidState : Safe zeros scope.Covers (·.2 < c.lidState.layers.length) (compView γ.lidState)

theorem allMade_settle (γ : Contents) : AllMade c γ γ.settle := by
  constructor
  · exact (rawView_settle γ.base).symm ▸ Made.settle _
  · exact (rawView_settle γ.swa).symm ▸ Made.settle _
  · exact (keyView_settle γ.csa).symm ▸ Made.settle _
  · exact (keyView_settle γ.hca).symm ▸ Made.settle _
  · exact (keyView_settle γ.lid).symm ▸ Made.settle _
  · exact (compView_settle γ.csaState).symm ▸ Made.settle _
  · exact (compView_settle γ.hcaState).symm ▸ Made.settle _
  · exact (compView_settle γ.lidState).symm ▸ Made.settle _

section Store

variable {e : Effect}

theorem made_onRaw {γ γ' : KvStore} (h : Made (fun _ => True) (rawView γ) (rawView γ')) (kv : KvConfig) :
    Made (fun _ => True) (rawView (e.onRaw kv γ)) (rawView (e.onRaw kv γ').settle) := by
  rw [rawView_settle, rawView_onRaw, rawView_onRaw]
  exact h.after (Copies.safe_of_const fun _ => Iff.rfl)

theorem made_onKeys {K : Nat → Prop} {γ γ' : KvStore} (h : Made K (keyView γ) (keyView γ'))
    (kc : KeyCacheConfig) (hsafe : Safe zeros e.scope.Covers K (keyView γ)) :
    Made K (keyView (e.onKeys kc γ)) (keyView (e.onKeys kc γ').settle) := by
  rw [keyView_settle, keyView_onKeys, keyView_onKeys]
  exact h.after hsafe

theorem made_onState {K : CompTensorKind × Nat → Prop} {γ γ' : CompStore}
    (h : Made K (compView γ) (compView γ')) (hsafe : Safe zeros e.scope.Covers K (compView γ)) :
    Made K (compView (e.onState γ)) (compView (e.onState γ').update) := by
  rw [compView_settle, compView_onState, compView_onState]
  exact h.after hsafe

end Store

/-- One effect, with the copies put off and with the copies made. -/
theorem AllMade.apply {γ γ' : Contents} (h : AllMade c γ γ') {e : Effect} (hsafe : SafeScope c e.scope γ) :
    AllMade c (e.apply c γ) (e.apply c γ').settle where
  base := made_onRaw h.base _
  swa := made_onRaw h.swa _
  csa := made_onKeys h.csa _ hsafe.csa
  hca := made_onKeys h.hca _ hsafe.hca
  lid := made_onKeys h.lid _ hsafe.lid
  csaState := made_onState h.csaState hsafe.csaState
  hcaState := made_onState h.hcaState hsafe.hcaState
  lidState := made_onState h.lidState hsafe.lidState

variable (c) in
/-- The call zeroes nothing that a queued copy still has to bring elsewhere. -/
def Call.Safe (σ : Dsv4State) (call : Call) : Prop := SafeScope c (call.effect c σ).scope σ.contents

variable (c) in
def SafeRun : Dsv4State → List Call → Prop
  | _, [] => True
  | σ, call :: calls => call.Safe c σ ∧ ∀ σ', step c σ call = some σ' → SafeRun σ' calls

/-- What a call does to the contents of its own state. -/
theorem contents_of_acts {f : Dsv4State → Option Dsv4State} {e : Contents → Contents} (h : Acts f e σ σ')
    (hrun : f σ = some σ') : σ'.contents = e σ.contents := by
  have hself : some σ' = some (σ'.withContents (e σ.contents)) := hrun.symm.trans (h σ.contents)
  have heq := congrArg Dsv4State.contents (some.inj hself)
  rwa [contents_withContents] at heq

theorem run_made {calls : List Call} (hcalls : ∀ call ∈ calls, call.Manages)
    (hrun : calls.foldlM (step c) σ = some σ') (hsafe : SafeRun c σ calls) {γ : Contents}
    (h : AllMade c σ.contents γ) :
    ∃ γ', calls.foldlM (immediately c) (σ.withContents γ) = some (σ'.withContents γ') ∧ AllMade c σ'.contents γ' := by
  induction calls generalizing σ γ with
  | nil =>
    obtain rfl := some.inj hrun
    exact ⟨γ, rfl, h⟩
  | cons call calls ih =>
    obtain ⟨σ₁, hone, hrest⟩ := bind_eq_some_iff.mp hrun
    have hacts := step_acts c (hcalls call mem_cons_self) hone
    have hnext : AllMade c σ₁.contents ((call.effect c σ).apply c γ).settle := by
      rw [contents_of_acts hacts hone]
      exact h.apply hsafe.1
    obtain ⟨γ', himm, hmade⟩ :=
      ih (fun call' hc => hcalls call' (mem_cons_of_mem _ hc)) hrest (hsafe.2 σ₁ hone) hnext
    refine ⟨γ', ?_, hmade⟩
    have hstep : immediately c (σ.withContents γ) call =
        some (σ₁.withContents ((call.effect c σ).apply c γ).settle) := by
      have hstep : step c (σ.withContents γ) call = _ := hacts γ
      unfold immediately
      rw [hstep]
      rfl
    change (immediately c (σ.withContents γ) call).bind (fun σ => calls.foldlM (immediately c) σ) = _
    rw [hstep, bind_some, himm]

/-! ## The update -/

/-- What is known of the K-shift graph: it reads the cells and not the queue, and the keys
of a layer become a function of the keys of the layer. -/
structure ShiftOk (shift : KvCache → KvData → KvData) : Prop where
  queue : ∀ kv q data, shift (kv.withQueue q) data = shift kv data
  keys : ∀ kv data data' layer, (∀ t, data ⟨.k, layer, t⟩ = data' ⟨.k, layer, t⟩) →
    ∀ t, shift kv data ⟨.k, layer, t⟩ = shift kv data' ⟨.k, layer, t⟩

section Update

variable {shift : KvCache → KvData → KvData} {computed : Bool} {kv : KvConfig} {κ κ₁ : KvState} {γ : KvStore}

theorem update_raw (hshift : ShiftOk shift) (hsh : kv.shared = false)
    (h : Made (fun _ => True) (rawView κ.store) (rawView γ)) :
    (κ.withStore γ).update kv shift computed = κ.update kv shift computed := by
  have hq : γ.scInfo = [] := h.queue
  have hdata : γ.data = KvState.copyStreams κ.cache.scInfo κ.data := by
    funext tensor
    have htable := h.data (tensor.kind, tensor.layer) trivial
    have hstreams := KvState.streams_copyStreams κ.cache.scInfo κ.data tensor.kind tensor.layer
    exact congrFun (htable.trans hstreams.symm) tensor.strm
  have hnone : KvState.copyStreams [] γ.data = γ.data := rfl
  unfold KvState.update
  rw [KvState.withStore_cache, KvState.withStore_data, KvCache.update_withQueue,
    KvCache.withQueue_scInfo, hq, hnone, hdata]
  simp only [hsh, Bool.false_eq_true, if_false, hshift.queue]
  rfl

theorem update_keys (hshift : ShiftOk shift) (hsh : kv.shared = false) {K : Nat → Prop}
    (h : Made K (keyView κ.store) (keyView γ)) (hrun : κ.update kv shift computed = some κ₁) :
    ∃ κ₂, (κ.withStore γ).update kv shift computed = some κ₂ ∧ κ₂.cache = κ₁.cache ∧
      ∀ layer, K layer → ∀ t, κ₂.data ⟨.k, layer, t⟩ = κ₁.data ⟨.k, layer, t⟩ := by
  have hq : γ.scInfo = [] := h.queue
  have hdata : ∀ layer, K layer → ∀ t,
      γ.data ⟨.k, layer, t⟩ = KvState.copyStreams κ.cache.scInfo κ.data ⟨.k, layer, t⟩ := by
    intro layer hlayer t
    have hstreams := KvState.streams_copyStreams κ.cache.scInfo κ.data .k layer
    exact congrFun ((h.data layer hlayer).trans hstreams.symm) t
  have hnone : KvState.copyStreams [] γ.data = γ.data := rfl
  have hshifts : (κ.cache.withQueue []).getHasShift kv = κ.cache.getHasShift kv := rfl
  unfold KvState.update at hrun ⊢
  obtain ⟨cache, hcache, rfl⟩ := map_eq_some_iff.mp hrun
  rw [KvState.withStore_cache, KvState.withStore_data, KvCache.update_withQueue, hcache,
    KvCache.withQueue_scInfo, hq, hnone]
  refine ⟨_, rfl, rfl, fun layer hlayer t => ?_⟩
  simp only [hsh, Bool.false_eq_true, if_false, hshift.queue, hshifts]
  split
  · exact hshift.keys _ _ _ layer (hdata layer hlayer) t
  · exact hdata layer hlayer t

end Update

variable (c) in
/-- The same cells, raw tensors, compressed rows and compressor states for every sequence. -/
structure SameContents (σ σ' : Dsv4State) : Prop where
  raw : σ'.raw = σ.raw
  csa : σ'.csa.cache = σ.csa.cache
  hca : σ'.hca.cache = σ.hca.cache
  lid : σ'.lid.cache = σ.lid.cache
  csaRows : ∀ layer < c.csa.layers.length, ∀ t, σ'.csa.data ⟨.k, layer, t⟩ = σ.csa.data ⟨.k, layer, t⟩
  hcaRows : ∀ layer < c.hca.layers.length, ∀ t, σ'.hca.data ⟨.k, layer, t⟩ = σ.hca.data ⟨.k, layer, t⟩
  lidRows : ∀ layer < c.lid.layers.length, ∀ t, σ'.lid.data ⟨.k, layer, t⟩ = σ.lid.data ⟨.k, layer, t⟩
  csaState : ∀ kind, ∀ layer < c.csaState.layers.length, ∀ t,
    σ'.csaState.data ⟨kind, layer, t⟩ = σ.csaState.data ⟨kind, layer, t⟩
  hcaState : ∀ kind, ∀ layer < c.hcaState.layers.length, ∀ t,
    σ'.hcaState.data ⟨kind, layer, t⟩ = σ.hcaState.data ⟨kind, layer, t⟩
  lidState : ∀ kind, ∀ layer < c.lidState.layers.length, ∀ t,
    σ'.lidState.data ⟨kind, layer, t⟩ = σ.lidState.data ⟨kind, layer, t⟩

theorem update_state {n : Nat} {γ γ' : CompStore} (h : Made (·.2 < n) (compView γ) (compView γ'))
    (kind : CompTensorKind) {layer : Nat} (hlayer : layer < n) (t : Nat) :
    γ'.update.data ⟨kind, layer, t⟩ = γ.update.data ⟨kind, layer, t⟩ := by
  have hq : γ'.scInfo = [] := h.queue
  have hstreams := applyCopies_streams γ.scInfo γ.data kind layer
  unfold CompStore.update
  rw [hq]
  exact congrFun ((h.data (kind, layer) hlayer).trans hstreams.symm) t

/-- The update makes the contents equal to those of a cache whose copies were made. -/
theorem update_made {shift : KvCache → KvData → KvData} (hshift : ShiftOk shift) {computed : Bool}
    {done : Dsv4State} {γ : Contents} (h : AllMade c σ.contents γ)
    (hrun : update c shift computed σ = some done) :
    ∃ done', update c shift computed (σ.withContents γ) = some done' ∧ SameContents c done done' := by
  obtain ⟨raw, hraw, hrun⟩ := bind_eq_some_iff.mp hrun
  obtain ⟨csa, hcsa, hrun⟩ := bind_eq_some_iff.mp hrun
  obtain ⟨hca, hhca, hrun⟩ := bind_eq_some_iff.mp hrun
  obtain ⟨lid, hlid, rfl⟩ := map_eq_some_iff.mp hrun
  have hraw' : Iswa.update c.raw shift computed (σ.withContents γ).raw = some raw := by
    unfold Iswa.update at hraw ⊢
    dsimp only [Dsv4State.withContents]
    rw [update_raw hshift c.raw.base_shared h.base, update_raw hshift c.raw.swa_shared h.swa]
    exact hraw
  obtain ⟨csa', hcsa', hc₁, hr₁⟩ := update_keys hshift (c.owned _ (by simp)) h.csa hcsa
  obtain ⟨hca', hhca', hc₂, hr₂⟩ := update_keys hshift (c.owned _ (by simp)) h.hca hhca
  obtain ⟨lid', hlid', hc₃, hr₃⟩ := update_keys hshift (c.owned _ (by simp)) h.lid hlid
  unfold update
  rw [hraw', bind_some]
  dsimp only [Dsv4State.withContents]
  rw [hcsa', bind_some, hhca', bind_some, hlid']
  exact ⟨_, rfl,
    { raw := rfl, csa := hc₁, hca := hc₂, lid := hc₃, csaRows := hr₁, hcaRows := hr₂, lidRows := hr₃
      csaState := fun kind _ hlayer t => update_state h.csaState kind hlayer t
      hcaState := fun kind _ hlayer t => update_state h.hcaState kind hlayer t
      lidState := fun kind _ hlayer t => update_state h.lidState kind hlayer t }⟩

/-- A graph that leaves the keys alone. -/
theorem shiftOk_id : ShiftOk fun _ data => data := ⟨fun _ _ _ => rfl, fun _ _ _ _ h => h⟩

/-- The first user has four tokens, and a graph has written compressed rows. -/
def firstUser : List Call :=
  [.decode [KvCache.restoreUbatch (streamConfig 4 .none) 0 [(0, {}), (1, {}), (2, {}), (3, {})]] 1,
    .compute (fun _ _ => 0) (fun _ _ => 0) (fun _ _ => 7) (fun _ _ => 7) (fun _ _ => 7) (fun _ _ => 0)
      (fun _ _ => 0) (fun _ _ => 0)]

/-- The first user is copied to the second and removed. -/
def moveUser : List Call := [.seqCp 0 1 (-1) (-1), .seqRm (some 0) (-1) (-1)]

end Dsv4

end LlamaCpp
