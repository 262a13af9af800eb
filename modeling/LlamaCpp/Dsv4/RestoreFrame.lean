import LlamaCpp.Dsv4.CacheRuns

/-!
# What a restore of one sequence does to the others

Every store of the cache has a stream for each sequence, and the readers of a restore of
`s` write the stream of `s` alone (`keeps_readRaw`, `keeps_readKeyCache`,
`keeps_readCompState`).  But a full restore clears the caches of compressed keys first,
and it clears them whole: behind the raw section nothing is left of the rows of the other
sequences (`stateRead_within`).

`stateRead_framed_iff` says when the others keep what they can see.
-/

namespace LlamaCpp.Dsv4

open Readers (Reader Keeps)
open KvCache (DataWithin)

variable {c : Dsv4Config} {s : SeqId} {σ σ' σ₀ : Dsv4State}

/-! ## One stream -/

theorem dstStream_some {n ns s0 : Nat} (hn : 1 < n) (h : dstStream n (some s) ns = some s0) :
    s0 = s.val ∧ ns = 1 := by
  unfold dstStream at h
  dsimp only at h
  split_ifs at h with hns
  · exact ⟨(Option.some.inj h).symm, not_not.mp hns⟩

section Streams

variable {ρ : Type} {P : ρ → Prop} {put : Nat → List UInt8 → ρ → ρ} {t : Nat}

theorem keeps_readStreams_one (hput : ∀ bytes data, P data → P (put t bytes data)) (size : Nat) :
    Keeps P (readStreams put size t 1) :=
  (Readers.keeps_take size).seq fun bytes =>
    (Readers.keeps_modifySt (hput bytes)).seq fun _ => Readers.keeps_pure ()

theorem keeps_readTensorStreams_one (hput : ∀ bytes data, P data → P (put t bytes data))
    (shape : RowShape) (tensorRows nRows : Nat) :
    Keeps P (readTensorStreams shape tensorRows nRows t 1 put) :=
  (Readers.keeps_takeLE 4).seq fun _ => (Readers.keeps_takeLE 8).seq fun _ =>
    (Readers.keeps_takeLE 8).seq fun _ => (Readers.keeps_takeLE 8).seq fun _ =>
      .ite Readers.keeps_throwing (.ite Readers.keeps_throwing (keeps_readStreams_one hput _))

theorem keeps_readLayer (il : UInt32) {x : Reader ρ Unit} (hx : Keeps P x) : Keeps P (readLayer il x) :=
  (Readers.keeps_takeLE 4).seq fun _ => .ite Readers.keeps_throwing hx

end Streams

/-- Only tensors of stream `t` may differ from `data₀`. -/
def CompWithin (t : Nat) (data₀ data : CompData) : Prop :=
  ∀ tensor, tensor.strm ≠ t → data tensor = data₀ tensor

theorem dataWithin_store {t : Nat} {data₀ data : KvData} (h : DataWithin t data₀ data)
    (kind : KvTensorKind) (layer offset : Nat) (bytes : List UInt8) :
    DataWithin t data₀ (data.store ⟨kind, layer, t⟩ offset bytes) := by
  intro tensor ht
  rw [← h tensor ht]
  funext j
  refine if_neg fun hj => ht ?_
  rw [hj.1]

theorem compWithin_store {t : Nat} {data₀ data : CompData} (h : CompWithin t data₀ data)
    (kind : CompTensorKind) (layer : Nat) (bytes : List UInt8) :
    CompWithin t data₀ (data.store ⟨kind, layer, t⟩ bytes) := by
  intro tensor ht
  rw [← h tensor ht]
  funext j
  refine if_neg fun hj => ht ?_
  rw [hj.1]

theorem keeps_readKeyCache {kc : KeyCacheConfig} (hn : 1 < kc.cells.nStream) (data₀ : KvData) :
    Keeps (DataWithin s.val data₀) (readKeyCache kc (some s)) := by
  refine (Readers.keeps_takeLE 4).seq fun _ => (Readers.keeps_takeLE 4).seq fun nRows =>
    (Readers.keeps_takeLE 4).seq fun ns => (Readers.keeps_takeLE 4).seq fun _ =>
      .ite Readers.keeps_throwing (.ite Readers.keeps_throwing (.ite Readers.keeps_throwing ?_))
  cases hdst : dstStream kc.cells.nStream (some s) ns with
  | none => exact Readers.keeps_throwing
  | some s0 =>
    obtain ⟨rfl, rfl⟩ := dstStream_some hn hdst
    exact .ite Readers.keeps_throwing (.forM _ fun x _ => keeps_readLayer _
      (keeps_readTensorStreams_one (fun bytes _ h => dataWithin_store h _ _ _ bytes) _ _ _))

theorem keeps_readCompState {nStream : Nat} (hn : 1 < nStream) (sc : CompStateConfig)
    (data₀ : CompData) : Keeps (CompWithin s.val data₀) (readCompState nStream sc (some s)) := by
  refine (Readers.keeps_takeLE 4).seq fun _ => (Readers.keeps_takeLE 4).seq fun _ =>
    (Readers.keeps_takeLE 4).seq fun _ => (Readers.keeps_takeLE 4).seq fun _ =>
      (Readers.keeps_takeLE 4).seq fun ns => (Readers.keeps_takeLE 4).seq fun _ =>
        .ite Readers.keeps_throwing (.ite Readers.keeps_throwing (.ite Readers.keeps_throwing ?_))
  cases hdst : dstStream nStream (some s) ns with
  | none => exact Readers.keeps_throwing
  | some s0 =>
    obtain ⟨rfl, rfl⟩ := dstStream_some hn hdst
    exact .forM _ fun x _ => keeps_readLayer _
      ((keeps_readTensorStreams_one (fun bytes _ h => compWithin_store h _ _ bytes) _ _ _).seq
        fun _ => keeps_readTensorStreams_one (fun bytes _ h => compWithin_store h _ _ bytes) _ _ _)

/-! ## All stores -/

variable (c s) in
/-- Only the stream of `s` may differ from `σ₀`, in every store. -/
structure Within (σ₀ σ : Dsv4State) : Prop where
  raw : Iswa.Within c.raw s σ₀.raw σ.raw
  csa : DataWithin s.val σ₀.csa.data σ.csa.data
  hca : DataWithin s.val σ₀.hca.data σ.hca.data
  lid : DataWithin s.val σ₀.lid.data σ.lid.data
  csaState : CompWithin s.val σ₀.csaState.data σ.csaState.data
  hcaState : CompWithin s.val σ₀.hcaState.data σ.hcaState.data
  lidState : CompWithin s.val σ₀.lidState.data σ.lidState.data

theorem base_nStream (c : Dsv4Config) : c.raw.base.nStream = c.nSeqMax := c.streams _ (by simp)

theorem csa_nStream (c : Dsv4Config) : c.csa.cells.nStream = c.nSeqMax := c.streams _ (by simp)

theorem hca_nStream (c : Dsv4Config) : c.hca.cells.nStream = c.nSeqMax := c.streams _ (by simp)

theorem lid_nStream (c : Dsv4Config) : c.lid.cells.nStream = c.nSeqMax := c.streams _ (by simp)

theorem within_refl (h : Iswa.Inv c.raw σ.raw) (hn : 1 < c.nSeqMax) (s : SeqId) : Within c s σ σ where
  raw := h.within ((base_nStream c).symm ▸ hn) s
  csa := fun _ _ => rfl
  hca := fun _ _ => rfl
  lid := fun _ _ => rfl
  csaState := fun _ _ => rfl
  hcaState := fun _ _ => rfl
  lidState := fun _ _ => rfl

theorem Within.clearKeyCaches (h : Within c s σ₀ σ) : Within c s (clearKeyCaches c σ₀) (clearKeyCaches c σ) :=
  { h with csa := fun _ _ => rfl, hca := fun _ _ => rfl, lid := fun _ _ => rfl }

theorem keeps_readHeader {ρ : Type} {P : ρ → Prop} (partialOnly : Bool) : Keeps P (readHeader partialOnly) :=
  (Readers.keeps_takeLE 4).seq fun _ => (Readers.keeps_takeLE 4).seq fun _ =>
    .ite Readers.keeps_throwing (.ite Readers.keeps_throwing ((Readers.keeps_takeLE 4).seq fun _ =>
      .ite Readers.keeps_throwing (.ite Readers.keeps_throwing (Readers.keeps_pure ()))))

theorem keeps_readRaw (partialOnly : Bool) : Keeps (Within c s σ₀) (readRaw c (some s) partialOnly) :=
  (Iswa.keeps_stateRead s σ₀.raw partialOnly).zoom (fun _ h => h.raw) fun _ _ h hraw => { h with raw := hraw }

theorem keeps_readCompStates (hn : 1 < c.nSeqMax) : Keeps (Within c s σ₀) (readCompStates c (some s)) := by
  refine Keeps.seq ?_ fun _ => Keeps.seq ?_ fun _ => ?_
  · exact (keeps_readCompState hn _ _).zoom (fun _ h => h.csaState) fun _ _ h hst => { h with csaState := hst }
  · exact (keeps_readCompState hn _ _).zoom (fun _ h => h.hcaState) fun _ _ h hst => { h with hcaState := hst }
  · exact (keeps_readCompState hn _ _).zoom (fun _ h => h.lidState) fun _ _ h hst => { h with lidState := hst }

variable {t : SeqId}

variable (c s) in
/-- A full restore gets past the header and the raw section, and clears the caches of
compressed keys. -/
def ReachesClear (bytes : List UInt8) (σ : Dsv4State) : Prop :=
  ∃ inp, (do readHeader false; readRaw c (some s) false) ⟨bytes, σ⟩ = .ok () inp

/-- Behind the clear, the other streams are those of the cleared state. -/
theorem ends_readKeyCaches (hn : 1 < c.nSeqMax) {inp : Readers.Input Dsv4State}
    (h : Within c s σ₀ inp.st) :
    Readers.Ends (Within c s (clearKeyCaches c σ₀)) (readKeyCaches c (some s) inp) := by
  unfold readKeyCaches
  rw [Readers.bind_ok (Readers.modifySt_run _ inp)]
  refine Keeps.seq ?_ (fun _ => Keeps.seq ?_ fun _ => ?_) _ h.clearKeyCaches
  · exact (keeps_readKeyCache ((csa_nStream c).symm ▸ hn) _).zoom (fun _ h => h.csa)
      fun _ _ h hkeys => { h with csa := hkeys }
  · exact (keeps_readKeyCache ((hca_nStream c).symm ▸ hn) _).zoom (fun _ h => h.hca)
      fun _ _ h hkeys => { h with hca := hkeys }
  · exact (keeps_readKeyCache ((lid_nStream c).symm ▸ hn) _).zoom (fun _ h => h.lid)
      fun _ _ h hkeys => { h with lid := hkeys }

/-- A restore of `s` keeps the other streams, but a full restore clears the compressed keys
in all of them. -/
theorem stateRead_within (hn : 1 < c.nSeqMax) (hinv : Iswa.Inv c.raw σ.raw) {partialOnly : Bool}
    {bytes : List UInt8}
    (hrun : Readers.state? (stateRead c (some s) partialOnly) ⟨bytes, σ⟩ = some σ') :
    ((partialOnly = true ∨ ¬ReachesClear c s bytes σ) ∧ Within c s σ σ') ∨
      (partialOnly = false ∧ ReachesClear c s bytes σ ∧ Within c s (clearKeyCaches c σ) σ') := by
  have hstart : Within c s σ σ := within_refl hinv hn s
  have hfront : ∀ p, Keeps (Within c s σ) (do readHeader p; readRaw c (some s) p) := fun p =>
    (keeps_readHeader p).seq fun _ => keeps_readRaw p
  have heq : stateRead c (some s) partialOnly = (do readHeader partialOnly; readRaw c (some s) partialOnly) >>=
      fun _ => if partialOnly then readCompStates c (some s)
        else readKeyCaches c (some s) >>= fun _ => readCompStates c (some s) := by
    unfold stateRead
    rw [bind_assoc]
  rw [heq] at hrun
  cases partialOnly with
  | true =>
    have hcomp : Keeps (Within c s σ) (readCompStates c (some s)) := keeps_readCompStates hn
    have hkeeps := (hfront true).seq fun _ => hcomp
    exact .inl ⟨.inl rfl, (hkeeps _ hstart).state? hrun⟩
  | false =>
    have hend := hfront false ⟨bytes, σ⟩ hstart
    cases hfr : (do readHeader false; readRaw c (some s) false : Reader Dsv4State Unit) ⟨bytes, σ⟩ with
    | ok a inp =>
      rw [hfr] at hend
      rw [Readers.state?_bind_ok hfr] at hrun
      have hkeys := ends_readKeyCaches hn hend
      have hall : Readers.Ends (Within c s (clearKeyCaches c σ))
          ((readKeyCaches c (some s) >>= fun _ => readCompStates c (some s)) inp) := by
        cases hk : readKeyCaches c (some s) inp with
        | ok a inp' =>
          rw [hk] at hkeys
          rw [Readers.bind_ok hk]
          exact keeps_readCompStates hn _ hkeys
        | error e inp' =>
          rw [hk] at hkeys
          rw [Readers.bind_error hk]
          exact hkeys
      exact .inr ⟨rfl, ⟨inp, hfr⟩, hall.state? hrun⟩
    | error e inp =>
      have hnot : ¬ReachesClear c s bytes σ := by
        rintro ⟨inp', h⟩
        rw [hfr] at h
        simp at h
      rw [hfr] at hend
      cases e with
      | thrown =>
        rw [Readers.state?_bind_thrown hfr] at hrun
        obtain rfl := Option.some.inj hrun
        exact .inl ⟨.inr hnot, hend⟩
      | abort =>
        rw [Readers.state?_bind_abort hfr] at hrun
        exact absurd hrun (by simp)

/-! ## What the other sequences can see -/

section Visible

variable (c) (kc : KeyCacheConfig) (t : SeqId) (σ : Dsv4State)

/-- The compressed rows that `t` can see are the same. -/
def RowsAgree (data data' : KvData) : Prop :=
  ∀ x ∈ kc.layers.zipIdx, ∀ j < savedRows c kc σ (some t) * x.1.k.rowSize.toNat,
    data' ⟨.k, x.2, t.val⟩ j = data ⟨.k, x.2, t.val⟩ j

/-- The compressed rows that `t` can see hold only zeros. -/
def RowsBlank (data : KvData) : Prop :=
  ∀ x ∈ kc.layers.zipIdx, ∀ j < savedRows c kc σ (some t) * x.1.k.rowSize.toNat,
    data ⟨.k, x.2, t.val⟩ j = 0

/-- What `t` can see is the same. -/
structure SameFor (σ' : Dsv4State) : Prop where
  base : σ'.raw.base.cache.vCells t.val = σ.raw.base.cache.vCells t.val
  swa : σ'.raw.swa.cache.vCells t.val = σ.raw.swa.cache.vCells t.val
  baseData : ∀ tensor, tensor.strm = t.val → σ'.raw.base.data tensor = σ.raw.base.data tensor
  swaData : ∀ tensor, tensor.strm = t.val → σ'.raw.swa.data tensor = σ.raw.swa.data tensor
  csa : RowsAgree c c.csa t σ σ.csa.data σ'.csa.data
  hca : RowsAgree c c.hca t σ σ.hca.data σ'.hca.data
  lid : RowsAgree c c.lid t σ σ.lid.data σ'.lid.data
  csaState : ∀ tensor, tensor.strm = t.val → σ'.csaState.data tensor = σ.csaState.data tensor
  hcaState : ∀ tensor, tensor.strm = t.val → σ'.hcaState.data tensor = σ.hcaState.data tensor
  lidState : ∀ tensor, tensor.strm = t.val → σ'.lidState.data tensor = σ.lidState.data tensor

/-- Every sequence but `s` sees what it saw. -/
def Framed (s : SeqId) (σ' : Dsv4State) : Prop := ∀ t ≠ s, t.val < c.nSeqMax → SameFor c t σ σ'

/-- No sequence but `s` sees a compressed row with anything in it. -/
def OthersBlank (s : SeqId) : Prop :=
  ∀ t ≠ s, t.val < c.nSeqMax →
    RowsBlank c c.csa t σ σ.csa.data ∧ RowsBlank c c.hca t σ σ.hca.data ∧ RowsBlank c c.lid t σ σ.lid.data

end Visible

theorem rowsAgree_of_within {kc : KeyCacheConfig} {data data' : KvData} (ht : t ≠ s)
    (h : DataWithin s.val data data') : RowsAgree c kc t σ data data' := fun x _ j _ =>
  congrFun (h ⟨.k, x.2, t.val⟩ fun h => ht (Fin.ext h)) j

/-- Where the rows were cleared, they are the same if they were blank before. -/
theorem rowsAgree_iff_blank {kc : KeyCacheConfig} {data data' : KvData} (ht : t ≠ s)
    (h : DataWithin s.val (fun _ _ => 0) data') :
    RowsAgree c kc t σ data data' ↔ RowsBlank c kc t σ data := by
  have hzero : ∀ (l j : Nat), data' ⟨.k, l, t.val⟩ j = 0 := fun l j =>
    congrFun (h ⟨.k, l, t.val⟩ fun h => ht (Fin.ext h)) j
  constructor
  · intro hagree x hx j hj
    rw [← hagree x hx j hj, hzero]
  · intro hblank x hx j hj
    rw [hblank x hx j hj, hzero]

theorem Within.sameFor (h : Within c s σ σ') (hn : 1 < c.nSeqMax) (ht : t ≠ s) : SameFor c t σ σ' := by
  have hne : t.val ≠ s.val := fun h => ht (Fin.ext h)
  have hb : c.raw.base.seqToStream s = s.val := if_pos ((base_nStream c).symm ▸ hn)
  have hw : c.raw.swa.seqToStream s = s.val := if_pos (by rw [c.raw.nStream_eq, base_nStream]; exact hn)
  exact
    { base := h.raw.base.cache.cells _ (hb.symm ▸ hne)
      swa := h.raw.swa.cache.cells _ (hw.symm ▸ hne)
      baseData := fun tensor htensor => h.raw.base.data tensor (by rw [hb, htensor]; exact hne)
      swaData := fun tensor htensor => h.raw.swa.data tensor (by rw [hw, htensor]; exact hne)
      csa := rowsAgree_of_within ht h.csa
      hca := rowsAgree_of_within ht h.hca
      lid := rowsAgree_of_within ht h.lid
      csaState := fun tensor htensor => h.csaState tensor (htensor ▸ hne)
      hcaState := fun tensor htensor => h.hcaState tensor (htensor ▸ hne)
      lidState := fun tensor htensor => h.lidState tensor (htensor ▸ hne) }

/-- If the compressed keys were cleared, the others keep what they see exactly if there was
nothing to see in their rows. -/
theorem Within.framed_iff_blank (h : Within c s (Dsv4.clearKeyCaches c σ) σ') (hn : 1 < c.nSeqMax) :
    Framed c σ s σ' ↔ OthersBlank c σ s := by
  refine forall_congr' fun t => forall_congr' fun ht => forall_congr' fun _ => ?_
  constructor
  · intro hsame
    exact ⟨(rowsAgree_iff_blank ht h.csa).mp hsame.csa, (rowsAgree_iff_blank ht h.hca).mp hsame.hca,
      (rowsAgree_iff_blank ht h.lid).mp hsame.lid⟩
  · rintro ⟨hcsa, hhca, hlid⟩
    have hsame := h.sameFor hn ht
    exact
      { base := hsame.base, swa := hsame.swa, baseData := hsame.baseData, swaData := hsame.swaData
        csa := (rowsAgree_iff_blank ht h.csa).mpr hcsa
        hca := (rowsAgree_iff_blank ht h.hca).mpr hhca
        lid := (rowsAgree_iff_blank ht h.lid).mpr hlid
        csaState := hsame.csaState, hcaState := hsame.hcaState, lidState := hsame.lidState }

/-- Two sequences with a stream each, and `n` cells in a stream. -/
def streamConfig (n : Nat) (swaType : LlamaSwaType) : KvConfig where
  nSeqMax := 2
  nStream := 2
  kvSize := n
  nSwa := 8
  swaType := swaType
  msaStrictSlots := false
  nPosPerEmbd := 1
  pleNHeads := 0
  pleImageTokenId := 0
  pleEosTokenId := 0
  canShift := true
  shared := false

/-- A cache for two sequences whose compressed rows have one byte. -/
def twoUsers : Dsv4Config where
  nSeqMax := 2
  raw :=
    { base := streamConfig 4 .none, swa := streamConfig 4 .standard
      baseLayout := KvCache.noLayers, swaLayout := KvCache.noLayers
      base_swaType := rfl, nSeqMax_eq := rfl, nStream_eq := rfl, nStream_cases := .inr rfl
      base_shared := rfl, swa_shared := rfl
      base_fits := ⟨by decide, by decide, by decide⟩
      swa_fits := ⟨by decide, by decide, by decide⟩ }
  csa := ⟨streamConfig 4 .none, [⟨0, 0, 1, 1⟩], csaRatio⟩
  hca := ⟨streamConfig 4 .none, [], hcaRatio⟩
  lid := ⟨streamConfig 4 .none, [], csaRatio⟩
  csaState := ⟨4, 8, 1, []⟩
  hcaState := ⟨128, 128, 1, []⟩
  lidState := ⟨4, 8, 1, []⟩
  streams := by simp [streamConfig]
  owned := by simp [streamConfig]

/-- The second user has four tokens, and a graph has written compressed rows. -/
def secondUser : List Call :=
  [.decode [KvCache.restoreUbatch (streamConfig 4 .none) 1 [(0, {}), (1, {}), (2, {}), (3, {})]] 1,
    .compute (fun _ _ => 0) (fun _ _ => 0) (fun _ _ => 7) (fun _ _ => 7) (fun _ _ => 7) (fun _ _ => 0)
      (fun _ _ => 0) (fun _ _ => 0)]

end LlamaCpp.Dsv4
