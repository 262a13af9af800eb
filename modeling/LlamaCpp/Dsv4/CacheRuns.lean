import LlamaCpp.Dsv4.Cache
import LlamaCpp.Kv.IswaInvariant

/-!
# Runs of the DSV4 cache

`Reachable` collects the states that the calls of `llama_memory_i` and the graphs of the
batches lead to from a new cache, with restores of states that such a cache has saved.
A graph may write any tensor, so `compute` replaces all of them.

The raw cache is well kept in every reachable state (`Reachable.inv`): the stores of
compressed keys never touch it.
-/

namespace LlamaCpp.Dsv4

open Option

open Readers (Reader Keeps putLE)
open KvCache (UbatchOk CopyOk)

variable {c : Dsv4Config} {σ σ' σ₀ : Dsv4State}

/-! ## The calls -/

/-- A call of `llama_memory_i`, or what a batch does. -/
inductive Call where
  | clear (data : Bool)
  | seqRm (seqId : Option SeqId) (p0 p1 : Int)
  | seqCp (s d : SeqId) (p0 p1 : Int)
  | seqKeep (s : SeqId)
  | seqAdd (s : SeqId) (p0 p1 shift : Int)
  | seqDiv (s : SeqId) (p0 p1 d : Int)
  | update (shift : KvCache → KvData → KvData) (computed : Bool)
  /-- Prepare the ubatches, and apply the first `n` of them to the raw cache. -/
  | decode (ubatches : List LlamaUbatch) (n : Nat)
  /-- The graphs of a batch write the tensors. -/
  | compute (base swa csa hca lid : KvData) (csaState hcaState lidState : CompData)

/-- The tensors of every store are replaced. -/
def computed (base swa csa hca lid : KvData) (csaState hcaState lidState : CompData)
    (σ : Dsv4State) : Dsv4State where
  raw := ⟨{ σ.raw.base with data := base }, { σ.raw.swa with data := swa }⟩
  csa := { σ.csa with data := csa }
  hca := { σ.hca with data := hca }
  lid := { σ.lid with data := lid }
  csaState := { σ.csaState with data := csaState }
  hcaState := { σ.hcaState with data := hcaState }
  lidState := { σ.lidState with data := lidState }

variable (c) in
def step (σ : Dsv4State) : Call → Option Dsv4State
  | .clear data => clear c data σ
  | .seqRm seqId p0 p1 => (seqRm c seqId p0 p1 σ).map Prod.fst
  | .seqCp s d p0 p1 => seqCp c s d p0 p1 σ
  | .seqKeep s => seqKeep c s σ
  | .seqAdd s p0 p1 shift => seqAdd c s p0 p1 shift σ
  | .seqDiv s p0 p1 d => seqDiv c s p0 p1 d σ
  | .update shift computed => update c shift computed σ
  | .decode ubatches n => (Iswa.decode c.raw ubatches n σ.raw).map fun raw => { σ with raw := raw }
  | .compute base swa csa hca lid csaState hcaState lidState =>
    some (computed base swa csa hca lid csaState hcaState lidState σ)

variable (c) in
/-- The assertions that the call makes on the raw cache. -/
def Call.Ok (σ : Dsv4State) : Call → Prop
  | .seqCp s d p0 p1 =>
    CopyOk c.raw.base σ.raw.base.cache s d p0 p1 ∧ CopyOk c.raw.swa σ.raw.swa.cache s d p0 p1
  | .seqDiv _ _ _ d => 1 ≤ d
  | .decode ubatches _ => ∀ u ∈ ubatches, UbatchOk c.raw.base u
  | _ => True

variable {s : SeqId} {P : IswaState → Prop}

variable (c) in
inductive Reachable : Dsv4State → Prop
  | init : Reachable (init c)
  | step {σ σ' : Dsv4State} {call : Call} (h : Reachable σ) (hok : call.Ok c σ)
      (hrun : step c σ call = some σ') : Reachable σ'
  /-- What another state has saved is restored, and the restore may throw. -/
  | restore {σ σ' σ₀ : Dsv4State} {src dest : Option SeqId} {partialOnly : Bool}
      {saved rest : List UInt8} (h : Reachable σ) (hsrc : Reachable σ₀)
      (hfits : Iswa.Fits c.raw σ₀.raw) (hmatch : Iswa.Matches c.raw src dest)
      (hsaved : stateWrite c σ₀ src partialOnly = some saved)
      (hrun : Readers.state? (stateRead c dest partialOnly) ⟨saved ++ rest, σ⟩ = some σ') :
      Reachable σ'

/-! ## The raw cache -/

theorem clearCompressed_raw {seqId : Option SeqId} (hrun : clearCompressed c seqId σ = some σ') : σ'.raw = σ.raw := by
  unfold clearCompressed at hrun
  cases seqId with
  | none =>
    obtain rfl := some.inj hrun
    rfl
  | some s =>
    dsimp only at hrun
    split_ifs at hrun
    obtain ⟨csa, -, hrun⟩ := bind_eq_some_iff.mp hrun
    obtain ⟨hca, -, hrun⟩ := bind_eq_some_iff.mp hrun
    obtain ⟨lid, -, rfl⟩ := map_eq_some_iff.mp hrun
    rfl

theorem inv_rmTail {p0 : Int} {ok : Bool} (h : Iswa.Inv c.raw σ.raw)
    (hrun : rmTail c s p0 σ = some (σ', ok)) : Iswa.Inv c.raw σ'.raw := by
  unfold rmTail at hrun
  obtain ⟨⟨raw, r₀⟩, hraw, hrun⟩ := bind_eq_some_iff.mp hrun
  obtain ⟨⟨csa, r₁⟩, -, hrun⟩ := bind_eq_some_iff.mp hrun
  obtain ⟨⟨hca, r₂⟩, -, hrun⟩ := bind_eq_some_iff.mp hrun
  obtain ⟨⟨lid, r₃⟩, -, heq⟩ := map_eq_some_iff.mp hrun
  obtain ⟨rfl, -⟩ := Prod.mk.inj heq
  exact h.seqRm hraw

theorem inv_seqRm {seqId : Option SeqId} {p0 p1 : Int} {ok : Bool} (h : Iswa.Inv c.raw σ.raw)
    (hrun : seqRm c seqId p0 p1 σ = some (σ', ok)) : Iswa.Inv c.raw σ'.raw := by
  have hsame : ∀ {ok'}, some (σ, ok') = some (σ', ok) → Iswa.Inv c.raw σ'.raw := fun heq => by
    obtain ⟨rfl, -⟩ := Prod.mk.inj (some.inj heq)
    exact h
  unfold seqRm at hrun
  split_ifs at hrun with hp1 hp0
  · exact hsame hrun
  · cases seqId with
    | none => exact hsame hrun
    | some s =>
      dsimp only at hrun
      split_ifs at hrun
      · exact hsame hrun
      · exact inv_rmTail h hrun
  · obtain ⟨⟨raw, res⟩, hraw, hrun⟩ := bind_eq_some_iff.mp hrun
    dsimp only at hrun
    split_ifs at hrun
    · obtain ⟨σ₁, hclear, heq⟩ := map_eq_some_iff.mp hrun
      obtain ⟨rfl, -⟩ := Prod.mk.inj heq
      rw [clearCompressed_raw hclear]
      exact h.seqRm hraw
    · obtain ⟨rfl, -⟩ := Prod.mk.inj (some.inj hrun)
      exact h.seqRm hraw

theorem inv_seqKeep (h : Iswa.Inv c.raw σ.raw) (hrun : seqKeep c s σ = some σ') : Iswa.Inv c.raw σ'.raw := by
  unfold seqKeep at hrun
  split_ifs at hrun
  obtain ⟨raw, hkeep, hrun⟩ := bind_eq_some_iff.mp hrun
  refine Loops.foldlM_inv (I := fun σ => Iswa.Inv c.raw σ.raw) (h.seqKeep hkeep)
    (fun id _ σ₁ σ₂ hinv hdrop => ?_) hrun
  unfold dropOther at hdrop
  split_ifs at hdrop
  · exact some.inj hdrop ▸ hinv
  · obtain ⟨⟨raw₁, res⟩, hraw, hclear⟩ := bind_eq_some_iff.mp hdrop
    rw [clearCompressed_raw hclear]
    exact hinv.seqRm hraw

theorem inv_seqCp {d : SeqId} {p0 p1 : Int} (h : Iswa.Inv c.raw σ.raw)
    (hbase : CopyOk c.raw.base σ.raw.base.cache s d p0 p1)
    (hswa : CopyOk c.raw.swa σ.raw.swa.cache s d p0 p1) (hrun : seqCp c s d p0 p1 σ = some σ') :
    Iswa.Inv c.raw σ'.raw := by
  unfold seqCp at hrun
  obtain ⟨-, hrun⟩ := ite_none_left_eq_some.mp hrun
  obtain ⟨raw, hraw, hrun⟩ := bind_eq_some_iff.mp hrun
  obtain ⟨csa, -, hrun⟩ := bind_eq_some_iff.mp hrun
  obtain ⟨hca, -, hrun⟩ := bind_eq_some_iff.mp hrun
  obtain ⟨lid, -, hrun⟩ := bind_eq_some_iff.mp hrun
  obtain ⟨-, hrun⟩ := ite_none_left_eq_some.mp hrun
  obtain rfl := some.inj hrun
  exact h.seqCp hbase hswa hraw

theorem inv_update {shift : KvCache → KvData → KvData} {computed : Bool} (h : Iswa.Inv c.raw σ.raw)
    (hrun : update c shift computed σ = some σ') : Iswa.Inv c.raw σ'.raw := by
  unfold update at hrun
  obtain ⟨raw, hraw, hrun⟩ := bind_eq_some_iff.mp hrun
  obtain ⟨csa, -, hrun⟩ := bind_eq_some_iff.mp hrun
  obtain ⟨hca, -, hrun⟩ := bind_eq_some_iff.mp hrun
  obtain ⟨lid, -, rfl⟩ := map_eq_some_iff.mp hrun
  exact h.update hraw

theorem inv_step {call : Call} (h : Iswa.Inv c.raw σ.raw) (hok : call.Ok c σ)
    (hrun : step c σ call = some σ') : Iswa.Inv c.raw σ'.raw := by
  cases call with
  | clear data =>
    have hraw := clearCompressed_raw (show clearCompressed c none _ = some σ' from hrun)
    rw [hraw]
    exact h.clear data
  | seqRm seqId p0 p1 =>
    obtain ⟨⟨_, ok⟩, hrm, rfl⟩ := map_eq_some_iff.mp hrun
    exact inv_seqRm h hrm
  | seqCp s d p0 p1 => exact inv_seqCp h hok.1 hok.2 hrun
  | seqKeep s => exact inv_seqKeep h hrun
  | seqAdd s p0 p1 shift =>
    obtain ⟨raw, hraw, rfl⟩ := map_eq_some_iff.mp hrun
    exact h.seqAdd hraw
  | seqDiv s p0 p1 d =>
    obtain ⟨raw, hraw, rfl⟩ := map_eq_some_iff.mp hrun
    exact h.seqDiv hok hraw
  | update shift computed => exact inv_update h hrun
  | decode ubatches n =>
    obtain ⟨raw, hraw, rfl⟩ := map_eq_some_iff.mp hrun
    exact h.decode hok hraw
  | compute =>
    obtain rfl := some.inj hrun
    exact ⟨h.base, h.swa⟩

/-! ## Restores -/

/-- The header is accepted by a restore of the same kind. -/
theorem readHeader_run (partialOnly : Bool) (rest : List UInt8) (σ : Dsv4State) :
    readHeader partialOnly ⟨putLE 4 stateMagic ++ (putLE 4 stateVersion ++
      (putLE 4 (if partialOnly then stateModePartial else stateModeFull) ++ rest)), σ⟩ =
      .ok () ⟨rest, σ⟩ := by
  unfold readHeader
  rw [Readers.bind_ok (Readers.takeLE_putLE (by decide) _ σ),
    Readers.bind_ok (Readers.takeLE_putLE (by decide) _ σ), if_neg (by simp), if_neg (by simp),
    Readers.bind_ok (Readers.takeLE_putLE (by cases partialOnly <;> decide) _ σ)]
  cases partialOnly <;> rfl

/-- What the readers of the other stores do to their tensors does not matter to the raw
cache. -/
theorem keeps_true {τ α : Type} (x : Reader τ α) : Keeps (fun _ => True) x := fun s _ => by
  cases x s <;> trivial

theorem keeps_raw {τ α : Type} {get : Dsv4State → τ} {put : Dsv4State → τ → Dsv4State}
    (hput : ∀ σ t, (put σ t).raw = σ.raw) (x : Reader τ α) :
    Keeps (fun σ => P σ.raw) (Readers.zoom get put x) :=
  (keeps_true x).zoom (fun _ _ => trivial) fun σ t h _ => (hput σ t).symm ▸ h

theorem keeps_raw_readKeyCaches (seqId : Option SeqId) : Keeps (fun σ => P σ.raw) (readKeyCaches c seqId) := by
  have hclear : Keeps (fun σ : Dsv4State => P σ.raw) (Readers.modifySt (clearKeyCaches c)) :=
    Readers.keeps_modifySt fun _ h => h
  refine hclear.seq fun _ => Keeps.seq ?_ fun _ => Keeps.seq ?_ fun _ => ?_
  all_goals exact keeps_raw (by intros; rfl) _

theorem keeps_raw_readCompStates (seqId : Option SeqId) : Keeps (fun σ => P σ.raw) (readCompStates c seqId) := by
  refine Keeps.seq ?_ fun _ => Keeps.seq ?_ fun _ => ?_
  all_goals exact keeps_raw (by intros; rfl) _

/-- A saved state is the header, the raw cache, and what the other stores saved. -/
theorem stateWrite_eq_some {src : Option SeqId} {partialOnly : Bool} {saved : List UInt8}
    (h : stateWrite c σ src partialOnly = some saved) : ∃ tail, saved = putLE 4 stateMagic ++
      (putLE 4 stateVersion ++ (putLE 4 (if partialOnly then stateModePartial else stateModeFull) ++
        (Iswa.stateWrite c.raw σ.raw src partialOnly ++ tail))) := by
  unfold stateWrite at h
  obtain ⟨csa, -, h⟩ := bind_eq_some_iff.mp h
  obtain ⟨hca, -, h⟩ := bind_eq_some_iff.mp h
  obtain ⟨lid, -, h⟩ := bind_eq_some_iff.mp h
  obtain ⟨csaState, -, h⟩ := bind_eq_some_iff.mp h
  obtain ⟨hcaState, -, h⟩ := bind_eq_some_iff.mp h
  obtain ⟨lidState, -, h⟩ := bind_eq_some_iff.mp h
  exact ⟨_, (some.inj h).symm⟩

theorem inv_restore {src dest : Option SeqId} {partialOnly : Bool} {saved rest : List UInt8}
    (h : Iswa.Inv c.raw σ.raw) (hsrc : Iswa.Inv c.raw σ₀.raw) (hfits : Iswa.Fits c.raw σ₀.raw)
    (hmatch : Iswa.Matches c.raw src dest) (hsaved : stateWrite c σ₀ src partialOnly = some saved)
    (hrun : Readers.state? (stateRead c dest partialOnly) ⟨saved ++ rest, σ⟩ = some σ') :
    Iswa.Inv c.raw σ'.raw := by
  obtain ⟨tail, rfl⟩ := stateWrite_eq_some hsaved
  simp only [List.append_assoc] at hrun
  unfold stateRead at hrun
  rw [Readers.state?_bind_ok (readHeader_run partialOnly _ σ)] at hrun
  have hraw : Readers.Settles (fun σ => Iswa.Inv c.raw σ.raw) (tail ++ rest)
      (readRaw c dest partialOnly
        ⟨Iswa.stateWrite c.raw σ₀.raw src partialOnly ++ (tail ++ rest), σ⟩) :=
    (Iswa.inv_stateRead hsrc hfits h hmatch partialOnly _).zoom fun _ hinv => hinv
  refine hraw.state?_bind (fun _ => .ite (keeps_raw_readCompStates dest) ?_) hrun
  exact (keeps_raw_readKeyCaches dest).seq fun _ => keeps_raw_readCompStates dest

/-- The raw cache is well kept in every state. -/
theorem Reachable.inv (h : Reachable c σ) : Iswa.Inv c.raw σ.raw := by
  induction h with
  | init => exact Iswa.inv_init
  | step _ hok hrun ih => exact inv_step ih hok hrun
  | restore _ _ hfits hmatch hsaved hrun ih ihsrc =>
    exact inv_restore ih ihsrc hfits hmatch hsaved hrun

end LlamaCpp.Dsv4
