import LlamaCpp.Kv.Iswa
import LlamaCpp.Lib.Copies

/-!
# The queue of stream copies

A call reads the cells and not the queue: it does the same with any queue, and what it
adds to it does not depend on what is there (`Adds`).

The tensors of a stream follow the library of `Copies`: `copyStreams` makes the queued
copies on every layer (`copyStreams_apply`).
-/

namespace LlamaCpp

open List Option

open KvCells (Acts)

namespace KvCache

variable {c : KvConfig} {kv kv' : KvCache} {q : List (Nat × Nat)}

def withQueue (kv : KvCache) (q : List (Nat × Nat)) : KvCache := { kv with scInfo := q }

@[simp] theorem withQueue_vCells (kv : KvCache) (q : List (Nat × Nat)) : (kv.withQueue q).vCells = kv.vCells :=
  rfl

@[simp] theorem withQueue_vHeads (kv : KvCache) (q : List (Nat × Nat)) : (kv.withQueue q).vHeads = kv.vHeads :=
  rfl

@[simp] theorem withQueue_scInfo (kv : KvCache) (q : List (Nat × Nat)) : (kv.withQueue q).scInfo = q := rfl

@[simp] theorem withQueue_withQueue (kv : KvCache) (q q' : List (Nat × Nat)) :
    (kv.withQueue q).withQueue q' = kv.withQueue q' := rfl

/-- A call leads from `kv` to `kv'` whatever the queue is, and adds `new` to it. -/
def Adds (f : KvCache → Option KvCache) (new : List (Nat × Nat)) (kv kv' : KvCache) : Prop :=
  ∀ q, f (kv.withQueue q) = some (kv'.withQueue (q ++ new))

/-! ## The calls -/

theorem pass_withQueue (kv : KvCache) (q : List (Nat × Nat)) (t : Nat)
    (act : KvCells → Nat → KvCells × Bool) : (kv.withQueue q).pass t act = (kv.pass t act).withQueue q := by
  unfold pass lowerHead
  by_cases h : ((kv.vCells t).sweep act).2 ≠
      ((kv.setCells t ((kv.vCells t).sweep act).1).vCells t).size ∧
      ((kv.vCells t).sweep act).2 < (kv.setCells t ((kv.vCells t).sweep act).1).vHeads t
  · rw [if_pos h, if_pos (by simpa using h)]
    rfl
  · rw [if_neg h, if_neg (by simpa using h)]
    rfl

theorem rmCells_withQueue (kv : KvCache) (q : List (Nat × Nat)) (seqId : Option SeqId) (p0 p1 : Int) :
    (kv.withQueue q).rmCells c seqId p0 p1 = (kv.rmCells c seqId p0 p1).withQueue q := by
  cases seqId with
  | some s => exact pass_withQueue kv q _ _
  | none =>
    unfold rmCells
    exact foldl_hom (fun kv => KvCache.withQueue kv q) fun kv t => pass_withQueue kv q t _

theorem seqRm_withQueue (kv : KvCache) (q : List (Nat × Nat)) (seqId : Option SeqId) (p0 p1 : Int) :
    (kv.withQueue q).seqRm c seqId p0 p1 = (kv.seqRm c seqId p0 p1).map fun r => (r.1.withQueue q, r.2) := by
  have hmsa : (kv.withQueue q).msaRejects c seqId (rangeLo p0) (rangeHi p1) =
      kv.msaRejects c seqId (rangeLo p0) (rangeHi p1) := rfl
  unfold seqRm
  rw [hmsa, rmCells_withQueue]
  split_ifs <;> rfl

theorem seqKeep_withQueue (kv : KvCache) (q : List (Nat × Nat)) (s : SeqId) :
    (kv.withQueue q).seqKeep c s = (kv.seqKeep c s).map fun kv => kv.withQueue q := by
  unfold seqKeep
  rw [pass_withQueue]
  split_ifs <;> rfl

theorem clear_withQueue (kv : KvCache) (q : List (Nat × Nat)) : (kv.withQueue q).clear c = (kv.clear c).withQueue q :=
  foldl_hom (fun kv => KvCache.withQueue kv q) fun _ _ => rfl

theorem update_withQueue (kv : KvCache) (q : List (Nat × Nat)) (computed : Bool) :
    (kv.withQueue q).update c computed = kv.update c computed := rfl

/-! ## `Adds` -/

theorem adds_seqRm {seqId : Option SeqId} {p0 p1 : Int} {ok : Bool}
    (hrun : kv.seqRm c seqId p0 p1 = some (kv', ok)) (q : List (Nat × Nat)) :
    (kv.withQueue q).seqRm c seqId p0 p1 = some (kv'.withQueue q, ok) := by
  rw [seqRm_withQueue, hrun]
  rfl

theorem adds_seqKeep {s : SeqId} (hrun : kv.seqKeep c s = some kv') : Adds (fun kv => kv.seqKeep c s) [] kv kv' := by
  intro q
  rw [append_nil]
  change (kv.withQueue q).seqKeep c s = _
  rw [seqKeep_withQueue, hrun]
  rfl

/-- The stream copy that a copy of `s` to `d` asks for. -/
def streamCopy (c : KvConfig) (s d : SeqId) : List (Nat × Nat) :=
  if c.shared ∨ c.seqToStream s = c.seqToStream d then [] else [(c.seqToStream s, c.seqToStream d)]

theorem adds_seqCp {s d : SeqId} {p0 p1 : Int} (hrun : kv.seqCp c s d p0 p1 = some kv') :
    Adds (fun kv => kv.seqCp c s d p0 p1) (streamCopy c s d) kv kv' := by
  intro q
  have hsize : (kv.withQueue q).getSize c = kv.getSize c := rfl
  change (kv.withQueue q).seqCp c s d p0 p1 = _
  unfold seqCp at hrun ⊢
  unfold streamCopy
  rw [hsize]
  split_ifs at hrun with hsh hrange hstrm hsd hfull
  · obtain rfl := some.inj hrun
    rw [if_pos hsh, if_pos (.inl hsh), append_nil]
  · obtain rfl := some.inj hrun
    rw [if_neg hsh, if_neg hrange, if_pos hstrm, if_pos hsd, if_pos (.inr hstrm), append_nil]
  · obtain rfl := some.inj hrun
    rw [if_neg hsh, if_neg hrange, if_pos hstrm, if_neg hsd, if_pos (.inr hstrm), append_nil]
    rfl
  · obtain rfl := some.inj hrun
    rw [if_neg hsh, if_neg hrange, if_neg hstrm, if_neg hfull, if_neg (by tauto)]
    rfl

end KvCache

/-! ## Tensors -/

namespace KvState

open Copies (copies origin)

def streams (data : KvData) (kind : KvTensorKind) (layer : Nat) (t : Nat) : Nat → UInt8 :=
  data ⟨kind, layer, t⟩

theorem streams_copyStreams (q : List (Nat × Nat)) (data : KvData) (kind : KvTensorKind) (layer : Nat) :
    streams (copyStreams q data) kind layer = copies q (streams data kind layer) := by
  induction q generalizing data with
  | nil => rfl
  | cons x q ih =>
    unfold copyStreams copies
    rw [foldl_cons, foldl_cons]
    refine (ih _).trans (congrArg (copies q) ?_)
    funext t
    rw [Function.update_apply]
    rfl

end KvState

end LlamaCpp
