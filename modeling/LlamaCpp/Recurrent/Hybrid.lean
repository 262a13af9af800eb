import LlamaCpp.Recurrent.Rollback
import LlamaCpp.Kv.CacheRuns

/-!
# Removals from a hybrid memory

`llama_memory_hybrid::seq_rm` asks the recurrent half first, since only that may refuse, and relies
on a refusal having changed nothing there.
-/

namespace LlamaCpp

structure HybridMemory where
  attn : KvCache
  recr : RecurrentMemory

namespace HybridMemory

/-- The assertion on the id in `llama_kv_cache::seq_rm`. -/
def attnSeqId (seqId : Int) : Option (Option SeqId) :=
  if seqId = -1 then some none
  else if h : 0 ≤ seqId ∧ seqId.toNat < llamaMaxSeq then some (some ⟨seqId.toNat, h.2⟩)
  else none

/-- `llama_memory_hybrid::seq_rm`; `none` is a failed assertion. -/
def seqRm (ca : KvConfig) (cr : RecurrentConfig) (σ : HybridMemory) (seqId p0 p1 : Int) :
    Option (HybridMemory × Bool) :=
  let removed := σ.recr.seqRm cr seqId p0 p1
  -- it may fail, and has not been mutated then
  if !removed.1 then some ({ σ with recr := removed.2 }, false)
  else
    (attnSeqId seqId).bind fun id =>
      (σ.attn.seqRm ca id p0 p1).map fun (attn, res) => ({ attn, recr := removed.2 }, res)

end HybridMemory

namespace RecurrentMemory

/-- What is returned says whether the removal was refused. -/
theorem Removal.refuses {c : RecurrentConfig} {m : RecurrentMemory} {seqId lo hi : Int}
    {result : Bool × RecurrentMemory} (h : Removal c m seqId lo hi result) (hfalse : result.1 = false) :
    Refuses c m seqId lo hi ∧ result.2 = resetWhole c m seqId lo hi := by
  cases h with
  | refused h => exact ⟨h, rfl⟩
  | sweep | rollback | drop => cases hfalse

end RecurrentMemory

/-- A removal that the recurrent half refuses leaves it as it was, and the hybrid memory with it. -/
theorem HybridMemory.seqRm_refused (ca : KvConfig) (cr : RecurrentConfig) (σ : HybridMemory)
    (seqId p0 p1 : Int) (hfalse : (σ.recr.seqRm cr seqId p0 p1).1 = false) :
    (σ.recr.seqRm cr seqId p0 p1).2 = σ.recr ∧ σ.seqRm ca cr seqId p0 p1 = some (σ, false) := by
  obtain ⟨hrefuses, hstate⟩ := RecurrentMemory.seqRm_removal.refuses hfalse
  have hsame : (σ.recr.seqRm cr seqId p0 p1).2 = σ.recr := hstate.trans hrefuses.resetWhole_eq
  have hrun : σ.seqRm ca cr seqId p0 p1 =
      some ({ σ with recr := (σ.recr.seqRm cr seqId p0 p1).2 }, false) :=
    if_pos (by rw [hfalse]; rfl)
  exact ⟨hsame, by rw [hrun, hsame]⟩

/-- Two sequences, no state of an earlier token kept. -/
def pairConfig : RecurrentConfig where
  size := 2
  nSeqMax := 2
  nRsSeq := 0
  size_pos := Nat.two_pos
  nSeqMax_le := le_rfl
  rows_lt := by decide

/-- One sequence at position 3. -/
def tailAtThree : HybridMemory where
  attn := .init (KvCache.unifiedConfig 4 .none)
  recr := { used := 1, cells := fun i => if i = 0 then { pos := 3, tail := some 0, seqId := {0} } else {} }

theorem seqRm_refused_tailAtThree :
    HybridMemory.seqRm (KvCache.unifiedConfig 4 .none) pairConfig tailAtThree 0 2 (-1) = some (tailAtThree, false) :=
  (HybridMemory.seqRm_refused (KvCache.unifiedConfig 4 .none) pairConfig tailAtThree 0 2 (-1) (by decide)).2

end LlamaCpp
