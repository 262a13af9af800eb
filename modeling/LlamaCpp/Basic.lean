import Mathlib.Algebra.GroupWithZero.Nat
import Mathlib.Data.Fintype.Fin

/-!
# Shared types

Sequence ids, the null token and the part of `llama_memory_i` that a batch is
checked against.  `llama_pos` and `llama_token` are `Int`.
-/

namespace LlamaCpp

abbrev llamaMaxSeq : Nat := 256

/-- A sequence id that has passed the range checks. -/
abbrev SeqId := Fin llamaMaxSeq

instance : NeZero llamaMaxSeq := ⟨by decide⟩

instance : LawfulBEq SeqId := inferInstance

/-- A raw `llama_seq_id` that has passed the range checks. -/
def SeqId.ofInt (x : Int) : SeqId := Fin.ofNat llamaMaxSeq x.toNat

def llamaTokenNull : Int := -1

/-- The two queries of `llama_memory_i` that batch validation makes. -/
structure LlamaMemory where
  seqPosMin : SeqId → Int
  seqPosMax : SeqId → Int

end LlamaCpp
