import LlamaCpp.Basic

/-!
# Micro-batches

`llama_ubatch`: what the batch splitter hands to the memory module and to the
graph.  As in the cell table, an array of the source is a total function of the
index together with its length.  `n_seq_id[i]` is the length of `seqId i`.
-/

namespace LlamaCpp

structure LlamaUbatch where
  bEqualSeqs : Bool
  /-- Total tokens. -/
  nTokens : Nat
  /-- Tokens per sequence set. -/
  nSeqTokens : Nat
  /-- Sequence sets. -/
  nSeqs : Nat
  /-- Unique sequence ids. -/
  nSeqsUnq : Nat
  /-- Position inputs per token. -/
  nPos : Nat
  /-- Token ids; `none` for an embedding input. -/
  token : Option (Nat → Int)
  /-- The bits of the embedding inputs, one row of `n_embd` after the other. -/
  embd : Option (Nat → UInt32)
  pos : Nat → Int
  seqId : Nat → List SeqId
  seqIdUnq : List SeqId
  /-- The index of a sequence in `seqIdUnq`, `-1` if it is absent. -/
  seqIdx : SeqId → Int
  output : Nat → Int

namespace LlamaUbatch

def empty : LlamaUbatch where
  bEqualSeqs := false
  nTokens := 0
  nSeqTokens := 0
  nSeqs := 0
  nSeqsUnq := 0
  nPos := 0
  token := none
  embd := none
  pos := fun _ => 0
  seqId := fun _ => []
  seqIdUnq := []
  seqIdx := fun _ => 0
  output := fun _ => 0

/-- `ubatch_reserve`: `n_seqs` sequences of `n_seq_tokens` tokens, to be filled in. -/
def reserve (nPosPerEmbd nSeqTokens nSeqs : Nat) : LlamaUbatch where
  bEqualSeqs := true
  nTokens := nSeqTokens * nSeqs
  nSeqTokens := nSeqTokens
  nSeqs := nSeqs
  nSeqsUnq := nSeqs
  nPos := nPosPerEmbd
  token := some fun _ => 0
  embd := none
  pos := fun _ => 0
  seqId := fun _ => []
  seqIdUnq := (List.range nSeqs).map (Fin.ofNat llamaMaxSeq)
  seqIdx := fun s => if s.val < nSeqs then s.val else -1
  output := fun _ => 0

def isPos2d (ubatch : LlamaUbatch) : Bool := decide (3 ≤ ubatch.nPos)

end LlamaUbatch

end LlamaCpp
