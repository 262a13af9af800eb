import Mathlib.Data.Finset.Max
import LlamaCpp.Batch.Ubatch

/-!
# The batch allocator: validation

`llama_batch_allocr::init`.  The input batch may leave out most of its arrays;
`fill` generates what is missing, and the result has every array the splitter
reads.  The tables that `init` computes from the filled batch (`seq_pos`,
`seq_cpl`, `seq_set`, `seq_set_map`, `n_outputs`, `has_cpl`) are functions of it
here: nothing writes them afterwards.

`init` returns the allocator ready for splitting, or the first check that fails.
-/

namespace LlamaCpp

/-- `llama_batch`: the arrays may be null. -/
structure LlamaBatch where
  nTokens : Nat
  token : Option (Nat → Int)
  embd : Option (Nat → UInt32)
  pos : Option (Nat → Int)
  nSeqId : Option (Nat → Int)
  seqId : Option (Nat → Nat → Int)
  logits : Option (Nat → Int)

/-- A batch after the missing arrays have been generated. -/
structure FilledBatch where
  nTokens : Nat
  token : Option (Nat → Int)
  embd : Option (Nat → UInt32)
  pos : Nat → Int
  nSeqId : Nat → Int
  seqId : Nat → Nat → Int
  logits : Nat → Int

/-- Why `init` refuses a batch. -/
inductive InitError where
  /-- `GGML_ASSERT(batch.n_tokens > 0)`: the process aborts. -/
  | noTokens
  | nSeqMax
  | invalidToken (i : Nat)
  | invalidSeqId (i s : Nat)
  | inconsistentPos (s : SeqId)
  | notContinuous (s : SeqId)
  | diverged (s0 s1 : SeqId)
  | incompatibleSets (s : SeqId)
  | decreasingPos (s : SeqId)

namespace LlamaBatch

/-! ## Input validation -/

def checkTokens (inp : LlamaBatch) (nVocab : Nat) : Option InitError :=
  inp.token.bind fun token =>
    (List.range inp.nTokens).findSome? fun i =>
      if token i < 0 ∨ (nVocab : Int) ≤ token i then some (.invalidToken i) else none

/-- The first sequence id outside `[0, n_seq_max)`.  The source reads
`n_seq_id` here before it is generated, so a batch with `seq_id` has it. -/
def checkSeqIds (inp : LlamaBatch) (nSeqMax : Nat) : Option InitError :=
  inp.seqId.bind fun seqId =>
    (List.range inp.nTokens).findSome? fun i =>
      (List.range ((inp.nSeqId.getD fun _ => 0) i).toNat).findSome? fun s =>
        if seqId i s < 0 ∨ (nSeqMax : Int) ≤ seqId i s then some (.invalidSeqId i s) else none

/-! ## Generating the missing arrays -/

/-- The position loop: every token continues the sequences it belongs to, where
`p0` holds the next position of each sequence. -/
def autoPos (nSeqId : Nat → Int) (seqId : Nat → Nat → Int) :
    List Nat → (Int → Int) → (Nat → Int) → Nat → Int
  | [], _, pos => pos
  | i :: is, p0, pos =>
    let p := p0 (seqId i 0)
    let p0' := (List.range (nSeqId i).toNat).foldl
      (fun p0 s => Function.update p0 (seqId i s) (p + 1)) p0
    autoPos nSeqId seqId is p0' (Function.update pos i p)

/-- Where each sequence continues: after its last position in the memory, at `0`
without a memory. -/
def nextPos (memory : Option LlamaMemory) (s : Int) : Int :=
  match memory with
  | none => 0
  | some m => m.seqPosMax (.ofInt s) + 1

/-- The output flags: the given ones, all, or the last token only. -/
def fillLogits (inp : LlamaBatch) (outputAll : Bool) : Nat → Int :=
  match inp.logits with
  | none => fun i => if outputAll ∨ i = inp.nTokens - 1 then 1 else 0
  | some logits =>
    if outputAll ∧ ∃ i < inp.nTokens, logits i = 0 then fun _ => 1 else logits

/-- The batch with its missing arrays generated. -/
def fill (inp : LlamaBatch) (memory : Option LlamaMemory) (outputAll : Bool) : FilledBatch :=
  let nSeqId := inp.nSeqId.getD fun _ => 1
  let seqId := inp.seqId.getD fun _ _ => 0
  { nTokens := inp.nTokens, token := inp.token, embd := inp.embd
    pos := inp.pos.getD
      (autoPos nSeqId seqId (List.range inp.nTokens) (nextPos memory) fun _ => 0)
    nSeqId := nSeqId, seqId := seqId, logits := inp.fillLogits outputAll }

end LlamaBatch

namespace FilledBatch

/-! ## The tables computed from a batch -/

def seqIds (batch : FilledBatch) (i : Nat) : List SeqId :=
  (List.range (batch.nSeqId i).toNat).map fun s => .ofInt (batch.seqId i s)

def seqSet (batch : FilledBatch) (i : Nat) : Finset SeqId := (batch.seqIds i).toFinset

@[simp] theorem mem_seqSet (batch : FilledBatch) (i : Nat) (s : SeqId) : s ∈ batch.seqSet i ↔ s ∈ batch.seqIds i := by
  simp [seqSet]

/-- `seq_set_map[S]`: the batch indices at which the set `S` appears. -/
def seqSetMap (batch : FilledBatch) (S : Finset SeqId) : List Nat :=
  (List.range batch.nTokens).filter fun i => batch.seqSet i = S

def seqPos (batch : FilledBatch) (s : SeqId) : Finset Int :=
  (((List.range batch.nTokens).filter fun i => s ∈ batch.seqIds i).map batch.pos).toFinset

/-- `seq_cpl[s1][s0]`: some token has `s0` first and `s1` at a later place. -/
def seqCpl (batch : FilledBatch) (s1 s0 : SeqId) : Bool :=
  (List.range batch.nTokens).any fun i =>
    (batch.seqIds i).head? = some s0 ∧ s1 ∈ (batch.seqIds i).tail

def hasCpl (batch : FilledBatch) : Bool :=
  (List.range batch.nTokens).any fun i => (batch.seqIds i).tail ≠ []

def seqPosMin (batch : FilledBatch) (s : SeqId) : Int := (batch.seqPos s).min.untopD (-1)

def seqPosMax (batch : FilledBatch) (s : SeqId) : Int := (batch.seqPos s).max.unbotD (-1)

/-! ## Consistency checks -/

/-- The sequences the loops over `s < n_seq_max` visit. -/
def seqRange (nSeqMax : Nat) : List SeqId :=
  (List.finRange llamaMaxSeq).filter fun s => s.val < nSeqMax

/-- The position checks of one sequence.  `p0` is its last position in the memory. -/
def checkPos (batch : FilledBatch) (nPosPerEmbd : Nat) (p0 : Int) (s : SeqId) :
    Option InitError :=
  if batch.seqPos s = ∅ then none
  else if 1 < nPosPerEmbd then
    if batch.token.isSome then
      -- text: the positions may jump, but only forward
      if 0 ≤ p0 ∧ batch.seqPosMin s ≤ p0 then some (.inconsistentPos s) else none
    else
      -- embedding inputs can have overlapping positions
      if 0 ≤ p0 ∧ batch.seqPosMin s < p0 then some (.inconsistentPos s) else none
  else if 0 ≤ p0 ∧ batch.seqPosMin s ≠ p0 + 1 then some (.inconsistentPos s)
  else if ((batch.seqPos s).card : Int) < batch.seqPosMax s - batch.seqPosMin s + 1 then
    some (.notContinuous s)
  else none

def checkPositions (batch : FilledBatch) (nPosPerEmbd : Nat) (memory : Option LlamaMemory)
    (nSeqMax : Nat) : Option InitError :=
  (seqRange nSeqMax).findSome? fun s =>
    batch.checkPos nPosPerEmbd ((memory.map fun m => m.seqPosMax s).getD (-1)) s

/-- Coupled sequences must agree in the memory. -/
def checkCoupled (batch : FilledBatch) (memory : Option LlamaMemory) (nSeqMax : Nat) :
    Option InitError :=
  memory.bind fun m =>
    (seqRange nSeqMax).findSome? fun s0 =>
      (seqRange nSeqMax).findSome? fun s1 =>
        if batch.seqCpl s0 s1 ∧
            (m.seqPosMin s0 ≠ m.seqPosMin s1 ∨ m.seqPosMax s0 ≠ m.seqPosMax s1) then
          some (.diverged s0 s1)
        else none

/-- The token-sequence pairs of the batch, in the order the last check visits them. -/
def tokenSeqs (batch : FilledBatch) : List (Nat × SeqId) :=
  (List.range batch.nTokens).flatMap fun i => (batch.seqIds i).map fun s => (i, s)

/-- The last check.  `curSeqSet s` is the intersection of the sets seen with `s`,
`curSeqPos s` the last position of `s`. -/
def checkSets (batch : FilledBatch) :
    List (Nat × SeqId) → (SeqId → Finset SeqId) → (SeqId → Int) → Option InitError
  | [], _, _ => none
  | (i, s) :: rest, curSeqSet, curSeqPos =>
    let cur := curSeqSet s ∩ batch.seqSet i
    if cur = ∅ then some (.incompatibleSets s)
    else if batch.pos i < curSeqPos s then some (.decreasingPos s)
    else
      batch.checkSets rest (Function.update curSeqSet s cur)
        (Function.update curSeqPos s (batch.pos i))

end FilledBatch

/-- `llama_batch_allocr`, with the tables of the batch as functions of `batch`. -/
structure LlamaBatchAllocr where
  nPosPerEmbd : Nat
  batch : FilledBatch
  nEmbd : Nat
  nSeqMax : Nat
  /-- The output indices in the order they were emitted. -/
  outIds : List Nat
  nUsed : Nat
  used : Nat → Bool

namespace LlamaBatchAllocr

def splitReset (a : LlamaBatchAllocr) : LlamaBatchAllocr :=
  { a with outIds := [], nUsed := 0, used := fun _ => false }

/-- The checks of `init` on a filled batch, in order. -/
def checkBatch (batch : FilledBatch) (nPosPerEmbd : Nat) (memory : Option LlamaMemory)
    (nSeqMax : Nat) : Option InitError :=
  (batch.checkPositions nPosPerEmbd memory nSeqMax).or <|
    (batch.checkCoupled memory nSeqMax).or <|
      batch.checkSets batch.tokenSeqs (fun _ => Finset.univ) fun _ => -1

def init (nPosPerEmbd : Nat) (inp : LlamaBatch) (nVocab : Nat) (memory : Option LlamaMemory)
    (nEmbd nSeqMax : Nat) (outputAll : Bool) : Except InitError LlamaBatchAllocr :=
  if inp.nTokens = 0 then .error .noTokens
  else if llamaMaxSeq < nSeqMax then .error .nSeqMax
  else
    match (inp.checkTokens nVocab).or (inp.checkSeqIds nSeqMax) with
    | some e => .error e
    | none =>
      let batch := inp.fill memory outputAll
      match checkBatch batch nPosPerEmbd memory nSeqMax with
      | some e => .error e
      | none =>
        .ok <| splitReset
          { nPosPerEmbd := nPosPerEmbd, batch := batch, nEmbd := nEmbd, nSeqMax := nSeqMax
            outIds := [], nUsed := 0, used := fun _ => false }

/-! ## What acceptance gives -/

section Accepted

variable {nPosPerEmbd : Nat} {inp : LlamaBatch} {nVocab : Nat} {memory : Option LlamaMemory}
  {nEmbd nSeqMax : Nat} {outputAll : Bool} {a : LlamaBatchAllocr}

/-- An accepted batch has passed the checks and is ready for splitting. -/
theorem init_eq_ok (h : init nPosPerEmbd inp nVocab memory nEmbd nSeqMax outputAll = .ok a) :
    a.splitReset = a ∧ checkBatch a.batch nPosPerEmbd memory nSeqMax = none := by
  unfold init at h
  split at h
  · cases h
  split at h
  · cases h
  split at h
  · cases h
  dsimp only at h
  split at h
  · cases h
  next hcheck =>
    cases h
    exact ⟨rfl, hcheck⟩

/-- A batch that passes the checks is accepted. -/
theorem init_of_checks (hn : inp.nTokens ≠ 0) (hs : nSeqMax ≤ llamaMaxSeq)
    (hinp : (inp.checkTokens nVocab).or (inp.checkSeqIds nSeqMax) = none)
    (hbatch : checkBatch (inp.fill memory outputAll) nPosPerEmbd memory nSeqMax = none) :
    init nPosPerEmbd inp nVocab memory nEmbd nSeqMax outputAll =
      .ok ⟨nPosPerEmbd, inp.fill memory outputAll, nEmbd, nSeqMax, [], 0, fun _ => false⟩ := by
  unfold init
  rw [if_neg hn, if_neg (not_lt.mpr hs), hinp]
  dsimp only
  rw [hbatch]
  rfl

/-- The set check walks the token-sequence pairs with non-decreasing positions per
sequence. -/
theorem checkSets_eq_none {batch : FilledBatch} :
    ∀ {pairs : List (Nat × SeqId)} {curSeqSet : SeqId → Finset SeqId} {curSeqPos : SeqId → Int},
      batch.checkSets pairs curSeqSet curSeqPos = none →
      (∀ x ∈ pairs, curSeqPos x.2 ≤ batch.pos x.1) ∧
        pairs.Pairwise fun x y => x.2 = y.2 → batch.pos x.1 ≤ batch.pos y.1
  | [], _, _, _ => ⟨by simp, .nil⟩
  | (i, s) :: rest, curSeqSet, curSeqPos, h => by
      rw [FilledBatch.checkSets] at h
      split at h
      · cases h
      split at h
      · cases h
      next hpos =>
        obtain ⟨hge, hrest⟩ := checkSets_eq_none h
        have hstep : ∀ x ∈ rest, s = x.2 → batch.pos i ≤ batch.pos x.1 := by
          intro x hx hs
          simpa [← hs] using hge x hx
        refine ⟨fun x hx => ?_, List.pairwise_cons.mpr ⟨fun x hx => hstep x hx, hrest⟩⟩
        rcases List.mem_cons.mp hx with rfl | hx
        · exact not_lt.mp hpos
        · by_cases hs : s = x.2
          · exact hs ▸ (not_lt.mp hpos).trans (hstep x hx hs)
          · simpa [Function.update_of_ne (Ne.symm hs)] using hge x hx

/-- In an accepted batch the positions of a sequence do not decrease. -/
theorem pos_le_of_lt (h : init nPosPerEmbd inp nVocab memory nEmbd nSeqMax outputAll = .ok a)
    {i j : Nat} {s : SeqId} (hij : i < j) (hj : j < a.batch.nTokens) (hi : s ∈ a.batch.seqSet i)
    (hs : s ∈ a.batch.seqSet j) : a.batch.pos i ≤ a.batch.pos j := by
  have hsets := (init_eq_ok h).2
  simp only [checkBatch, Option.or_eq_none_iff] at hsets
  obtain ⟨-, hpair⟩ := checkSets_eq_none hsets.2.2
  rw [FilledBatch.tokenSeqs, List.pairwise_flatMap, List.pairwise_iff_getElem] at hpair
  have hlen : (List.range a.batch.nTokens).length = a.batch.nTokens := List.length_range
  have hcross := hpair.2 i j (by omega) (by omega) hij (i, s) (by simpa using hi) (j, s)
    (by simpa using hs)
  exact hcross rfl

end Accepted

end LlamaBatchAllocr

end LlamaCpp
