import LlamaCpp.Server.TargetMemory

/-!
# Speculative decoding

A round of a generating slot: the last sampled token and a draft are decoded together, and the target samples behind each
of them until it disagrees with the draft.  A branch on a second sequence may carry an alternative to the first drafted
token.  What was rejected is rolled back.  Where the target cannot do that, a checkpoint is restored, and the accepted
tokens are decoded again in the next round.

The prompt is text.  The draft, the alternative and the outcome of a verification with proposal distributions come from
outside; so do the logits, the sampler and where the generation stops.  The draft context is left out, and so is the
context shift: a run ends where one is due.
-/

namespace LlamaCpp.Server

universe u v

/-- `common_context_seq_rm_type` of the target. -/
inductive SeqRmType where
  /-- `PART` -/
  | part
  /-- `RS`, with `n_rs_seq` -/
  | rs (n : Nat)
  /-- `FULL` -/
  | full
deriving DecidableEq

/-- The memory gives up its last `k` tokens. -/
def SeqRmType.rollsBack : SeqRmType → Nat → Bool
  | .part, _ => true
  | .rs n, k => k ≤ n
  | .full, k => k = 0

/-! ## The memory of a sequence -/

/-- The memory of a sequence: its cells, and the tokens that went into what is no cell (a window, a recurrent state). -/
structure SeqMemory where
  cells : List MemCell := []
  part : List Int := []

namespace SeqMemory

variable (m : SeqMemory)

def ofTokens (toks : List Int) : SeqMemory where
  cells := MemCell.row toks 0
  part := toks

/-- The tokens that are seen from a position, in the order of theirs. -/
def seen (pos : Nat) : List Int :=
  (List.range (pos + 1)).flatMap fun (p : Nat) => (m.cells.filter fun x => x.pos = (p : Int)).map (·.token)

def push (pos : Nat) (tok : Int) : SeqMemory where
  cells := m.cells ++ [⟨pos, tok⟩]
  part := m.part ++ [tok]

/-- `seq_rm` from a position on; `none` if it is refused, which aborts. -/
def seqRm (type : SeqRmType) (p0 : Nat) : Option SeqMemory :=
  if type.rollsBack (m.part.length - p0) then some { cells := m.cells.filter fun x => x.pos < (p0 : Int), part := m.part.take p0 }
  else none

/-- `seq_cp` of a range of the branch to the slot.  What is no cell is copied as a whole. -/
def graft (branch : SeqMemory) (p0 p1 : Nat) : SeqMemory where
  cells := m.cells ++ branch.cells.filter fun x => (p0 : Int) ≤ x.pos ∧ x.pos < (p1 : Int)
  part := branch.part

def seqPosMax : Int := ((m.cells.map (·.pos)).max?).getD (-1)

end SeqMemory

/-! ## The target -/

/-- The target and the sampler, with what stops the generation. -/
structure SpecTarget (Row : Type u) (Smpl : Type v) where
  type : SeqRmType
  nCtx : Nat
  ctxShift : Bool
  /-- The logits of a token, from what it sees in cells and in the rest of the memory. -/
  logits : List Int → List Int → Row
  /-- `common_sampler_sample` -/
  sample : Row → Smpl → Int × Smpl
  /-- `common_sampler_accept` -/
  accept : Smpl → Int → Smpl
  /-- `process_token` stops after these tokens, for another reason than the context. -/
  stops : List Int → Bool

structure SpecCheckpoint where
  nTokens : Nat := 0
  posMax : Int := -1
  /-- `data_tgt` -/
  part : Option (List Int) := none

structure SpecSlot (Smpl : Type v) where
  /-- `prompt.tokens` -/
  tokens : List Int
  sampled : Int
  smpl : Smpl
  mem : SeqMemory
  /-- The accepted tokens that are to be decoded again. -/
  specDraft : List Int := []
  specCkpt : SpecCheckpoint := {}
  /-- The tokens that were passed to `process_token`. -/
  emitted : List Int := []
  released : Bool := false

/-- What comes from outside in a round. -/
structure SpecRound (Smpl : Type v) where
  /-- What the drafter returns. -/
  draft : List Int := []
  /-- The alternative for the first token of the draft, if a branch can be armed. -/
  alt : Option Int := none
  /-- The outcome of the verification with proposal distributions, if the draft has them and the temperature is positive. -/
  coupled : Option (List Int × Smpl) := none

namespace SpecTarget

variable {Row : Type u} {Smpl : Type v} (T : SpecTarget Row Smpl)

/-- Tokens of a batch are decoded from a position on. -/
def decode : SeqMemory → Nat → List Int → SeqMemory × List Row
  | m, _, [] => (m, [])
  | m, pos, tok :: toks =>
    let m := m.push pos tok
    let (m', rows) := decode m (pos + 1) toks
    (m', T.logits (m.seen pos) m.part :: rows)

def sampleAndAcceptN : Smpl → List Row → List Int → List Int × Smpl
  | smpl, [], _ => ([], smpl)
  | smpl, row :: _, [] =>
    let (id, smpl) := T.sample row smpl
    ([id], T.accept smpl id)
  | smpl, row :: rows, tok :: draft =>
    let (id, smpl) := T.sample row smpl
    let smpl := T.accept smpl id
    if tok ≠ id then ([id], smpl)
    else
      let (ids, smpl) := sampleAndAcceptN smpl rows draft
      (id :: ids, smpl)

/-- `process_token`; the result says whether the generation goes on. -/
def processToken (s : SpecSlot Smpl) (id : Int) : SpecSlot Smpl × Bool :=
  let s := { s with sampled := id, emitted := s.emitted ++ [id] }
  (s, !(T.stops s.emitted || !T.ctxShift && decide (T.nCtx ≤ s.tokens.length + 1)))

/-- The loop over the accepted tokens. -/
def processAll : SpecSlot Smpl → List Int → SpecSlot Smpl
  | s, [] => s
  | s, id :: ids =>
    match T.processToken s id with
    | (s, true) => processAll s ids
    | (s, false) => { s with released := true }

/-- `get_n_draft_max`, which may be less near the end of the budget. -/
def nDraftMax (s : SpecSlot Smpl) : Nat := T.nCtx - s.tokens.length - 2

/-- A checkpoint of the target is taken for a draft of `n` tokens, or restored if `n` tokens are rolled back. -/
def useCkpt (n : Nat) : Bool :=
  match T.type with
  | .part => false
  | .rs nRs => nRs < n
  | .full => true

/-- A round without a draft. -/
def decodeOne (s : SpecSlot Smpl) : SpecSlot Smpl :=
  let (mem, rows) := T.decode s.mem s.tokens.length [s.sampled]
  let (ids, smpl) := T.sampleAndAcceptN s.smpl rows []
  T.processAll { s with tokens := s.tokens ++ [s.sampled], mem := mem, smpl := smpl } ids

def arm (r : SpecRound Smpl) (draft : List Int) (replay : Bool) : Option Int :=
  if replay then none else r.alt.filter fun alt => draft.head? ≠ some alt

/-- What was accepted, with the branch; the memory has the accepted cells of the branch if the target rolls back. -/
structure Verified (Smpl : Type v) where
  accepted : List Int
  smpl : Smpl
  mem : SeqMemory

/-- A first token that is the alternative goes on along the branch. -/
def walkBranch (s : SpecSlot Smpl) (draft : List Int) (alt : Int) (ckpt : Bool) (ver : Verified Smpl) : Option (Verified Smpl) :=
  if ver.accepted = [alt] then
    let (branch, rows) := T.decode s.mem s.tokens.length (s.sampled :: alt :: draft.tail)
    let (ids, smpl) := T.sampleAndAcceptN ver.smpl rows.tail draft.tail
    if ckpt then some { ver with accepted := alt :: ids, smpl := smpl }
    else
      (ver.mem.seqRm T.type (s.tokens.length + 1)).map fun mem =>
        { accepted := alt :: ids
          smpl := smpl
          mem := mem.graft branch (s.tokens.length + 1) (s.tokens.length + 1 + ids.length) }
  else some ver

def withBranch (s : SpecSlot Smpl) (r : SpecRound Smpl) (draft : List Int) (replay ckpt : Bool) (ver : Verified Smpl) :
    Option (Verified Smpl) :=
  match arm r draft replay with
  | some alt => T.walkBranch s draft alt ckpt ver
  | none => some ver

/-- The draft was accepted in part, and the target cannot roll back. -/
def restore (s : SpecSlot Smpl) (accepted : List Int) (mem : SeqMemory) : Option (SpecSlot Smpl) :=
  s.specCkpt.part.bind fun part =>
    (SeqMemory.seqRm { mem with part := part } T.type (s.specCkpt.posMax + 1).toNat).map fun mem =>
      { s with
        tokens := s.tokens.take s.specCkpt.nTokens
        mem := mem
        specDraft := accepted }

/-- The accepted tokens become part of the prompt. -/
def bank (s : SpecSlot Smpl) (draft : List Int) (ver : Verified Smpl) : Option (SpecSlot Smpl) :=
  let toks := s.tokens ++ s.sampled :: draft
  let toks := toks.take (toks.length - draft.length) ++ ver.accepted.dropLast
  (ver.mem.seqRm T.type toks.length).map fun mem =>
    T.processAll { s with tokens := toks, smpl := ver.smpl, mem := mem, specDraft := [] } ver.accepted

/-- A round with a draft; `s` has the checkpoint of the draft. -/
def verify (s : SpecSlot Smpl) (r : SpecRound Smpl) (draft : List Int) (replay : Bool) : Option (SpecSlot Smpl) :=
  let (mem, rows) := T.decode s.mem s.tokens.length (s.sampled :: draft)
  let (accepted, smpl) := if !T.useCkpt draft.length then r.coupled.getD (T.sampleAndAcceptN s.smpl rows draft)
    else T.sampleAndAcceptN s.smpl rows draft
  let nRollback := draft.length + 1 - accepted.length
  let ckpt := T.useCkpt nRollback
  (T.withBranch s r draft replay ckpt ⟨accepted, smpl, mem⟩).bind fun ver =>
    if 0 < nRollback ∧ ckpt then T.restore s ver.accepted ver.mem else T.bank s draft ver

/-- The speculative checkpoint in front of a draft of `n` tokens. -/
def checkpoint (s : SpecSlot Smpl) (n : Nat) : SpecSlot Smpl :=
  { s with specCkpt := {
      nTokens := s.tokens.length
      posMax := s.mem.seqPosMax
      part := if T.useCkpt n then some s.mem.part else none } }

/-- A round; `none` if the slot is not generating, if its context is full, or if an assertion fails. -/
def round (s : SpecSlot Smpl) (r : SpecRound Smpl) : Option (SpecSlot Smpl) :=
  if s.released ∨ T.nCtx ≤ s.tokens.length + 1 then none
  else if s.specDraft ≠ [] then
    -- the accepted tokens are decoded again
    if T.type = .full ∧ 0 < T.nDraftMax s ∧ s.specCkpt.part = none then none else T.verify s r s.specDraft true
  else if r.draft = [] then some (T.decodeOne s)
  else if T.nDraftMax s < r.draft.length then none
  else T.verify (T.checkpoint s r.draft.length) r r.draft false

/-- The slot after its prompt was processed, and the first token was sampled. -/
def start (prompt : List Int) (smpl : Smpl) : SpecSlot Smpl :=
  let (id, smpl) := T.sample (T.logits prompt prompt) smpl
  T.processAll { tokens := prompt, sampled := id, smpl := T.accept smpl id, mem := .ofTokens prompt } [id]

/-! ## Plain decoding -/

/-- The state of plain decoding. -/
structure Plain (Smpl : Type v) where
  smpl : Smpl
  emitted : List Int := []
  done : Bool := false

/-- The generation ends behind these tokens. -/
def ends (prompt emitted : List Int) : Bool :=
  T.stops emitted || !T.ctxShift && decide (T.nCtx ≤ prompt.length + emitted.length)

/-- One token is sampled behind the prompt and the tokens so far. -/
def plainStep (prompt : List Int) (s : Plain Smpl) : Plain Smpl :=
  if s.done then s
  else
    let toks := prompt ++ s.emitted
    let (id, smpl) := T.sample (T.logits toks toks) s.smpl
    let emitted := s.emitted ++ [id]
    { smpl := T.accept smpl id
      emitted := emitted
      done := T.ends prompt emitted }

/-- Plain decoding of at most `n` tokens. -/
def plain (prompt : List Int) (smpl : Smpl) : Nat → Plain Smpl
  | 0 => { smpl := smpl }
  | n + 1 => T.plainStep prompt (plain prompt smpl n)

end SpecTarget

end LlamaCpp.Server
