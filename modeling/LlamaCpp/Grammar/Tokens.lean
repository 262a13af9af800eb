import LlamaCpp.Grammar.Rules
import Mathlib.Algebra.Group.Nat.Defs

/-!
# Tokens and the grammar

Decoding the piece of a token, the rejection of candidates (the mask that
`llama_grammar_apply_impl` puts on the logits) and `llama_grammar_accept_token`.

The code points of a piece end with a 0.  A `const uint32_t *` into them is the list
and an index.
-/

namespace LlamaCpp

open Worklist (Halt)

/-! ## UTF-8 -/

/-- `lookup`: the length of a sequence by the high bits of its first byte. -/
def utf8Lookup : List Int := [1, 1, 1, 1, 1, 1, 1, 1, 0, 0, 0, 0, 2, 2, 3, 4]

/-- `value = (value << 6) + (byte & 0x3F)` in 32 bits. -/
def utf8Append (value : Nat) (byte : UInt8) : Nat := (value * 64 + byte.toNat % 64) % 2 ^ 32

/-- The second loop of `decode_utf8`: any subsequent sequences, which may end in an
incomplete one.  A sequence goes on while `nRemain` is positive. -/
def decodeSequences : List UInt8 → Nat → Int → List Nat → List Nat × PartialUtf8
  | [], value, nRemain, codePoints => (codePoints ++ [0], ⟨value, nRemain⟩)
  | byte :: bytes, value, nRemain, codePoints =>
    if byte = 0 then (codePoints ++ [0], ⟨value, nRemain⟩)
    else if 0 < nRemain then
      let value := utf8Append value byte
      decodeSequences bytes value (nRemain - 1)
        (if nRemain - 1 = 0 then codePoints ++ [value] else codePoints)
    else
      let nRemain := utf8Lookup.getD (byte.toNat / 16) 0 - 1
      -- invalid sequence, abort
      if nRemain < 0 then ([0], ⟨0, nRemain⟩)
      else
        let value := byte.toNat % 2 ^ (7 - nRemain).toNat
        decodeSequences bytes value nRemain
          (if nRemain = 0 then codePoints ++ [value] else codePoints)

/-- The first loop of `decode_utf8`: continue the previous decode, if applicable. -/
def continueSequence (start : PartialUtf8) : List UInt8 → Nat → Int → List Nat × PartialUtf8
  | [], value, nRemain =>
    decodeSequences [] value nRemain (if 0 < start.nRemain && nRemain = 0 then [value] else [])
  | byte :: bytes, value, nRemain =>
    if byte ≠ 0 && 0 < nRemain then
      -- invalid sequence, abort
      if byte.toNat / 64 ≠ 2 then ([0], ⟨0, -1⟩)
      else continueSequence start bytes (utf8Append value byte) (nRemain - 1)
    else
      decodeSequences (byte :: bytes) value nRemain
        (if 0 < start.nRemain && nRemain = 0 then [value] else [])

/-- `decode_utf8`: the code points with a terminating 0, and the incomplete sequence. -/
def decodeUtf8 (src : List UInt8) (partialStart : PartialUtf8) : List Nat × PartialUtf8 :=
  continueSequence partialStart src partialStart.value partialStart.nRemain

/-! ## Matching tokens and incomplete sequences -/

/-- `llama_grammar_match_token` behind its assertion. -/
def matchToken (e : GrammarElement) (token : Nat) : Bool :=
  (e.type = .token && e.value = token) || (e.type = .tokenNot && e.value ≠ token)

/-- The loop of `llama_grammar_match_partial_char` over the elements from `pos` on. -/
def matchPartialCharLoop (positive : Bool) (low high : Nat) : List GrammarElement → Bool
  | e :: u :: es =>
    if u.type = .charRngUpper then
      -- inclusive range
      if e.value ≤ high && low ≤ u.value then positive
      else if (headElement es).type = .charAlt then matchPartialCharLoop positive low high es
      else !positive
    else if e.type = .charAny then true
    else if low ≤ e.value && e.value ≤ high then positive
    else if u.type = .charAlt then matchPartialCharLoop positive low high (u :: es)
    else !positive
  | [e] =>
    if e.type = .charAny then true
    else if low ≤ e.value && e.value ≤ high then positive
    else !positive
  | [] => !positive

/-- Some continuation of the incomplete sequence could satisfy the char range. -/
def partialCharMatches (rules : GrammarRules) (pos : GrammarPos) (partialUtf8 : PartialUtf8) : Bool :=
  let value := partialUtf8.value
  let nRemain := partialUtf8.nRemain
  -- invalid sequence or 7-bit char split across 2 bytes (overlong)
  if nRemain < 0 || (nRemain = 1 && value < 2) then false
  else
    let low := value * 2 ^ (nRemain.toNat * 6) % 2 ^ 32
    let high := low ||| (2 ^ (nRemain.toNat * 6) - 1)
    let low := if low = 0 then
      if nRemain = 2 then 2 ^ 11 else if nRemain = 3 then 2 ^ 16 else low
      else low
    matchPartialCharLoop (isPositiveChar (rules.at pos)) low high (rules.from pos)

def matchPartialChar (rules : GrammarRules) (pos : GrammarPos) (partialUtf8 : PartialUtf8) :
    Except Halt Bool :=
  if isPositiveChar (rules.at pos) || (rules.at pos).type = .charNot then
    .ok (partialCharMatches rules pos partialUtf8)
  else .error .abort

/-! ## Rejecting candidates -/

structure GrammarCandidate where
  index : Nat
  /-- The code points that `code_points` points into. -/
  codePoints : List Nat
  /-- Where `code_points` points to. -/
  offset : Nat
  partialUtf8 : PartialUtf8
  id : Nat

/-- `*tok.code_points`. -/
def GrammarCandidate.codePoint (tok : GrammarCandidate) : Nat := tok.codePoints.getD tok.offset 0

/-- The candidate with `tok.code_points + 1`. -/
def GrammarCandidate.forward (tok : GrammarCandidate) : GrammarCandidate :=
  { tok with offset := tok.offset + 1 }

/-- The candidate with `tok.code_points - 1`. -/
def GrammarCandidate.backward (tok : GrammarCandidate) : GrammarCandidate :=
  { tok with offset := tok.offset - 1 }

/-- The lists that the loop over the candidates fills. -/
structure CandidateSort where
  rejects : List GrammarCandidate := []
  nextCandidates : List GrammarCandidate := []

/-- The loop over the candidates at a char range. -/
def sortCandidates (rules : GrammarRules) (pos : GrammarPos) :
    List GrammarCandidate → CandidateSort → Except Halt CandidateSort
  | [], sort => .ok sort
  | tok :: candidates, sort =>
    if tok.codePoint = 0 then
      -- reached end of full codepoints in token, reject iff it ended in a partial sequence
      -- that cannot satisfy this position in grammar
      if tok.partialUtf8.nRemain ≠ 0 then
        match matchPartialChar rules pos tok.partialUtf8 with
        | .error err => .error err
        | .ok true => sortCandidates rules pos candidates sort
        | .ok false =>
          sortCandidates rules pos candidates { sort with rejects := sort.rejects ++ [tok] }
      else sortCandidates rules pos candidates sort
    else
      match matchChar rules pos tok.codePoint with
      | .error err => .error err
      | .ok (true, _) => sortCandidates rules pos candidates
          { sort with nextCandidates := sort.nextCandidates ++ [tok.forward] }
      | .ok (false, _) =>
        sortCandidates rules pos candidates { sort with rejects := sort.rejects ++ [tok] }

/-- `llama_grammar_reject_candidates_for_stack`, with its recursive call as an argument. -/
def rejectCandidatesForStack
    (rejectNext : GrammarStacks → List GrammarCandidate → Except Halt (List GrammarCandidate))
    (fuel : Nat) (rules : GrammarRules) (stack : GrammarStack) (candidates : List GrammarCandidate) :
    Except Halt (List GrammarCandidate) :=
  match stack with
  | [] => .ok (candidates.filter fun tok => tok.codePoint ≠ 0 || tok.partialUtf8.nRemain ≠ 0)
  | stackPos :: below =>
    -- if the top of the stack is a token rule, then we only need to check the token id
    if (rules.at stackPos).type = .token || (rules.at stackPos).type = .tokenNot then
      .ok (candidates.filter fun tok =>
        if tok.codePoint = 0 then tok.partialUtf8.nRemain ≠ 0
        else !matchToken (rules.at stackPos) tok.id)
    else do
      let sort ← sortCandidates rules stackPos candidates {}
      let after ← matchChar rules stackPos 0
      let nextStacks ← advanceStack fuel rules (pushUnlessEnd rules after.2 below) []
      let nextRejects ← rejectNext nextStacks sort.nextCandidates
      return sort.rejects ++ nextRejects.map GrammarCandidate.backward

def rejectCandidates (rules : GrammarRules) :
    Nat → GrammarStacks → List GrammarCandidate → Except Halt (List GrammarCandidate)
  | 0, _, _ => .error .outOfFuel
  | n + 1, allStacks, candidates =>
    if allStacks = [] then .error .abort
    else if candidates = [] then .ok []
    else
      allStacks.foldlM (fun rejects stack =>
        rejectCandidatesForStack (rejectCandidates rules n) n rules stack rejects) candidates

/-! ## Applying the grammar and accepting a token -/

/-- What the grammar asks of `llama_vocab`. -/
structure GrammarVocab where
  tokenToPiece : Nat → List UInt8
  isEog : Nat → Bool

/-- The candidate of a token that is neither end-of-generation nor empty. -/
def candidateOf (vocab : GrammarVocab) (grammar : LlamaGrammar) (index id : Nat) : GrammarCandidate :=
  let decoded := decodeUtf8 (vocab.tokenToPiece id) grammar.partialUtf8
  ⟨index, decoded.1, 0, decoded.2, id⟩

/-- `piece.empty() || piece[0] == 0` -/
def pieceIsEmpty (piece : List UInt8) : Bool := piece.headD 0 = 0

/-- The candidates of `llama_grammar_apply_impl`: the token ids with their index. -/
def applyCandidates (vocab : GrammarVocab) (grammar : LlamaGrammar) (ids : List Nat) :
    List GrammarCandidate :=
  (ids.zipIdx.filter fun p => !vocab.isEog p.1 && !pieceIsEmpty (vocab.tokenToPiece p.1)).map
    fun p => candidateOf vocab grammar p.2 p.1

/-- `llama_grammar_apply_impl`, for a grammar that does not await a trigger: the indices
whose logit is set to minus infinity. -/
def LlamaGrammar.applyImpl (fuel : Nat) (vocab : GrammarVocab) (grammar : LlamaGrammar)
    (ids : List Nat) : Except Halt (List Nat) := do
  let allowEog := grammar.allStacks.any List.isEmpty
  let unfit := ids.zipIdx.filter fun p =>
    if vocab.isEog p.1 then !allowEog else pieceIsEmpty (vocab.tokenToPiece p.1)
  let rejects ← rejectCandidates grammar.rules fuel grammar.allStacks
    (applyCandidates vocab grammar ids)
  return unfit.map Prod.snd ++ rejects.map GrammarCandidate.index

/-- The loop over the code points in `llama_grammar_accept_token`. -/
def acceptCodePoints (fuel : Nat) (rules : GrammarRules) :
    List Nat → GrammarStacks → Except Halt GrammarStacks
  | [], currentStacks => .ok currentStacks
  | chr :: codePoints, currentStacks =>
    match acceptStacks fuel rules currentStacks chr with
    | .error err => .error err
    | .ok nextStacks =>
      if nextStacks = [] then .ok nextStacks else acceptCodePoints fuel rules codePoints nextStacks

def acceptTokenStack (fuel : Nat) (rules : GrammarRules) (token : Nat) (codePoints : List Nat)
    (stacksNew : GrammarStacks) (stack : GrammarStack) : Except Halt GrammarStacks :=
  match stack with
  | [] => .ok stacksNew
  | pos :: below =>
    if (rules.at pos).type = .token || (rules.at pos).type = .tokenNot then
      if matchToken (rules.at pos) token then
        advanceStack fuel rules (pushUnlessEnd rules (pos.add 1) below) stacksNew
      else .ok stacksNew
    else do
      let currentStacks ← acceptCodePoints fuel rules codePoints [stack]
      return currentStacks.foldl pushNew stacksNew

/-- `llama_grammar_accept_token`; no grammar is the exception of an empty stack set. -/
def LlamaGrammar.acceptToken (fuel : Nat) (grammar : LlamaGrammar) (token : Nat)
    (piece : List UInt8) : Except Halt (Option LlamaGrammar) := do
  let decoded := decodeUtf8 piece grammar.partialUtf8
  let stacksNew ← grammar.allStacks.foldlM
    (acceptTokenStack fuel grammar.rules token decoded.1.dropLast) []
  return if stacksNew = [] then none
    else some { grammar with allStacks := stacksNew, partialUtf8 := decoded.2 }

/-- `llama_grammar_accept_str`; no grammar is the exception of an empty stack set. -/
def LlamaGrammar.acceptStr (fuel : Nat) (grammar : LlamaGrammar) (piece : List UInt8) :
    Except Halt (Option LlamaGrammar) := do
  let decoded := decodeUtf8 piece grammar.partialUtf8
  let stacksNew ← decoded.1.dropLast.foldlM
    (fun currentStacks chr => acceptStacks fuel grammar.rules currentStacks chr) grammar.allStacks
  return if stacksNew = [] then none
    else some { grammar with allStacks := stacksNew, partialUtf8 := decoded.2 }

end LlamaCpp
