import LlamaCpp.Grammar.SymbolTable

/-!
# The grammar parser

What the grammar parser keeps while `parse_sequence` reads a sequence: `SequenceState` splits the
rule at `last_sym_start`, where the symbol begins that a repetition would be about.
`handle_repetitions` is here; the functions that read text are not.
-/

namespace LlamaCpp

open GrammarLexer

/-! ## Sequences -/

/-- What `parse_sequence` keeps while it reads a sequence. -/
structure SequenceState where
  parser : GrammarParser
  /-- The elements of the rule up to `last_sym_start`. -/
  front : List GrammarElement
  /-- The elements from `last_sym_start` on. -/
  sym : List GrammarElement
  /-- The number of rules that the last symbol stands for. -/
  nPrevRules : UInt64
  front_ok : IsBody front
  sym_ok : IsSymbol sym
  nPrevRules_ok : 1 ≤ nPrevRules.toNat ∧ nPrevRules.toNat < 2 ^ 32

namespace SequenceState

variable (st : SequenceState)

def rule : List GrammarElement := st.front ++ st.sym

theorem rule_ok : IsBody st.rule := st.front_ok.append st.sym_ok.body

/-- The start of a sequence, behind the elements of earlier alternates. -/
def start (parser : GrammarParser) (rule : { es : List GrammarElement // IsBody es }) :
    SequenceState where
  parser := parser
  front := rule.1
  sym := []
  nPrevRules := 1
  front_ok := rule.2
  sym_ok := isSymbol_nil
  nPrevRules_ok := ⟨by decide, by decide⟩

/-- A new symbol; `n` is how many rules it added. -/
def push (parser : GrammarParser) (sym : { es : List GrammarElement // IsSymbol es }) (n : UInt32) :
    SequenceState where
  parser := parser
  front := st.rule
  sym := sym.1
  nPrevRules := (max 1 n).toUInt64
  front_ok := st.rule_ok
  sym_ok := sym.2
  nPrevRules_ok := by
    have hle : 1 ≤ max 1 n := by
      rw [UInt32.max_def]
      split
      · assumption
      · exact UInt32.le_refl 1
    rw [UInt32.toNat_toUInt64]
    exact ⟨UInt32.le_iff_toNat_le.mp hle, UInt32.toNat_lt _⟩

end SequenceState

/-! ## Repetitions -/

/-- `UINT64_MAX`: no maximum. -/
def noMaximum : UInt64 := 18446744073709551615

def maxRepetitionThreshold : UInt64 := 2000

/-- The rule `S' ::= S ref |`, with or without a reference. -/
def recRule (prevRule : List GrammarElement) (ref : Option Nat) : GrammarRule :=
  prevRule ++ ref.toList.map (fun id => ⟨.ruleRef, id⟩) ++ [altElement, endElement]

theorem recRule_ok {prevRule : List GrammarElement} (h : IsSymbol prevRule) (ref : Option Nat) :
    wellFormedFrom .alt (recRule prevRule ref) = true := by
  have href : IsBody (ref.toList.map fun id => (⟨.ruleRef, id⟩ : GrammarElement)) := by
    cases ref with
    | none => rfl
    | some id => rfl
  exact wellFormedFrom_append (h.body.append href) rfl

/-- One round of the loop that makes up rules; the state is the parser and the last rule. -/
def recStep (ruleName : List UInt8) (prevRule : { es : List GrammarElement // IsSymbol es })
    (noMax : Bool) (s : GrammarParser × Nat) (i : Nat) : GrammarParser × Nat :=
  let g := s.1.generateSymbolId ruleName
  let ref := if 0 < i ∨ noMax then some (if noMax then g.1 else s.2) else none
  (g.2.addRule g.1 ⟨recRule prevRule.1 ref, recRule_ok prevRule.2 ref⟩, g.1)

/-- The rule with the elements of the symbol `min_times` times. -/
def repeatElements (prevRule : List GrammarElement) (minTimes : UInt64) : List GrammarElement :=
  if minTimes = 0 then []
  else prevRule ++ (List.replicate (minTimes.toNat - 1) prevRule).flatten

theorem repeatElements_eq (prevRule : List GrammarElement) (minTimes : UInt64) :
    repeatElements prevRule minTimes = (List.replicate minTimes.toNat prevRule).flatten := by
  unfold repeatElements
  split
  · next h => simp [h]
  · next h =>
      obtain ⟨k, hk⟩ : ∃ k, minTimes.toNat = k + 1 := by
        refine Nat.exists_eq_succ_of_ne_zero fun h0 => h ?_
        exact UInt64.toNat_inj.mp h0
      rw [hk, Nat.add_sub_cancel, List.replicate_succ, List.flatten_cons]

/-- The total number of rules a repetition stands for. -/
def totalRules (minTimes maxTimes : UInt64) : UInt64 :=
  if maxTimes ≠ noMaximum ∧ 0 < maxTimes then maxTimes else if 0 < minTimes then minTimes else 1

def nOpt (minTimes maxTimes : UInt64) : UInt64 :=
  if maxTimes = noMaximum then 1 else maxTimes - minTimes

/-- The reference to the last rule that was made up, if there is one. -/
def optElements (nOpt : UInt64) (lastRecRuleId : Nat) : List GrammarElement :=
  if 0 < nOpt then [⟨.ruleRef, lastRecRuleId⟩] else []

theorem isSymbol_optElements (nOpt : UInt64) (id : Nat) : IsSymbol (optElements nOpt id) := by
  unfold optElements
  split
  · exact isSymbol_singleton (.inr rfl)
  · exact isSymbol_nil

def handleRepetitions (st : SequenceState) (ruleName pos : List UInt8) (minTimes maxTimes : UInt64) :
    Except GrammarHalt SequenceState :=
  if st.sym = [] then .error (.thrown "expecting preceding item to */+/?/\x7b at " pos)
  else
    let nPrevRules := st.nPrevRules * totalRules minTimes maxTimes
    if hsane : maxRepetitionThreshold ≤ nPrevRules then
      .error (.thrown "number of rules that are going to be repeated multiplied by the new repetition exceeds sane defaults, please reduce the number of repetitions or rule complexity" [])
    else
      let made := (List.range (nOpt minTimes maxTimes).toNat).foldl
        (recStep ruleName ⟨st.sym, st.sym_ok⟩ (maxTimes = noMaximum)) (st.parser, 0)
      if hpos : 1 ≤ nPrevRules then
        .ok {
          parser := made.1
          front := st.front
          sym := repeatElements st.sym minTimes ++ optElements (nOpt minTimes maxTimes) made.2
          nPrevRules := nPrevRules
          front_ok := st.front_ok
          sym_ok := by
            rw [repeatElements_eq]
            exact (st.sym_ok.replicate _).append (isSymbol_optElements _ _)
          nPrevRules_ok := by
            have hlt := UInt64.lt_iff_toNat_lt.mp (UInt64.not_le.mp hsane)
            have hthreshold : maxRepetitionThreshold.toNat = 2000 := rfl
            exact ⟨UInt64.le_iff_toNat_le.mp hpos, by omega⟩ }
      else .error .abort

/-- The suffixes `*`, `+`, `?`, `{m}`, `{m,}` and `{m,n}`. -/
inductive Suffix where
  | star
  | plus
  | opt
  | exactly (m : UInt64)
  | atLeast (m : UInt64)
  | between (m n : UInt64)

/-- `min_times` and `max_times` of a suffix. -/
def Suffix.times : Suffix → UInt64 × UInt64
  | .star => (0, noMaximum)
  | .plus => (1, noMaximum)
  | .opt => (0, 1)
  | .exactly m => (m, m)
  | .atLeast m => (m, noMaximum)
  | .between m n => (m, n)

/-- The check of the numbers in braces. -/
def Suffix.tooMany (s : Suffix) : Bool :=
  maxRepetitionThreshold < s.times.1 ||
    (s.times.2 ≠ noMaximum && maxRepetitionThreshold < s.times.2)

/-- Repeat the last symbol as a suffix says; `pos` is the text behind the suffix. -/
def applySuffix (st : SequenceState) (ruleName pos : List UInt8) (s : Suffix) :
    Except GrammarHalt SequenceState :=
  if s.tooMany then
    .error (.thrown "number of repetitions exceeds sane defaults, please reduce the number of repetitions" [])
  else handleRepetitions st ruleName pos s.times.1 s.times.2

end LlamaCpp
