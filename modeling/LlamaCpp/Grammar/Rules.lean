import LlamaCpp.Lib.Worklist

/-!
# The grammar engine

The rules of a grammar, the stacks of the pushdown simulation, and the functions that
build and move them: `llama_grammar_advance_stack`, the check for left recursion,
`llama_grammar_init_impl` and `llama_grammar_accept`.

A `const llama_grammar_element *` into `vec_rules` is the index of a rule and an index
in it.  A stack is the list of its pointers with the top first (`stack.back()` in the
source).  `llama_grammar_advance_stack` loops until its work list is empty, which need
not happen, so it and its callers take fuel.  The other ways out are `GGML_ASSERT` and
`GGML_ABORT` (`Halt.abort`).
-/

namespace LlamaCpp

open Worklist (Halt explore)

inductive GreType where
  /-- End of rule definition. -/
  | endOfRule
  /-- Start of alternate definition for rule. -/
  | alt
  /-- Non-terminal element: reference to rule. -/
  | ruleRef
  /-- Terminal element: character (code point). -/
  | char
  /-- Inverse char(s). -/
  | charNot
  /-- Modifies a preceding `char` or `charAlt` to be an inclusive range. -/
  | charRngUpper
  /-- Modifies a preceding `char` or `charRngUpper` to add an alternate char to match. -/
  | charAlt
  /-- Any character. -/
  | charAny
  /-- Terminal element: token. -/
  | token
  /-- Inverse token. -/
  | tokenNot
deriving DecidableEq

/-- `llama_grammar_element`: the value is a code point, a rule id or a token id. -/
structure GrammarElement where
  type : GreType
  value : Nat
deriving DecidableEq

abbrev GrammarRule := List GrammarElement

abbrev GrammarRules := List GrammarRule

structure GrammarPos where
  rule : Nat
  index : Nat
deriving DecidableEq

/-- `llama_grammar_stack`, the top first. -/
abbrev GrammarStack := List GrammarPos

abbrev GrammarStacks := List GrammarStack

def GrammarPos.add (pos : GrammarPos) (n : Nat) : GrammarPos := ⟨pos.rule, pos.index + n⟩

/-- `rules[rule_id]`. -/
def GrammarRules.rule (rules : GrammarRules) (r : Nat) : GrammarRule := rules.getD r []

def GrammarRules.from (rules : GrammarRules) (pos : GrammarPos) : List GrammarElement :=
  (rules.rule pos.rule).drop pos.index

/-- The element a list starts with.  Past the end of a rule there is nothing to read. -/
def headElement (es : List GrammarElement) : GrammarElement := es.headD ⟨.endOfRule, 0⟩

/-- `*pos`. -/
def GrammarRules.at (rules : GrammarRules) (pos : GrammarPos) : GrammarElement :=
  headElement (rules.from pos)

def GrammarElement.isEndOfSequence (e : GrammarElement) : Bool :=
  e.type = .endOfRule || e.type = .alt

/-! ## Matching -/

/-- The loop of `llama_grammar_match_char` over the elements from `pos` on: whether the
char was found, and how many elements were passed. -/
def matchCharLoop (chr : Nat) : List GrammarElement → Bool → Nat → Bool × Nat
  | e :: u :: es, found, n =>
    if u.type = .charRngUpper then
      -- inclusive range
      let found := found || (e.value ≤ chr && chr ≤ u.value)
      if (headElement es).type = .charAlt then matchCharLoop chr es found (n + 2)
      else (found, n + 2)
    else
      -- any character, or exact char match
      let found := e.type = .charAny || found || e.value = chr
      if u.type = .charAlt then matchCharLoop chr (u :: es) found (n + 1) else (found, n + 1)
  | [e], found, n => (e.type = .charAny || found || e.value = chr, n + 1)
  | [], found, n => (found, n)

/-- `GGML_ASSERT(is_positive_char || pos->type == LLAMA_GRETYPE_CHAR_NOT)`. -/
def isPositiveChar (e : GrammarElement) : Bool := e.type = .char || e.type = .charAny

/-- `llama_grammar_match_char`: whether the char satisfies the range at `pos`, and the
pointer behind the range. -/
def matchChar (rules : GrammarRules) (pos : GrammarPos) (chr : Nat) :
    Except Halt (Bool × GrammarPos) :=
  if isPositiveChar (rules.at pos) || (rules.at pos).type = .charNot then
    let (found, n) := matchCharLoop chr (rules.from pos) false 0
    .ok (found == isPositiveChar (rules.at pos), pos.add n)
  else .error .abort

/-! ## Advancing a stack -/

/-- The indices behind the `ALT` elements from index `i` on, up to the end of the rule. -/
def laterAlternates : List GrammarElement → Nat → List Nat
  | [], _ => []
  | e :: es, i =>
    match e.type with
    | .endOfRule => []
    | .alt => (i + 1) :: laterAlternates es (i + 1)
    | _ => laterAlternates es (i + 1)

def alternates (rules : GrammarRules) (r : Nat) : List GrammarPos :=
  (0 :: laterAlternates (rules.rule r) 0).map fun i => ⟨r, i⟩

/-- `if (!llama_grammar_is_end_of_sequence(pos)) { stack.push_back(pos); }` -/
def pushUnlessEnd (rules : GrammarRules) (pos : GrammarPos) (stack : GrammarStack) : GrammarStack :=
  if (rules.at pos).isEndOfSequence then stack else pos :: stack

/-- The types of terminal elements. -/
def GreType.isTerminal : GreType → Bool
  | .char | .charNot | .charAny | .token | .tokenNot => true
  | _ => false

/-- What one round of `llama_grammar_advance_stack` puts on the work list. -/
def expand (rules : GrammarRules) : GrammarStack → Except Halt GrammarStacks
  | [] => .ok []
  | pos :: below =>
    match (rules.at pos).type with
    | .ruleRef =>
      -- the alternate on top of what follows the reference
      .ok ((alternates rules (rules.at pos).value).map fun subpos =>
        pushUnlessEnd rules subpos (pushUnlessEnd rules (pos.add 1) below))
    | .char | .charNot | .charAny | .token | .tokenNot => .ok []
    | _ => .error .abort

/-- Only add the stack if it is not a duplicate of one we already have. -/
def pushNew (newStacks : GrammarStacks) (stack : GrammarStack) : GrammarStacks :=
  if stack ∈ newStacks then newStacks else newStacks ++ [stack]

/-- The stack is empty or ends at a terminal element. -/
def isFinished (rules : GrammarRules) : GrammarStack → Bool
  | [] => true
  | pos :: _ => (rules.at pos).type.isTerminal

/-- What one round of `llama_grammar_advance_stack` adds to `new_stacks`. -/
def collect (rules : GrammarRules) (newStacks : GrammarStacks) (stack : GrammarStack) :
    GrammarStacks :=
  if isFinished rules stack then pushNew newStacks stack else newStacks

def advanceStack (fuel : Nat) (rules : GrammarRules) (stack : GrammarStack)
    (newStacks : GrammarStacks) : Except Halt GrammarStacks :=
  explore (expand rules) (collect rules) fuel [stack] [] newStacks

/-! ## Left recursion -/

/-- The three flags that `llama_grammar_detect_left_recursion` keeps for each rule. -/
structure RecursionMarks where
  visited : Nat → Bool
  inProgress : Nat → Bool
  mayBeEmpty : Nat → Bool

/-- The first loop: some alternate has no elements. -/
def hasEmptyAlternate : List GrammarElement → Bool → Bool
  | [], _ => false
  | e :: es, atRuleStart =>
    if e.isEndOfSequence then atRuleStart || hasEmptyAlternate es true
    else hasEmptyAlternate es false

/-- The second loop: recurse into leftmost nonterminals, or next-leftmost as long as the
previous nonterminal may be empty. -/
def recurseIntoNonterminals
    (detect : Nat → RecursionMarks → Except Halt (Bool × RecursionMarks)) :
    List GrammarElement → Bool → RecursionMarks → Except Halt (Bool × RecursionMarks)
  | [], _, marks => .ok (false, marks)
  | e :: es, recurse, marks =>
    if e.type = .ruleRef && recurse then
      match detect e.value marks with
      | .error err => .error err
      | .ok (true, marks) => .ok (true, marks)
      | .ok (false, marks) => recurseIntoNonterminals detect es (marks.mayBeEmpty e.value) marks
    else recurseIntoNonterminals detect es e.isEndOfSequence marks

/-- `llama_grammar_detect_left_recursion`; the fuel is the depth of the recursion. -/
def detectLeftRecursion (rules : GrammarRules) :
    Nat → Nat → RecursionMarks → Except Halt (Bool × RecursionMarks)
  | 0, _, _ => .error .outOfFuel
  | n + 1, r, marks =>
    if marks.inProgress r then .ok (true, marks)
    else
      let marks := { marks with
        inProgress := Function.update marks.inProgress r true
        mayBeEmpty := if hasEmptyAlternate (rules.rule r) true
          then Function.update marks.mayBeEmpty r true else marks.mayBeEmpty }
      match recurseIntoNonterminals (detectLeftRecursion rules n) (rules.rule r) true marks with
      | .error err => .error err
      | .ok (true, marks) => .ok (true, marks)
      | .ok (false, marks) => .ok (false, { marks with
          inProgress := Function.update marks.inProgress r false
          visited := Function.update marks.visited r true })

/-- The loop over the rules in `llama_grammar_init_impl`: whether left recursion is found. -/
def anyLeftRecursion (rules : GrammarRules) :
    List Nat → RecursionMarks → Except Halt Bool
  | [], _ => .ok false
  | r :: rs, marks =>
    if marks.visited r then anyLeftRecursion rules rs marks
    else
      -- a chain of rules in progress has no rule twice
      match detectLeftRecursion rules (rules.length + 1) r marks with
      | .error err => .error err
      | .ok (true, _) => .ok true
      | .ok (false, marks) => anyLeftRecursion rules rs marks

/-- `std::vector<bool> rules_visited(n_rules)` and its two companions. -/
def RecursionMarks.init : RecursionMarks :=
  ⟨fun _ => false, fun _ => false, fun _ => false⟩

def leftRecursionCheck (rules : GrammarRules) : Except Halt Bool :=
  anyLeftRecursion rules (List.range rules.length) .init

/-! ## The grammar -/

structure PartialUtf8 where
  /-- The bits so far, unshifted. -/
  value : Nat := 0
  /-- The bytes that remain; -1 is an invalid sequence. -/
  nRemain : Int := 0
deriving DecidableEq

structure LlamaGrammar where
  rules : GrammarRules
  /-- `stacks`. -/
  allStacks : GrammarStacks
  partialUtf8 : PartialUtf8 := {}

/-- Copy a rule definition up to its end. -/
def copyRule (rule : GrammarRule) : GrammarRule :=
  rule.takeWhile (·.type ≠ .endOfRule) ++ [⟨.endOfRule, 0⟩]

def validReferences (rules : GrammarRules) : Bool :=
  rules.all fun rule => rule.all fun e => e.type != .ruleRef || decide (e.value < rules.length)

/-- The loop over the alternates of the start rule. -/
def initialStacks (fuel : Nat) (rules : GrammarRules) (startRuleIndex : Nat) :
    Except Halt GrammarStacks :=
  (alternates rules startRuleIndex).foldlM
    (fun newStacks pos => advanceStack fuel rules (pushUnlessEnd rules pos []) newStacks) []

/-- `llama_grammar_init_impl`; no grammar is `nullptr`. -/
def initImpl (fuel : Nat) (rules : GrammarRules) (startRuleIndex : Nat) :
    Except Halt (Option LlamaGrammar) := do
  let vecRules := rules.map copyRule
  if !validReferences vecRules then
    return none
  if ← leftRecursionCheck vecRules then
    return none
  let newStacks ← initialStacks fuel vecRules startRuleIndex
  return some { rules := vecRules, allStacks := newStacks }

/-! ## Accepting a code point -/

def acceptChr (fuel : Nat) (rules : GrammarRules) (stack : GrammarStack) (chr : Nat)
    (newStacks : GrammarStacks) : Except Halt GrammarStacks :=
  match stack with
  | [] => .ok newStacks
  | pos :: below =>
    -- ignore if this turns into a token
    if (rules.at pos).type = .token || (rules.at pos).type = .tokenNot then .ok newStacks
    else
      match matchChar rules pos chr with
      | .error err => .error err
      | .ok (true, after) => advanceStack fuel rules (pushUnlessEnd rules after below) newStacks
      | .ok (false, _) => .ok newStacks

/-- The stacks after a code point: the loop of `llama_grammar_accept`. -/
def acceptStacks (fuel : Nat) (rules : GrammarRules) (allStacks : GrammarStacks) (chr : Nat) :
    Except Halt GrammarStacks :=
  allStacks.foldlM (fun newStacks stack => acceptChr fuel rules stack chr newStacks) []

def LlamaGrammar.accept (fuel : Nat) (grammar : LlamaGrammar) (chr : Nat) :
    Except Halt LlamaGrammar := do
  let stacksNew ← acceptStacks fuel grammar.rules grammar.allStacks chr
  return { grammar with allStacks := stacksNew }

end LlamaCpp
