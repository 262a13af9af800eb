import LlamaCpp.Grammar.SymbolTable
import LlamaCpp.Grammar.Language
import LlamaCpp.Grammar.Tokens
import LlamaCpp.Lib.FormLanguage

/-!
# The language of some elements

What a piece of a rule matches, given the rules it refers to.  A terminal is an element with
its modifiers; it accepts code points, or tokens if it is a token element.  For code points
this is the grammar of `LlamaCpp.Grammar.Language` (`symbolsFrom_eq_map_formOf`).
-/

namespace LlamaCpp

open FormLanguage List

/-- What a grammar matches: characters, and tokens as a whole. -/
inductive GrammarInput where
  | codePoint (chr : Nat)
  | token (id : Nat)

/-- The terminal that the elements form accepts the input. -/
def AcceptsInput (t : List GrammarElement) : GrammarInput → Prop
  | .codePoint chr => (charSetAt t).Matches chr
  | .token id => matchToken (headElement t) id = true

/-- The element modifies the one in front of it. -/
def GrammarElement.isModifier (e : GrammarElement) : Bool :=
  e.type = .charRngUpper || e.type = .charAlt

/-- The symbols of the rest of an alternate; a terminal is an element with its modifiers. -/
def formOf : List GrammarElement → List (Symbol (List GrammarElement) Nat)
  | [] => []
  | e :: es =>
    match e.type with
    | .endOfRule | .alt => []
    | .ruleRef => .nonterminal e.value :: formOf es
    | .charRngUpper | .charAlt => formOf es
    | .char | .charNot | .charAny | .token | .tokenNot =>
      .terminal (e :: es.takeWhile GrammarElement.isModifier) :: formOf es

@[reducible] def parsedGrammar (rules : GrammarRules) : ContextFreeGrammar (List GrammarElement) where
  NT := Nat
  initial := 0
  rules := ((List.range rules.length).flatMap fun r =>
    (alternates rules r).map fun q => ⟨r, formOf (rules.from q)⟩).toFinset

def elementsLanguage (rules : GrammarRules) (es : List GrammarElement) : Language GrammarInput :=
  interpret AcceptsInput (words (parsedGrammar rules) (formOf es))

/-! ## The grammar of code points -/

/-! ## Forms -/

variable {es : List GrammarElement}

/-- Elements that can follow any others do not start with a modifier. -/
theorem takeWhile_modifier_nil (h : wellFormedFrom .alt es = true) : es.takeWhile GrammarElement.isModifier = [] := by
  cases es with
  | nil => rfl
  | cons e es =>
    rw [wellFormedFrom, Bool.and_eq_true] at h
    have hno : e.isModifier = false := by
      have hfollow := h.1
      unfold GrammarElement.isModifier
      cases ht : e.type <;> rw [ht] at hfollow <;> first | rfl | exact absurd hfollow (by decide)
    exact takeWhile_cons_of_neg (by simp [hno])

variable {fs : List GrammarElement}

theorem formOf_append (hes : ∀ e ∈ es, e.isEndOfSequence = false)
    (hfs : fs.takeWhile GrammarElement.isModifier = []) :
    formOf (es ++ fs) = formOf es ++ formOf fs := by
  induction es with
  | nil => rfl
  | cons e es ih =>
    have ih := ih fun x hx => hes x (mem_cons_of_mem _ hx)
    have hmods : (es ++ fs).takeWhile GrammarElement.isModifier = es.takeWhile GrammarElement.isModifier := by
      rw [takeWhile_append, hfs, append_nil]
      split
      · next hlen => exact ((List.takeWhile_prefix _).eq_of_length hlen).symm
      · rfl
    have hend := hes e mem_cons_self
    rw [cons_append, formOf, formOf, hmods, ih]
    cases ht : e.type <;> first | rfl | simp [GrammarElement.isEndOfSequence, ht] at hend

theorem IsBody.takeWhile_modifier (h : IsBody es) : es.takeWhile GrammarElement.isModifier = [] := by
  have hnil := takeWhile_modifier_nil h
  rw [takeWhile_append] at hnil
  split at hnil
  · next hlen =>
      have hes := (append_eq_nil_iff.mp hnil).1
      rw [hes]
      rfl
  · exact hnil

theorem IsSymbol.formOf_append (hes : IsSymbol es) (hfs : IsSymbol fs) : formOf (es ++ fs) = formOf es ++ formOf fs :=
  LlamaCpp.formOf_append hes.plain hfs.body.takeWhile_modifier

theorem IsSymbol.formOf_replicate (hes : IsSymbol es) (k : Nat) :
    formOf (List.replicate k es).flatten = (List.replicate k (formOf es)).flatten := by
  induction k with
  | zero => rfl
  | succ k ih =>
    rw [replicate_succ, flatten_cons, hes.formOf_append (hes.replicate k), ih]
    rfl

/-! ## The rules of a grammar -/

theorem mem_parsedGrammar_rules {rules : GrammarRules} {n : Nat}
    {r : ContextFreeRule (List GrammarElement) Nat} :
    r ∈ (parsedGrammar rules).rules ∧ r.input = n ↔
      n < rules.length ∧ r.input = n ∧
        (r.output = formOf (rules.rule n) ∨ ∃ es ∈ alternateSuffixes (rules.rule n), r.output = formOf es) := by
  have hmem : r ∈ (parsedGrammar rules).rules ↔ r ∈ (List.range rules.length).flatMap fun r =>
      (alternates rules r).map fun q => (⟨r, formOf (rules.from q)⟩ : ContextFreeRule _ _) :=
    List.mem_toFinset
  simp only [hmem, mem_flatMap, mem_range, List.mem_map, ← exists_alternate_iff (P := fun es => r.output = formOf es)]
  constructor
  · rintro ⟨⟨v, hv, q, hq, rfl⟩, rfl⟩
    exact ⟨hv, rfl, q, hq, rfl⟩
  · rintro ⟨hn, rfl, q, hq, hout⟩
    exact ⟨⟨_, hn, q, hq, by rw [← hout]⟩, rfl⟩

theorem alternateSuffixes_append (hes : ∀ e ∈ es, e.isEndOfSequence = false) :
    alternateSuffixes (es ++ fs) = alternateSuffixes fs := by
  induction es with
  | nil => rfl
  | cons e es ih =>
    have hend := hes e mem_cons_self
    rw [cons_append, alternateSuffixes, ih fun x hx => hes x (mem_cons_of_mem _ hx)]
    cases ht : e.type <;> first | rfl | simp [GrammarElement.isEndOfSequence, ht] at hend

theorem lt_length_of_rule {rules : GrammarRules} {n : Nat} (h : rules.rule n ≠ []) : n < rules.length := by
  by_contra hge
  refine h ?_
  rw [GrammarRules.rule, getD_eq_getElem?_getD, getElem?_eq_none (Nat.not_lt.mp hge)]
  rfl

end LlamaCpp
