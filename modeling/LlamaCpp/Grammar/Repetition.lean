import LlamaCpp.Grammar.Parser
import LlamaCpp.Grammar.ElementLanguage
import LlamaCpp.Lib.Loops

/-!
# Repetitions

What `handle_repetitions` makes of a symbol and a suffix.  The rules it makes up are a chain in
which each one matches the symbol and then the next, or nothing; without a maximum there is one
rule that refers to itself (`foldl_recStep`).  So the elements it leaves match the repetition
that the suffix asks for, under any rules that keep those made up (`applySuffix_ok`).

Two suffixes go wrong.  Nothing compares the two numbers of `{m,n}`, and where `n` is the
smaller one the number of rules wraps around.  And the largest number of 64 bits stands for no
maximum, also when it is written out (`suffixCorrect_iff`).
-/

namespace LlamaCpp

open FormLanguage List

/-! ## The rules that are made up -/

theorem setRule_rule (rules : GrammarRules) (ruleId : Nat) (rule : GrammarRule) (id : Nat) :
    GrammarRules.rule (GrammarParser.setRule rules ruleId rule) id = if id = ruleId then rule else rules.rule id := by
  have hlen : ruleId < (rules ++ List.replicate (ruleId + 1 - rules.length) []).length := by
    rw [length_append, length_replicate]
    omega
  simp only [GrammarRules.rule, GrammarParser.setRule, getD_eq_getElem?_getD]
  split
  · next h => rw [h, getElem?_set_self hlen, Option.getD_some]
  · next h =>
      rw [getElem?_set_ne (Ne.symm h)]
      rcases Nat.lt_or_ge id rules.length with hlt | hge
      · rw [getElem?_append_left hlt]
      · rw [getElem?_append_right hge, getElem?_eq_none hge, getElem?_replicate]
        split <;> rfl

/-- The reference in the `i`-th rule that is made up, the first of which has id `n`. -/
def recRef (noMax : Bool) (n i : Nat) : Option Nat :=
  if noMax then some (n + i) else if i = 0 then none else some (n + i - 1)

/-- The rules and the symbols after `k` rounds. -/
structure Made (p p' : GrammarParser) (prevRule : List GrammarElement) (noMax : Bool) (k : Nat) :
    Prop where
  nSymbols : p'.nSymbols = p.nSymbols + k
  rules : ∀ i < k, p'.rules.rule (p.nSymbols + i) = recRule prevRule (recRef noMax p.nSymbols i)

theorem generateSymbolId_nSymbols (p : GrammarParser) (baseName : List UInt8) :
    (p.generateSymbolId baseName).2.nSymbols = p.nSymbols + 1 := by
  have hassign := congrArg List.length (p.assign_generated baseName)
  rw [length_append] at hassign
  exact hassign

theorem recStep_rule (ruleName : List UInt8)
    (prevRule : { es : List GrammarElement // IsSymbol es }) (noMax : Bool) (q : GrammarParser)
    (last i id : Nat) :
    (recStep ruleName prevRule noMax (q, last) i).1.rules.rule id =
      if id = q.nSymbols then
        recRule prevRule.1
          (if 0 < i ∨ noMax then some (if noMax then q.nSymbols else last) else none)
      else q.rules.rule id :=
  setRule_rule _ _ _ id

theorem foldl_recStep (ruleName : List UInt8)
    (prevRule : { es : List GrammarElement // IsSymbol es }) (noMax : Bool) (p : GrammarParser)
    (k : Nat) :
    Made p ((List.range k).foldl (recStep ruleName prevRule noMax) (p, 0)).1 prevRule.1 noMax k ∧
      (0 < k → ((List.range k).foldl (recStep ruleName prevRule noMax) (p, 0)).2 = p.nSymbols + k - 1) := by
  refine Loops.foldl_range_inv
    (I := fun k (s : GrammarParser × Nat) => Made p s.1 prevRule.1 noMax k ∧ (0 < k → s.2 = p.nSymbols + k - 1))
    ⟨⟨rfl, fun i hi => absurd hi (Nat.not_lt_zero i)⟩, fun h => absurd h (Nat.lt_irrefl 0)⟩ ?_
  rintro i - ⟨q, last⟩ ⟨hmade, hlast⟩
  have hid : q.nSymbols = p.nSymbols + i := hmade.nSymbols
  refine ⟨⟨?_, fun j hj => ?_⟩, fun _ => ?_⟩
  · exact (generateSymbolId_nSymbols q ruleName).trans (congrArg (· + 1) hid)
  · rw [recStep_rule, hid]
    rcases Nat.lt_succ_iff_lt_or_eq.mp hj with hlt | rfl
    · rw [if_neg (by omega), hmade.rules j hlt]
    · rw [if_pos rfl]
      congr 1
      unfold recRef
      cases noMax with
      | true => simp
      | false =>
        rcases Nat.eq_zero_or_pos j with rfl | hpos
        · simp
        · have hlast : last = p.nSymbols + j - 1 := hlast hpos
          simp [hpos, hlast, Nat.ne_of_gt hpos]
  · change q.nSymbols = _
    omega

/-- Some rules keep those made up from one parser state to another. -/
def KeepsMade (p p' : GrammarParser) (rules : GrammarRules) : Prop :=
  ∀ id, p.nSymbols ≤ id → id < p'.nSymbols → rules.rule id = p'.rules.rule id

theorem formOf_recRule {prevRule : List GrammarElement} (hsym : IsSymbol prevRule)
    (ref : Option Nat) :
    formOf (recRule prevRule ref) = formOf prevRule ++ ref.toList.map Symbol.nonterminal := by
  cases ref with
  | none | some id =>
    rw [recRule, append_assoc]
    exact LlamaCpp.formOf_append hsym.plain rfl

theorem alternateSuffixes_recRule {prevRule : List GrammarElement} (hsym : IsSymbol prevRule)
    (ref : Option Nat) : alternateSuffixes (recRule prevRule ref) = [[endElement]] := by
  rw [recRule, append_assoc, alternateSuffixes_append hsym.plain]
  cases ref <;> rfl

/-- A rule that is made up matches the symbol and what it refers to, or nothing. -/
theorem isOption_recRule {rules : GrammarRules} {n : Nat} {prevRule : List GrammarElement}
    (hsym : IsSymbol prevRule) {ref : Option Nat} (h : rules.rule n = recRule prevRule ref) :
    IsOption (parsedGrammar rules) n
      (formOf prevRule ++ ref.toList.map Symbol.nonterminal) := by
  have hlen : n < rules.length := lt_length_of_rule (by simp [h, recRule])
  rintro ⟨input, output⟩
  refine (@mem_parsedGrammar_rules rules n ⟨input, output⟩).trans ?_
  rw [h, alternateSuffixes_recRule hsym, formOf_recRule hsym]
  simp only [hlen, true_and, mem_singleton, exists_eq_left, ContextFreeRule.mk.injEq]
  have hend : formOf [endElement] = [] := rfl
  rw [hend, and_or_left]

section Language

variable {rules : GrammarRules} {n k : Nat} {prevRule : List GrammarElement}

/-- Without a maximum, the rule that refers to itself. -/
theorem words_noMaximum (hsym : IsSymbol prevRule)
    (h : rules.rule n = recRule prevRule (recRef true n 0)) :
    words (parsedGrammar rules) [.nonterminal n] =
      repeated (words (parsedGrammar rules) (formOf prevRule)) 0 none := by
  rw [repeated_none]
  exact words_star (isOption_recRule hsym h)

/-- With a maximum, the `i`-th rule of the chain. -/
theorem words_chain (hsym : IsSymbol prevRule)
    (h : ∀ i < k, rules.rule (n + i) = recRule prevRule (recRef false n i)) :
    ∀ i < k, words (parsedGrammar rules) [.nonterminal (n + i)] =
      repeated (words (parsedGrammar rules) (formOf prevRule)) 0 (some (i + 1)) := by
  intro i hi
  rw [words_option (isOption_recRule hsym (h i hi)), words_append, repeated_succ]
  congr 2
  induction i with
  | zero => rw [repeated_zero]; exact words_nil
  | succ i ih =>
    have hprev := h i (Nat.lt_of_succ_lt hi)
    have href : (recRef false n (i + 1)).toList.map Symbol.nonterminal =
        [(Symbol.nonterminal (n + i) : Symbol (List GrammarElement) Nat)] := by
      simp [recRef, ← Nat.add_assoc]
    rw [href]
    exact (words_option (isOption_recRule hsym hprev)).trans
      (by rw [words_append, repeated_succ, ih (Nat.lt_of_succ_lt hi)])

/-- The symbol `m` times and then a reference. -/
theorem elementsLanguage_repeat (hsym : IsSymbol prevRule) (m : Nat) {rest : List GrammarElement}
    (hrest : IsSymbol rest) {b : Option Nat}
    (h : words (parsedGrammar rules) (formOf rest) = repeated (words (parsedGrammar rules) (formOf prevRule)) 0 b) :
    elementsLanguage rules ((List.replicate m prevRule).flatten ++ rest) =
      repeated (elementsLanguage rules prevRule) m (b.map (m + ·)) := by
  rw [elementsLanguage, (hsym.replicate m).formOf_append hrest, hsym.formOf_replicate, words_append,
    words_replicate, h, pow_mul_repeated, interpret_repeated, elementsLanguage]

end Language

/-! ## Suffixes -/

/-- The least and the greatest number of times that a suffix asks for. -/
def Suffix.bounds : Suffix → Nat × Option Nat
  | .star => (0, none)
  | .plus => (1, none)
  | .opt => (0, some 1)
  | .exactly m => (m.toNat, some m.toNat)
  | .atLeast m => (m.toNat, none)
  | .between m n => (m.toNat, some n.toNat)

/-- The repetition is refused: by the check of the numbers, or because there is nothing to
repeat, or because there would be too many rules. -/
def Refused (st : SequenceState) (s : Suffix) : Prop :=
  s.tooMany = true ∨ st.sym = [] ∨
    maxRepetitionThreshold ≤ st.nPrevRules * totalRules s.times.1 s.times.2

/-- The symbol of `st` is repeated between `m` and `n` times in `st'`, whatever the other
rules are. -/
structure Repeats (st st' : SequenceState) (m : Nat) (n : Option Nat) : Prop where
  front : st'.front = st.front
  language : ∀ rules, KeepsMade st.parser st'.parser rules →
    elementsLanguage rules st'.sym = repeated (elementsLanguage rules st.sym) m n

variable {s : Suffix} {st : SequenceState}

theorem applySuffix_refused (h : Refused st s) (ruleName pos : List UInt8) :
    ∃ message src, applySuffix st ruleName pos s = .error (.thrown message src) := by
  unfold applySuffix
  split
  · exact ⟨_, _, rfl⟩
  · next hmany =>
      unfold handleRepetitions
      split
      · exact ⟨_, _, rfl⟩
      · next hsym =>
          have hsane := (h.resolve_left hmany).resolve_left hsym
          exact ⟨_, _, dif_pos hsane⟩

theorem Suffix.times_le (h : ¬s.tooMany = true) :
    s.times.1.toNat ≤ 2000 ∧ (s.times.2 ≠ noMaximum → s.times.2.toNat ≤ 2000) := by
  have hthreshold : maxRepetitionThreshold.toNat = 2000 := rfl
  simp only [Suffix.tooMany, Bool.or_eq_true, Bool.and_eq_true, decide_eq_true_eq, not_or,
    not_and, UInt64.not_lt, UInt64.le_iff_toNat_le, hthreshold] at h
  exact h

theorem totalRules_bounds (h : ¬s.tooMany = true) : 1 ≤ (totalRules s.times.1 s.times.2).toNat ∧
      (totalRules s.times.1 s.times.2).toNat ≤ 2000 := by
  obtain ⟨hmin, hmax⟩ := Suffix.times_le h
  unfold totalRules
  split
  · next hno => exact ⟨UInt64.lt_iff_toNat_lt.mp hno.2, hmax hno.1⟩
  · split
    · next hpos => exact ⟨UInt64.lt_iff_toNat_lt.mp hpos, hmin⟩
    · exact ⟨by decide, by decide⟩

theorem applySuffix_ok (h : ¬Refused st s) (ruleName pos : List UInt8) :
    ∃ st', applySuffix st ruleName pos s = .ok st' ∧
      Made st.parser st'.parser st.sym (s.times.2 = noMaximum) (nOpt s.times.1 s.times.2).toNat ∧
      (s.times.1 ≤ s.times.2 → Repeats st st' s.times.1.toNat
        (if s.times.2 = noMaximum then none else some s.times.2.toNat)) := by
  simp only [Refused, not_or] at h
  obtain ⟨hmany, hsym, hsane⟩ := h
  obtain ⟨htotal, htotal'⟩ := totalRules_bounds hmany
  have hprev := st.nPrevRules_ok
  -- the product does not wrap, so the assertion holds
  have hmul : (st.nPrevRules * totalRules s.times.1 s.times.2).toNat =
      st.nPrevRules.toNat * (totalRules s.times.1 s.times.2).toNat := by
    rw [UInt64.toNat_mul, Nat.mod_eq_of_lt]
    exact (Nat.mul_lt_mul_of_lt_of_le hprev.2 htotal' (by decide)).trans (by decide)
  have hpos : 1 ≤ st.nPrevRules * totalRules s.times.1 s.times.2 := by
    rw [UInt64.le_iff_toNat_le, hmul]
    exact Nat.mul_pos hprev.1 htotal
  have hrun : ∃ st', applySuffix st ruleName pos s = .ok st' ∧ st'.front = st.front ∧
      ∃ made, made = (List.range (nOpt s.times.1 s.times.2).toNat).foldl
          (recStep ruleName ⟨st.sym, st.sym_ok⟩ (s.times.2 = noMaximum)) (st.parser, 0) ∧
        st'.parser = made.1 ∧
        st'.sym = (List.replicate s.times.1.toNat st.sym).flatten ++
          optElements (nOpt s.times.1 s.times.2) made.2 := by
    cases hst' : applySuffix st ruleName pos s with
    | error halt =>
      rw [applySuffix, if_neg hmany, handleRepetitions, if_neg hsym, dif_neg hsane, dif_pos hpos] at hst'
      cases hst'
    | ok st' =>
      rw [applySuffix, if_neg hmany, handleRepetitions, if_neg hsym, dif_neg hsane, dif_pos hpos] at hst'
      obtain rfl := Except.ok.inj hst'
      exact ⟨_, rfl, rfl, _, rfl, rfl, congrArg (· ++ _) (repeatElements_eq _ _)⟩
  obtain ⟨st', hst', hfront, made, hmade, hparser, hsym'⟩ := hrun
  obtain ⟨hrounds, hlast⟩ := foldl_recStep ruleName ⟨st.sym, st.sym_ok⟩ (s.times.2 = noMaximum)
    st.parser (nOpt s.times.1 s.times.2).toNat
  rw [← hmade, ← hparser] at hrounds
  rw [← hmade] at hlast
  refine ⟨st', hst', hrounds, fun hle => ⟨hfront, fun rules hkeeps => ?_⟩⟩
  have hrules : ∀ i < (nOpt s.times.1 s.times.2).toNat,
      rules.rule (st.parser.nSymbols + i) =
        recRule st.sym (recRef (s.times.2 = noMaximum) st.parser.nSymbols i) := fun i hi => by
    rw [hkeeps _ (Nat.le_add_right _ i) (by rw [hrounds.nSymbols]; omega), hrounds.rules i hi]
  rw [hsym']
  by_cases hno : s.times.2 = noMaximum
  · -- one rule, which refers to itself
    have hone : nOpt s.times.1 s.times.2 = 1 := if_pos hno
    rw [hone] at hrules hlast ⊢
    have hid : made.2 = st.parser.nSymbols := hlast (by decide)
    rw [if_pos hno, hid]
    refine elementsLanguage_repeat (b := none) st.sym_ok _ (isSymbol_optElements 1 _) ?_
    refine words_noMaximum st.sym_ok ?_
    simpa [hno] using hrules 0 (by decide)
  · -- a chain of as many rules as there are repetitions that may be left out
    have hopt : nOpt s.times.1 s.times.2 = s.times.2 - s.times.1 := if_neg hno
    have hsub : (nOpt s.times.1 s.times.2).toNat = s.times.2.toNat - s.times.1.toNat := by
      rw [hopt, UInt64.toNat_sub_of_le _ _ hle]
    have hmax : s.times.2.toNat = s.times.1.toNat + (nOpt s.times.1 s.times.2).toNat := by
      have := UInt64.le_iff_toNat_le.mp hle
      omega
    rw [if_neg hno, hmax]
    refine elementsLanguage_repeat (b := some (nOpt s.times.1 s.times.2).toNat) st.sym_ok _
      (isSymbol_optElements _ _) ?_
    rcases Nat.eq_zero_or_pos (nOpt s.times.1 s.times.2).toNat with hzero | hsome
    · have hnot : ¬0 < nOpt s.times.1 s.times.2 := by
        rw [UInt64.lt_iff_toNat_lt, hzero]
        exact Nat.lt_irrefl 0
      rw [optElements, if_neg hnot, hzero, repeated_zero]
      exact words_nil
    · have hlt : 0 < nOpt s.times.1 s.times.2 := UInt64.lt_iff_toNat_lt.mpr hsome
      have hid : made.2 = st.parser.nSymbols + ((nOpt s.times.1 s.times.2).toNat - 1) := by
        rw [hlast hsome, Nat.add_sub_assoc hsome]
      rw [optElements, if_pos hlt, hid]
      have hchain := @words_chain rules st.parser.nSymbols _ st.sym st.sym_ok
        (by simpa [hno] using hrules) _ (Nat.sub_lt hsome Nat.one_pos)
      rwa [Nat.sub_add_cancel hsome] at hchain

/-- A suffix is refused by an exception, or it makes up a limited number of rules; and if its
numbers are in order, the symbol is repeated as often as it says. -/
def SuffixCorrect (st : SequenceState) (ruleName pos : List UInt8) (s : Suffix) : Prop :=
  match applySuffix st ruleName pos s with
  | .error halt => ∃ message src, halt = .thrown message src
  | .ok st' =>
    st'.parser.nSymbols - st.parser.nSymbols ≤ maxRepetitionThreshold.toNat ∧
      ((∀ n ∈ s.bounds.2, s.bounds.1 ≤ n) → Repeats st st' s.bounds.1 s.bounds.2)

/-- The two numbers of a suffix that is not refused are in order.  The largest number is
written only where more repetitions than that match nothing new. -/
def NumbersOk (st : SequenceState) (s : Suffix) : Prop :=
  ∀ m n, s = .between m n → ¬Refused st s → m ≤ n ∧
    (n = noMaximum → ∀ rules : GrammarRules,
      rules.rule st.parser.nSymbols = recRule st.sym (some st.parser.nSymbols) →
        repeated (elementsLanguage rules st.sym) m.toNat none =
          repeated (elementsLanguage rules st.sym) m.toNat (some n.toNat))

/-- Where the second number is the smaller one, the number of rules wraps around. -/
theorem not_suffixCorrect_of_lt {m n : UInt64} (hlt : n < m) (h : ¬Refused st (.between m n))
    (ruleName pos : List UInt8) : ¬SuffixCorrect st ruleName pos (.between m n) := by
  obtain ⟨st', hst', hmade, -⟩ := applySuffix_ok h ruleName pos
  have hmany : ¬(Suffix.between m n).tooMany = true := fun hmany => h (.inl hmany)
  have hm : m.toNat ≤ 2000 := (Suffix.times_le hmany).1
  have hlt := UInt64.lt_iff_toNat_lt.mp hlt
  have hno : n ≠ noMaximum := by
    rintro rfl
    have : noMaximum.toNat = 18446744073709551615 := rfl
    omega
  have hopt : (nOpt m n).toNat = 2 ^ 64 - m.toNat + n.toNat := by
    rw [nOpt, if_neg hno, UInt64.toNat_sub, Nat.mod_eq_of_lt]
    omega
  rw [SuffixCorrect, hst']
  intro hcorrect
  have hcount : st'.parser.nSymbols = st.parser.nSymbols + (nOpt m n).toNat := hmade.nSymbols
  have hthreshold : maxRepetitionThreshold.toNat = 2000 := rfl
  omega

/-- The bounds of a suffix are its numbers, except where the largest number is written out. -/
theorem Suffix.bounds_eq (hmany : ¬s.tooMany = true) (hno : ∀ m, s ≠ .between m noMaximum) :
    s.bounds = (s.times.1.toNat, if s.times.2 = noMaximum then none else some s.times.2.toNat) := by
  cases s with
  | star | plus | opt | atLeast m => rfl
  | exactly m =>
    have hne : m ≠ noMaximum := by
      rintro rfl
      exact hmany rfl
    simp [Suffix.bounds, Suffix.times, hne]
  | between m n =>
    have hne : n ≠ noMaximum := by
      rintro rfl
      exact hno m rfl
    simp [Suffix.bounds, Suffix.times, hne]

theorem nOpt_le (hmany : ¬s.tooMany = true) (hle : s.times.1 ≤ s.times.2) :
    (nOpt s.times.1 s.times.2).toNat ≤ 2000 := by
  unfold nOpt
  split
  · decide
  · next hno =>
      rw [UInt64.toNat_sub_of_le _ _ hle]
      exact (Nat.sub_le _ _).trans ((Suffix.times_le hmany).2 hno)

theorem times_le_of_bounds (h : ∀ m n, s = .between m n → m ≤ n) : s.times.1 ≤ s.times.2 := by
  have hmax : ∀ m : UInt64, m ≤ noMaximum := fun m => by
    have := m.toNat_lt
    have hno : noMaximum.toNat = 18446744073709551615 := rfl
    rw [UInt64.le_iff_toNat_le]
    omega
  cases s with
  | star => exact hmax 0
  | plus => exact hmax 1
  | opt => decide
  | exactly m => exact UInt64.le_refl m
  | atLeast m => exact hmax m
  | between m n => exact h m n rfl

/-- The rules that keep the one rule made up where the largest number is written out. -/
theorem Made.keeps_iff {p p' : GrammarParser} {prevRule : List GrammarElement}
    (h : Made p p' prevRule true 1) (rules : GrammarRules) :
    KeepsMade p p' rules ↔ rules.rule p.nSymbols = recRule prevRule (some p.nSymbols) := by
  have hrule : p'.rules.rule p.nSymbols = recRule prevRule (some p.nSymbols) := h.rules 0 Nat.one_pos
  constructor
  · intro hkeeps
    rw [hkeeps _ (Nat.le_refl _) (by rw [h.nSymbols]; omega), hrule]
  · intro heq id hlo hhi
    rw [h.nSymbols] at hhi
    obtain rfl : id = p.nSymbols := by omega
    rw [heq, hrule]

/-- A repetition is right, and its rules are limited, if and only if it is refused or its
numbers are in order and the largest number is not written out to any effect. -/
theorem suffixCorrect_iff (st : SequenceState) (ruleName pos : List UInt8) (s : Suffix) :
    SuffixCorrect st ruleName pos s ↔ NumbersOk st s := by
  constructor
  · rintro hcorrect m n rfl hnot
    have hle : m ≤ n := by
      refine UInt64.not_lt.mp fun hlt => ?_
      exact not_suffixCorrect_of_lt hlt hnot ruleName pos hcorrect
    refine ⟨hle, ?_⟩
    rintro rfl rules hrule
    obtain ⟨st', hst', hmade, hrepeats⟩ := applySuffix_ok hnot ruleName pos
    rw [SuffixCorrect, hst'] at hcorrect
    have hbounds : ∀ b ∈ (Suffix.between m noMaximum).bounds.2,
        (Suffix.between m noMaximum).bounds.1 ≤ b := by
      rintro b ⟨⟩
      exact UInt64.le_iff_toNat_le.mp hle
    have hkeeps := (Made.keeps_iff hmade rules).mpr hrule
    exact ((hrepeats hle).language rules hkeeps).symm.trans
      ((hcorrect.2 hbounds).language rules hkeeps)
  · intro hok
    by_cases href : Refused st s
    · obtain ⟨message, src, herr⟩ := applySuffix_refused href ruleName pos
      rw [SuffixCorrect, herr]
      exact ⟨message, src, rfl⟩
    · obtain ⟨st', hst', hmade, hrepeats⟩ := applySuffix_ok href ruleName pos
      have hmany : ¬s.tooMany = true := fun hmany => href (.inl hmany)
      have hle : s.times.1 ≤ s.times.2 := times_le_of_bounds fun m n hs => (hok m n hs href).1
      rw [SuffixCorrect, hst']
      refine ⟨?_, fun _ => ?_⟩
      · have hopt : (nOpt s.times.1 s.times.2).toNat ≤ maxRepetitionThreshold.toNat :=
          nOpt_le hmany hle
        rw [hmade.nSymbols]
        omega
      · by_cases hno : ∃ m, s = .between m noMaximum
        · obtain ⟨m, rfl⟩ := hno
          refine ⟨(hrepeats hle).front, fun rules hkeeps => ?_⟩
          have hsame := (hok m noMaximum rfl href).2 rfl rules
            ((Made.keeps_iff hmade rules).mp hkeeps)
          exact ((hrepeats hle).language rules hkeeps).trans hsame
        · rw [Suffix.bounds_eq hmany (not_exists.mp hno)]
          exact hrepeats hle

/-- The sequence behind a literal of one character. -/
def oneLetter : SequenceState :=
  (SequenceState.start .init ⟨[], isBody_nil⟩).push .init
    ⟨literalElements [97], isSymbol_literalElements [97]⟩ 1

/-- After `"a"` the suffix `{2,1}` is not refused. -/
theorem reversedNumbers_accepted :
    ¬∀ (st : SequenceState) (ruleName pos : List UInt8) (s : Suffix),
      SuffixCorrect st ruleName pos s := by
  intro h
  have hnot : ¬Refused oneLetter (.between 2 1) := by
    unfold Refused
    decide
  exact not_suffixCorrect_of_lt (by decide) hnot [] [] (h oneLetter [] [] (.between 2 1))

end LlamaCpp
