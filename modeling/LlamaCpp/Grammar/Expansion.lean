import Mathlib.Data.Set.Finite.List
import LlamaCpp.Grammar.Rules

/-!
# What advancing a stack reaches

`WellFormed` says of a rule set what the comments of `llama_gretype` say: a modifier
follows a character element that it can modify, and a rule ends with its `END`.  Over such
rules the pointers of a stack stand at references and terminals (`StackOk`), and a round of
`llama_grammar_advance_stack` never aborts.

`Reaches` is the closure of one round.  The stack below the top is not looked at before
the top has vanished (`reaches_append_inv`), which is what the finiteness of an expansion
is proved by: `finite_reaches_stack` reduces it to the alternates of single rules.
-/

namespace LlamaCpp

open List Bool

open Worklist (Halt Step)

/-- The stacks that rounds of `llama_grammar_advance_stack` make of a stack. -/
abbrev Reaches (rules : GrammarRules) : GrammarStack → GrammarStack → Prop :=
  Worklist.Reaches (expand rules)

/-! ## Well-formed rules -/

/-- A modifier follows only elements that it can modify. -/
def GreType.mayFollow (prev : GreType) : GreType → Bool
  | .charRngUpper => prev = .char || prev = .charNot || prev = .charAlt
  | .charAlt => prev = .char || prev = .charNot || prev = .charAlt || prev = .charRngUpper
  | _ => true

/-- The elements behind one of type `prev` continue a rule. -/
def wellFormedFrom : GreType → List GrammarElement → Bool
  | _, [] => false
  | prev, e :: es =>
    prev.mayFollow e.type && (if e.type = .endOfRule then es.isEmpty else wellFormedFrom e.type es)

def WellFormed (rules : GrammarRules) : Prop := ∀ rule ∈ rules, wellFormedFrom .alt rule = true

instance (rules : GrammarRules) : Decidable (WellFormed rules) :=
  inferInstanceAs (Decidable (∀ rule ∈ rules, wellFormedFrom .alt rule = true))

variable {es : List GrammarElement}

variable {prev : GreType} {e : GrammarElement}

theorem wellFormedFrom_cons
    (h : wellFormedFrom prev (e :: es) = true) (he : e.type ≠ .endOfRule) :
    wellFormedFrom e.type es = true := by
  rw [wellFormedFrom, if_neg he, and_eq_true] at h
  exact h.2

/-- Where no modifier can follow, the elements could start an alternate. -/
theorem wellFormedFrom_alt
    (hprev : ∀ t, prev.mayFollow t = true → GreType.alt.mayFollow t = true)
    (h : wellFormedFrom prev es = true) : wellFormedFrom .alt es = true := by
  cases es with
  | nil => exact h
  | cons e es =>
    rw [wellFormedFrom, and_eq_true] at h ⊢
    exact ⟨hprev _ h.1, h.2⟩

theorem wellFormedFrom_alt_of_cons
    (he : e.type = .ruleRef ∨ e.type = .alt ∨ e.type = .token ∨ e.type = .tokenNot)
    (h : wellFormedFrom e.type es = true) : wellFormedFrom .alt es = true := by
  refine wellFormedFrom_alt (fun t => ?_) h
  rcases he with he | he | he | he <;> rw [he] <;> cases t <;> decide

/-! ## Pointers -/

section Pointers

variable {rules : GrammarRules} {pos : GrammarPos} {es : List GrammarElement} {r : Nat}

theorem from_add (n : Nat) : rules.from (pos.add n) = (rules.from pos).drop n := by
  simp [GrammarRules.from, GrammarPos.add]

theorem from_add_one (h : rules.from pos = e :: es) : rules.from (pos.add 1) = es := by
  rw [from_add, h, drop_succ_cons, drop_zero]

theorem at_eq (h : rules.from pos = e :: es) : rules.at pos = e := by
  rw [GrammarRules.at, h]
  rfl

/-- An element that is not an `END` is one of the rule. -/
theorem from_eq_cons (h : (rules.at pos).type ≠ .endOfRule) :
    rules.from pos = rules.at pos :: rules.from (pos.add 1) := by
  cases hes : rules.from pos with
  | nil =>
    rw [GrammarRules.at, hes] at h
    exact absurd rfl h
  | cons e es => rw [at_eq hes, from_add_one hes]

theorem ne_endOfRule_of_ruleRef (h : (rules.at pos).type = .ruleRef) : (rules.at pos).type ≠ .endOfRule := by
  rw [h]
  decide

theorem not_isEnd_of_ruleRef (h : (rules.at pos).type = .ruleRef) : (rules.at pos).isEndOfSequence = false := by
  simp [GrammarElement.isEndOfSequence, h]

/-- The suffixes of a rule that its later alternates start at. -/
def alternateSuffixes : List GrammarElement → List (List GrammarElement)
  | [] => []
  | e :: es =>
    match e.type with
    | .endOfRule => []
    | .alt => es :: alternateSuffixes es
    | _ => alternateSuffixes es

theorem laterAlternates_map_drop {rule : GrammarRule} {i : Nat} (h : rule.drop i = es) :
    (laterAlternates es i).map (rule.drop ·) = alternateSuffixes es := by
  induction es generalizing i with
  | nil => rfl
  | cons e es ih =>
    have htail : rule.drop (i + 1) = es := by
      rw [← drop_drop, h, drop_succ_cons, drop_zero]
    rw [laterAlternates, alternateSuffixes]
    cases e.type with
    | endOfRule => rfl
    | alt => exact congrArg₂ List.cons htail (ih htail)
    | _ => exact ih htail

/-- The alternates of a rule as suffixes of it. -/
theorem alternates_map_from (rules : GrammarRules) (r : Nat) :
    (alternates rules r).map rules.from = rules.rule r :: alternateSuffixes (rules.rule r) := by
  have hlater : (laterAlternates (rules.rule r) 0).map ((rules.rule r).drop ·) = _ :=
    laterAlternates_map_drop drop_zero
  rw [alternates, List.map_map, map_cons, ← hlater]
  rfl

theorem exists_alternate_iff {P : List GrammarElement → Prop} :
    (∃ q ∈ alternates rules r, P (rules.from q)) ↔
      P (rules.rule r) ∨ ∃ es ∈ alternateSuffixes (rules.rule r), P es := by
  have hmem : ∀ es, es ∈ (alternates rules r).map rules.from ↔
      es = rules.rule r ∨ es ∈ alternateSuffixes (rules.rule r) := fun es => by
    rw [alternates_map_from, mem_cons]
  constructor
  · rintro ⟨q, hq, hP⟩
    rcases (hmem _).mp (List.mem_map_of_mem hq) with heq | hes
    · exact .inl (heq ▸ hP)
    · exact .inr ⟨_, hes, hP⟩
  · rintro (hP | ⟨es, hes, hP⟩)
    · obtain ⟨q, hq, hqe⟩ := List.mem_map.mp ((hmem _).mpr (.inl rfl))
      exact ⟨q, hq, hqe ▸ hP⟩
    · obtain ⟨q, hq, hqe⟩ := List.mem_map.mp ((hmem _).mpr (.inr hes))
      exact ⟨q, hq, hqe ▸ hP⟩

theorem alternates_rule {q : GrammarPos} (hq : q ∈ alternates rules r) : q.rule = r := by
  obtain ⟨i, -, rfl⟩ := List.mem_map.mp hq
  rfl

theorem alternates_ne_nil (rules : GrammarRules) (r : Nat) : alternates rules r ≠ [] := by
  simp [alternates]

theorem wellFormed_alternateSuffixes (h : wellFormedFrom prev es = true) :
    ∀ es' ∈ alternateSuffixes es, wellFormedFrom .alt es' = true := by
  induction es generalizing prev with
  | nil => exact fun _ h => absurd h not_mem_nil
  | cons e es ih =>
    intro es' hes'
    rw [alternateSuffixes] at hes'
    split at hes'
    · exact absurd hes' not_mem_nil
    · rename_i halt
      have hes := wellFormedFrom_cons h (by rw [halt]; decide)
      rcases mem_cons.mp hes' with rfl | hes'
      · exact wellFormedFrom_alt_of_cons (.inr (.inl halt)) hes
      · exact ih hes es' hes'
    · rename_i hend _
      exact ih (wellFormedFrom_cons h hend) es' hes'

theorem wellFormed_rule (hwf : WellFormed rules) (hr : r < rules.length) :
    wellFormedFrom .alt (rules.rule r) = true := by
  refine hwf _ ?_
  rw [GrammarRules.rule, getD_eq_getElem?_getD, getElem?_eq_getElem hr, Option.getD_some]
  exact getElem_mem hr

theorem wellFormed_alternate (hwf : WellFormed rules) (hr : r < rules.length) {q : GrammarPos}
    (hq : q ∈ alternates rules r) : wellFormedFrom .alt (rules.from q) = true := by
  have hmem := List.mem_map_of_mem (f := rules.from) hq
  rw [alternates_map_from] at hmem
  rcases mem_cons.mp hmem with heq | hmem
  · rw [heq]
    exact wellFormed_rule hwf hr
  · exact wellFormed_alternateSuffixes (wellFormed_rule hwf hr) _ hmem

end Pointers

/-! ## One round -/

section Round

variable {rules : GrammarRules} {pos : GrammarPos} {below s : GrammarStack}

/-- Every reference names a rule. -/
def RefsOk (rules : GrammarRules) : Prop :=
  ∀ rule ∈ rules, ∀ e ∈ rule, e.type = .ruleRef → e.value < rules.length

theorem refsOk_of_validReferences (h : validReferences rules = true) : RefsOk rules := by
  intro rule hrule e he htype
  have := List.all_eq_true.mp (List.all_eq_true.mp h rule hrule) e he
  simpa [htype] using this

/-- The pointers stand at references and terminals. -/
def StackOk (rules : GrammarRules) (stack : GrammarStack) : Prop :=
  ∀ pos ∈ stack, wellFormedFrom .alt (rules.from pos) = true ∧ (rules.at pos).isEndOfSequence = false

theorem at_mem_rule (h : (rules.at pos).type ≠ .endOfRule) :
    pos.rule < rules.length ∧ rules.at pos ∈ rules.rule pos.rule := by
  have hmem : rules.at pos ∈ rules.rule pos.rule :=
    mem_of_mem_drop (i := pos.index) (by
      have := from_eq_cons h
      rw [GrammarRules.from] at this
      rw [this]
      exact mem_cons_self)
  refine ⟨?_, hmem⟩
  by_contra hlt
  rw [GrammarRules.rule, getD_eq_getElem?_getD, getElem?_eq_none (Nat.le_of_not_lt hlt)] at hmem
  exact absurd hmem not_mem_nil

theorem ref_lt (hrefs : RefsOk rules) (h : (rules.at pos).type = .ruleRef) : (rules.at pos).value < rules.length := by
  obtain ⟨hlt, hmem⟩ := at_mem_rule (ne_endOfRule_of_ruleRef h)
  rw [GrammarRules.rule, getD_eq_getElem?_getD, getElem?_eq_getElem hlt, Option.getD_some] at hmem
  exact hrefs _ (getElem_mem hlt) _ hmem h

theorem pushUnlessEnd_append (pos : GrammarPos) (stack rest : GrammarStack) :
    pushUnlessEnd rules pos (stack ++ rest) = pushUnlessEnd rules pos stack ++ rest := by
  unfold pushUnlessEnd
  split <;> rfl

theorem pushUnlessEnd_of_end (h : (rules.at pos).isEndOfSequence = true) (stack : GrammarStack) :
    pushUnlessEnd rules pos stack = stack := if_pos h

theorem pushUnlessEnd_of_not_end (h : (rules.at pos).isEndOfSequence = false) (stack : GrammarStack) :
    pushUnlessEnd rules pos stack = pos :: stack := by
  rw [pushUnlessEnd, h, if_neg Bool.false_ne_true]

/-- A round replaces a reference by an alternate of the rule. -/
theorem step_cons_iff {stack : GrammarStack} : Step (expand rules) (pos :: below) stack ↔
      (rules.at pos).type = .ruleRef ∧ ∃ q ∈ alternates rules (rules.at pos).value,
        stack = pushUnlessEnd rules q (pushUnlessEnd rules (pos.add 1) below) := by
  unfold Step
  rw [expand]
  cases htype : (rules.at pos).type <;> simp [eq_comm]

theorem not_step_nil {stack : GrammarStack} : ¬Step (expand rules) [] stack := by
  simp [Step, expand]

theorem stackOk_pushUnlessEnd (hpos : wellFormedFrom .alt (rules.from pos) = true)
    (hbelow : StackOk rules below) : StackOk rules (pushUnlessEnd rules pos below) := by
  cases hend : (rules.at pos).isEndOfSequence with
  | true => rwa [pushUnlessEnd_of_end hend]
  | false =>
    rw [pushUnlessEnd_of_not_end hend]
    intro p hp
    rcases mem_cons.mp hp with rfl | hp
    · exact ⟨hpos, hend⟩
    · exact hbelow p hp

/-- What follows a reference can be stood at. -/
theorem wellFormed_add_one (hpos : wellFormedFrom .alt (rules.from pos) = true)
    (htype : (rules.at pos).type = .ruleRef ∨ (rules.at pos).type = .alt ∨
      (rules.at pos).type = .token ∨ (rules.at pos).type = .tokenNot) :
    wellFormedFrom .alt (rules.from (pos.add 1)) = true := by
  have hne : (rules.at pos).type ≠ .endOfRule := by
    rcases htype with h | h | h | h <;> rw [h] <;> decide
  rw [from_eq_cons hne] at hpos
  exact wellFormedFrom_alt_of_cons htype (wellFormedFrom_cons hpos hne)

theorem StackOk.step (hwf : WellFormed rules) (hrefs : RefsOk rules) {s' : GrammarStack}
    (hs : StackOk rules s) (hstep : Step (expand rules) s s') : StackOk rules s' := by
  cases s with
  | nil => exact absurd hstep not_step_nil
  | cons pos below =>
    obtain ⟨htype, q, hq, rfl⟩ := step_cons_iff.mp hstep
    have hpos := (hs pos mem_cons_self).1
    have hbelow : StackOk rules below := fun p hp => hs p (mem_cons_of_mem _ hp)
    exact stackOk_pushUnlessEnd (wellFormed_alternate hwf (ref_lt hrefs htype) hq)
      (stackOk_pushUnlessEnd (wellFormed_add_one hpos (.inl htype)) hbelow)

theorem StackOk.reaches (hwf : WellFormed rules) (hrefs : RefsOk rules) {s' : GrammarStack}
    (hs : StackOk rules s) (h : Reaches rules s s') : StackOk rules s' :=
  Worklist.Reaches.mem_of_closed (S := {s | StackOk rules s})
    (fun _ hs _ hstep => StackOk.step hwf hrefs hs hstep) hs h

/-- A pointer of a stack stands at a reference or at a terminal. -/
theorem StackOk.top (hs : StackOk rules (pos :: below)) :
    (rules.at pos).type = .ruleRef ∨ (rules.at pos).type.isTerminal = true := by
  obtain ⟨hpos, hend⟩ := hs pos mem_cons_self
  have hne : (rules.at pos).type ≠ .endOfRule := by
    intro h
    simp [GrammarElement.isEndOfSequence, h] at hend
  rw [from_eq_cons hne, wellFormedFrom, and_eq_true] at hpos
  cases htype : (rules.at pos).type <;>
    simp_all [GreType.mayFollow, GreType.isTerminal, GrammarElement.isEndOfSequence]

/-- A round on well-formed rules does not abort. -/
theorem StackOk.expand_ok (hs : StackOk rules s) : ∃ ys, expand rules s = .ok ys := by
  cases s with
  | nil => exact ⟨[], rfl⟩
  | cons pos below =>
    rw [expand]
    rcases hs.top with htype | htype
    · rw [htype]
      exact ⟨_, rfl⟩
    · cases hty : (rules.at pos).type <;> rw [hty] at htype <;>
        first | exact ⟨_, rfl⟩ | exact absurd htype (by decide)

end Round

/-! ## Stacks in two parts -/

section Parts

variable {rules : GrammarRules} {a b s : GrammarStack}

theorem step_append (hstep : Step (expand rules) a b) (rest : GrammarStack) :
    Step (expand rules) (a ++ rest) (b ++ rest) := by
  cases a with
  | nil => exact absurd hstep not_step_nil
  | cons pos below =>
    obtain ⟨htype, q, hq, rfl⟩ := step_cons_iff.mp hstep
    refine step_cons_iff.mpr ⟨htype, q, hq, ?_⟩
    rw [← pushUnlessEnd_append, ← pushUnlessEnd_append]
    rfl

theorem step_append_inv (ha : a ≠ []) {rest : GrammarStack}
    (hstep : Step (expand rules) (a ++ rest) s) :
    ∃ b, Step (expand rules) a b ∧ s = b ++ rest := by
  cases a with
  | nil => exact absurd rfl ha
  | cons pos below =>
    obtain ⟨htype, q, hq, rfl⟩ := step_cons_iff.mp hstep
    refine ⟨_, step_cons_iff.mpr ⟨htype, q, hq, rfl⟩, ?_⟩
    rw [← pushUnlessEnd_append, ← pushUnlessEnd_append]
    rfl

theorem reaches_append (h : Reaches rules a b) (rest : GrammarStack) : Reaches rules (a ++ rest) (b ++ rest) := by
  induction h with
  | refl => exact .refl _
  | tail _ hstep ih => exact ih.tail (step_append hstep rest)

/-- The lower part is untouched until the upper part has vanished. -/
theorem reaches_append_inv {rest : GrammarStack} (h : Reaches rules (a ++ rest) s) :
    (∃ b, Reaches rules a b ∧ s = b ++ rest) ∨ (Reaches rules a [] ∧ Reaches rules rest s) := by
  induction h with
  | refl => exact .inl ⟨a, .refl _, rfl⟩
  | tail _ hstep ih =>
    rcases ih with ⟨b, hab, rfl⟩ | ⟨ha, hrest⟩
    · cases b with
      | nil => exact .inr ⟨hab, Relation.ReflTransGen.single hstep⟩
      | cons pos below =>
        obtain ⟨b', hb', rfl⟩ := step_append_inv (cons_ne_nil _ _) hstep
        exact .inl ⟨b', hab.tail hb', rfl⟩
    · exact .inr ⟨ha, hrest.tail hstep⟩

end Parts

/-! ## Behind a terminal -/

section Behind

variable {rules : GrammarRules}

/-- The number of elements that `llama_grammar_match_char` passes. -/
def passed : List GrammarElement → Nat
  | _ :: u :: es =>
    if u.type = .charRngUpper then
      if (headElement es).type = .charAlt then passed es + 2 else 2
    else if u.type = .charAlt then passed (u :: es) + 1
    else 1
  | [_] => 1
  | [] => 0

theorem matchCharLoop_snd (chr : Nat) (es : List GrammarElement) (found : Bool) (n : Nat) :
    (matchCharLoop chr es found n).2 = n + passed es := by
  fun_induction matchCharLoop chr es found n <;> simp_all [passed] <;> omega

/-- The types that a char range starts with or goes on with. -/
def GreType.isRangeStart (t : GreType) : Bool :=
  t = .char || t = .charNot || t = .charAlt || t = .charAny

/-- A char range is followed by something that can be stood at. -/
theorem wellFormed_drop_passed {es : List GrammarElement}
    (h : wellFormedFrom prev es = true) (hhead : (headElement es).type.isRangeStart = true) :
    wellFormedFrom .alt (es.drop (passed es)) = true := by
  fun_induction passed es generalizing prev with
  | case1 e u es hrng halt ih =>
    have he : e.type ≠ .endOfRule := fun h => by simp [headElement, h, GreType.isRangeStart] at hhead
    have htail := wellFormedFrom_cons (wellFormedFrom_cons h he) (by rw [hrng]; decide)
    exact ih htail (by rw [halt]; rfl)
  | case2 e u es hrng halt =>
    have he : e.type ≠ .endOfRule := fun h => by simp [headElement, h, GreType.isRangeStart] at hhead
    have htail := wellFormedFrom_cons (wellFormedFrom_cons h he) (by rw [hrng]; decide)
    rw [hrng] at htail
    cases es with
    | nil => exact htail
    | cons f es =>
      have hf : f.type ≠ .charAlt := halt
      rw [wellFormedFrom, and_eq_true] at htail
      show wellFormedFrom .alt (f :: es) = true
      rw [wellFormedFrom, and_eq_true]
      refine ⟨?_, htail.2⟩
      cases htype : f.type <;> simp_all [GreType.mayFollow]
  | case3 e u es hrng halt ih =>
    have he : e.type ≠ .endOfRule := fun h => by simp [headElement, h, GreType.isRangeStart] at hhead
    exact ih (wellFormedFrom_cons h he) (by simp [headElement, halt, GreType.isRangeStart])
  | case4 e u es hrng halt =>
    have he : e.type ≠ .endOfRule := fun h => by simp [headElement, h, GreType.isRangeStart] at hhead
    have htail := wellFormedFrom_cons h he
    show wellFormedFrom .alt (u :: es) = true
    rw [wellFormedFrom, and_eq_true] at htail ⊢
    refine ⟨?_, htail.2⟩
    cases htype : u.type <;> simp_all [GreType.mayFollow]
  | case5 e =>
    have he : e.type ≠ .endOfRule := fun h => by simp [headElement, h, GreType.isRangeStart] at hhead
    exact absurd (wellFormedFrom_cons h he) (by simp [wellFormedFrom])
  | case6 => exact h

/-- The pointer behind the terminal at a pointer. -/
def behindTop (rules : GrammarRules) (pos : GrammarPos) : GrammarPos :=
  match (rules.at pos).type with
  | .token | .tokenNot => pos.add 1
  | _ => pos.add (passed (rules.from pos))

theorem wellFormed_behindTop {pos : GrammarPos}
    (hpos : wellFormedFrom .alt (rules.from pos) = true)
    (hterm : (rules.at pos).type.isTerminal = true) :
    wellFormedFrom .alt (rules.from (behindTop rules pos)) = true := by
  have hrange : (rules.at pos).type.isRangeStart = true →
      wellFormedFrom .alt (rules.from (pos.add (passed (rules.from pos)))) = true := by
    intro hstart
    rw [from_add]
    exact wellFormed_drop_passed hpos hstart
  unfold behindTop
  cases htype : (rules.at pos).type <;> rw [htype] at hterm hrange <;>
    first | exact hrange rfl | exact wellFormed_add_one hpos (by simp [htype]) |
      exact absurd hterm (by decide)

/-- Passing the terminal on top keeps a stack in order. -/
theorem StackOk.behindTop {pos : GrammarPos} {below : GrammarStack}
    (hs : StackOk rules (pos :: below)) (hterm : (rules.at pos).type.isTerminal = true) :
    StackOk rules (pushUnlessEnd rules (behindTop rules pos) below) :=
  stackOk_pushUnlessEnd (wellFormed_behindTop (hs pos mem_cons_self).1 hterm)
    fun p hp => hs p (mem_cons_of_mem _ hp)

theorem stackOk_alternate (hwf : WellFormed rules) {r : Nat} (hr : r < rules.length)
    {q : GrammarPos} (hq : q ∈ alternates rules r) : StackOk rules (pushUnlessEnd rules q []) :=
  stackOk_pushUnlessEnd (wellFormed_alternate hwf hr hq) fun _ hp => absurd hp not_mem_nil

end Behind

end LlamaCpp
