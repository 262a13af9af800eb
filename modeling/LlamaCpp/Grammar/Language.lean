import LlamaCpp.Grammar.Accept
import LlamaCpp.Lib.Leftmost

/-!
# The language of a grammar

`grammarOf` is the context-free grammar that a rule set stands for.  Its terminals are
sets of code points, one for each char range; a derivation gives a sequence of such sets,
and a string is derivable when its code points are members of them one by one.

A stack stands for a sentential form (`form`).  A round of `llama_grammar_advance_stack`
rewrites its leftmost nonterminal and `llama_grammar_accept_chr` takes its leftmost
terminal, so accepting a string follows the leftmost derivations that start with it:
`accept_sound` and `accept_complete` say so for one stack, `accept_recognises_iff` for the
grammar.
-/

namespace LlamaCpp

open List

open LeftmostDerivation (Leftmost)
open Relation (ReflTransGen TransGen)
open Worklist (Halt Step Settles)

/-! ## Sentential forms -/

/-- The symbols of the rest of an alternate. -/
def symbolsFrom : List GrammarElement → List (Symbol CharSet Nat)
  | [] => []
  | e :: es =>
    match e.type with
    | .endOfRule | .alt => []
    | .ruleRef => .nonterminal e.value :: symbolsFrom es
    | .charRngUpper | .charAlt => symbolsFrom es
    | .char | .charNot | .charAny | .token | .tokenNot =>
      .terminal (charSetAt (e :: es)) :: symbolsFrom es

/-- The context-free grammar of a rule set. -/
def grammarOf (rules : GrammarRules) (startRuleIndex : Nat) : ContextFreeGrammar CharSet where
  NT := Nat
  initial := startRuleIndex
  rules := ((List.range rules.length).flatMap fun r =>
    (alternates rules r).map fun q => ⟨r, symbolsFrom (rules.from q)⟩).toFinset

def form (rules : GrammarRules) (stack : GrammarStack) : List (Symbol CharSet Nat) :=
  stack.flatMap fun pos => symbolsFrom (rules.from pos)

variable {es : List GrammarElement}

section Forms

variable {rules : GrammarRules} {start : Nat}

theorem mem_grammarOf_rules {r : ContextFreeRule CharSet Nat} :
    r ∈ (grammarOf rules start).rules ↔ r.input < rules.length ∧
      ∃ q ∈ alternates rules r.input, r.output = symbolsFrom (rules.from q) := by
  have hmem : r ∈ (grammarOf rules start).rules ↔ r ∈ (List.range rules.length).flatMap fun r =>
      (alternates rules r).map fun q => (⟨r, symbolsFrom (rules.from q)⟩ : ContextFreeRule _ _) :=
    List.mem_toFinset
  simp only [hmem, mem_flatMap, mem_range, List.mem_map]
  constructor
  · rintro ⟨v, hv, q, hq, rfl⟩
    exact ⟨hv, q, hq, rfl⟩
  · rintro ⟨hv, q, hq, hout⟩
    exact ⟨r.input, hv, q, hq, by rw [← hout]⟩

theorem symbolsFrom_of_end
    (h : (headElement es).isEndOfSequence = true) : symbolsFrom es = [] := by
  cases es with
  | nil => rfl
  | cons e es =>
    have he : e.type = .endOfRule ∨ e.type = .alt := by
      simpa [headElement, GrammarElement.isEndOfSequence] using h
    rcases he with he | he <;> simp [symbolsFrom, he]

@[simp] theorem form_nil : form rules [] = [] := rfl

theorem form_cons (pos : GrammarPos) (below : GrammarStack) :
    form rules (pos :: below) = symbolsFrom (rules.from pos) ++ form rules below := rfl

@[simp] theorem form_pushUnlessEnd (pos : GrammarPos) (below : GrammarStack) :
    form rules (pushUnlessEnd rules pos below) = symbolsFrom (rules.from pos) ++ form rules below := by
  cases hend : (rules.at pos).isEndOfSequence with
  | true => rw [pushUnlessEnd_of_end hend, symbolsFrom_of_end hend, nil_append]
  | false => rw [pushUnlessEnd_of_not_end hend, form_cons]

/-- The modifiers that `llama_grammar_match_char` passes are no symbols. -/
theorem symbolsFrom_tail (es : List GrammarElement) : symbolsFrom es.tail = symbolsFrom (es.drop (passed es)) := by
  have hskip : ∀ {es : List GrammarElement}, (headElement es).type = .charAlt →
      symbolsFrom es = symbolsFrom es.tail := by
    intro es h
    cases es with
    | nil => rfl
    | cons e es =>
      have he : e.type = .charAlt := h
      simp [symbolsFrom, he]
  fun_induction passed es with
  | case1 e u es hrng halt ih =>
    have hu : symbolsFrom (u :: es) = symbolsFrom es := by simp [symbolsFrom, hrng]
    rw [tail_cons, hu, hskip halt, ih]
    rfl
  | case2 e u es hrng halt => simp [symbolsFrom, hrng]
  | case3 e u es hrng halt ih =>
    rw [tail_cons, @hskip (u :: es) halt, ih]
    rfl
  | case4 e u es hrng halt => rfl
  | case5 e => rfl
  | case6 => rfl

theorem form_top {pos : GrammarPos} {below : GrammarStack} :
    ((rules.at pos).type = .ruleRef → form rules (pos :: below) =
      .nonterminal (rules.at pos).value ::
        form rules (pushUnlessEnd rules (pos.add 1) below)) ∧
    ((rules.at pos).type.isTerminal = true → form rules (pos :: below) =
      .terminal (charSetAt (rules.from pos)) ::
        form rules (pushUnlessEnd rules (behindTop rules pos) below)) := by
  rw [form_pushUnlessEnd, form_pushUnlessEnd, form_cons]
  constructor
  · intro htype
    rw [from_eq_cons (ne_endOfRule_of_ruleRef htype)]
    simp [symbolsFrom, htype]
  · intro hterm
    have hne : (rules.at pos).type ≠ .endOfRule := by
      intro h
      rw [h] at hterm
      exact absurd hterm (by decide)
    have hcons := from_eq_cons hne
    have hrange : symbolsFrom (rules.from (pos.add 1)) =
        symbolsFrom (rules.from (pos.add (passed (rules.from pos)))) := by
      rw [from_add, from_add, ← symbolsFrom_tail, drop_one]
    unfold behindTop
    cases htype : (rules.at pos).type <;> rw [htype] at hterm <;>
      first
      | exact absurd hterm (by decide)
      | (dsimp only
         try rw [← hrange]
         conv_lhs => rw [hcons]
         rw [hcons]
         simp [symbolsFrom, htype])

end Forms

/-! ## Stacks follow leftmost derivations -/

variable {l : GrammarStack}

section Simulation

variable {rules : GrammarRules} {start : Nat} {s : GrammarStack} {ts : List CharSet}

/-- A round rewrites the leftmost nonterminal. -/
theorem leftmost_of_step (hrefs : RefsOk rules) {s' : GrammarStack} {β : List (Symbol CharSet Nat)}
    (hstep : Step (expand rules) s s') (h : Leftmost (grammarOf rules start) (form rules s') ts β) :
    Leftmost (grammarOf rules start) (form rules s) ts β := by
  cases s with
  | nil => exact absurd hstep not_step_nil
  | cons pos below =>
    obtain ⟨htype, q, hq, rfl⟩ := step_cons_iff.mp hstep
    rw [form_top.1 htype]
    rw [form_pushUnlessEnd] at h
    exact .rule (r := ⟨(rules.at pos).value, symbolsFrom (rules.from q)⟩)
      (mem_grammarOf_rules.mpr ⟨ref_lt hrefs htype, q, hq, rfl⟩) h

theorem leftmost_of_reaches (hrefs : RefsOk rules) {s' : GrammarStack} {β : List (Symbol CharSet Nat)}
    (hreach : Reaches rules s s') (h : Leftmost (grammarOf rules start) (form rules s') ts β) :
    Leftmost (grammarOf rules start) (form rules s) ts β := by
  induction hreach using ReflTransGen.head_induction_on with
  | refl => exact h
  | head hstep _ ih => exact leftmost_of_step hrefs hstep ih

/-- The code points a stack consumes are members of the terminals that its sentential form
starts with, and what it becomes is the rest of the form. -/
theorem accept_sound (hrefs : RefsOk rules) {w : List Nat}
    (h : Consumes rules s w l) : ∃ ts, List.Forall₂ CharSet.Matches ts w ∧
      Leftmost (grammarOf rules start) (form rules s) ts (form rules l) := by
  induction h with
  | nil => exact ⟨[], .nil, .done⟩
  | cons hpass _ ih =>
    obtain ⟨pos, below, rfl, hm, hadv⟩ := hpass
    obtain ⟨ts, hts, hleft⟩ := ih
    have hterm : (rules.at pos).type.isTerminal = true := by
      have hhead : (headElement (rules.from pos)).type = (rules.at pos).type := rfl
      unfold charSetAt at hm
      rw [hhead] at hm
      cases htype : (rules.at pos).type <;> rw [htype] at hm <;>
        first | rfl | exact absurd hm id
    refine ⟨_ :: ts, .cons hm hts, ?_⟩
    rw [form_top.2 hterm]
    exact .terminal (leftmost_of_reaches hrefs hadv.1 hleft)

/-- A stack whose sentential form is empty is empty. -/
theorem StackOk.form_ne_nil (hs : StackOk rules s) (hne : s ≠ []) : form rules s ≠ [] := by
  cases s with
  | nil => exact absurd rfl hne
  | cons pos below =>
    rcases hs.top with htype | hterm
    · rw [form_top.1 htype]
      exact cons_ne_nil _ _
    · rw [form_top.2 hterm]
      exact cons_ne_nil _ _

/-- Some string of rounds and code points leads from `s` to `l`. -/
def Accepts (rules : GrammarRules) (s : GrammarStack) (w : List Nat) (l : GrammarStack) : Prop :=
  ∃ s₀, Advances rules s s₀ ∧ Consumes rules s₀ w l

/-- A leftmost derivation whose terminals contain the code points of `w` is followed by the
stack, down to the empty stack when the derivation is complete. -/
theorem accept_complete (hwf : WellFormed rules) (hrefs : RefsOk rules)
    (hfinish : ∀ s, StackOk rules s → ∃ l, Advances rules s l)
    {α β : List (Symbol CharSet (grammarOf rules start).NT)}
    (h : Leftmost (grammarOf rules start) α ts β) :
    ∀ s, StackOk rules s → form rules s = α → ∀ w, List.Forall₂ CharSet.Matches ts w →
      ∃ l, Accepts rules s w l ∧ (β = [] → l = []) := by
  induction h with
  | @done α =>
    rintro s hs rfl w hw
    cases hw
    by_cases hne : s = []
    · subst hne
      exact ⟨[], ⟨[], ⟨.refl _, rfl⟩, .nil⟩, fun _ => rfl⟩
    · obtain ⟨l, hl⟩ := hfinish s hs
      exact ⟨l, ⟨l, hl, .nil⟩, fun h => absurd h (hs.form_ne_nil hne)⟩
  | @terminal α β t ts _ ih =>
    rintro s hs hform w hw
    cases hw with
    | @cons _ chr _ w hm hw =>
      cases s with
      | nil => exact absurd hform (by simp)
      | cons pos below =>
        rcases hs.top with htype | hterm
        · rw [form_top.1 htype] at hform
          exact absurd (List.cons.inj hform).1 (by simp)
        · rw [form_top.2 hterm] at hform
          obtain ⟨hset, hrest⟩ := List.cons.inj hform
          obtain ⟨l, ⟨s₀, hadv, hcons⟩, hnil⟩ := ih _ (hs.behindTop hterm) hrest w hw
          refine ⟨l, ⟨pos :: below, ⟨.refl _, hterm⟩, .cons ⟨pos, below, rfl, ?_, hadv⟩ hcons⟩, hnil⟩
          rw [Symbol.terminal.inj hset]
          exact hm
  | @rule α β r ts hr _ ih =>
    rintro s hs hform w hw
    cases s with
    | nil => exact absurd hform (by simp)
    | cons pos below =>
      rcases hs.top with htype | hterm
      · rw [form_top.1 htype] at hform
        obtain ⟨hset, hrest⟩ := List.cons.inj hform
        have hvalue : (rules.at pos).value = r.input := Symbol.nonterminal.inj hset
        obtain ⟨-, q, hq, hout⟩ := mem_grammarOf_rules.mp hr
        have hstep : Step (expand rules) (pos :: below) _ :=
          step_cons_iff.mpr ⟨htype, q, hvalue ▸ hq, rfl⟩
        have hform' : form rules (pushUnlessEnd rules q (pushUnlessEnd rules (pos.add 1) below)) = r.output ++ α :=
          (form_pushUnlessEnd _ _).trans (congrArg₂ (· ++ ·) hout.symm hrest)
        obtain ⟨l, ⟨s₀, hadv, hcons⟩, hnil⟩ := ih _ (hs.step hwf hrefs hstep) hform' w hw
        exact ⟨l, ⟨s₀, ⟨.head hstep hadv.1, hadv.2⟩, hcons⟩, hnil⟩
      · rw [form_top.2 hterm] at hform
        exact absurd (List.cons.inj hform).1 (by simp)

/-! ## Every stack finishes -/

theorem finite_corners (rules : GrammarRules) (r : Nat) :
    {v | TransGen (Corner rules (Nullable rules)) r v}.Finite := by
  refine ((finite_positions rules).image fun x => (rules.at x).value).subset fun v hv => ?_
  obtain ⟨u, -, x, -, htype, hvalue⟩ := TransGen.tail'_iff.mp hv
  exact ⟨x, ne_endOfRule_of_ruleRef htype, hvalue⟩

/-- The alternates of a rule finish.  The induction is on the rules that the rule starts
with. -/
def RuleFinishes (rules : GrammarRules) (r : Nat) : Prop :=
  ∀ q ∈ alternates rules r, ∃ l, Advances rules (pushUnlessEnd rules q []) l

theorem StackOk.of_push {pos : GrammarPos} {below : GrammarStack}
    (hs : StackOk rules (pos :: below)) : StackOk rules [pos] ∧ StackOk rules below :=
  ⟨fun p hp => hs p (mem_cons.mpr (.inl (mem_singleton.mp hp))), fun p hp => hs p (mem_cons_of_mem _ hp)⟩

theorem Advances.append {a : GrammarStack} (h : Advances rules a l) (hne : l ≠ [])
    (rest : GrammarStack) : Advances rules (a ++ rest) (l ++ rest) := by
  refine ⟨reaches_append h.1 rest, ?_⟩
  cases l with
  | nil => exact absurd rfl hne
  | cons pos below => exact h.2

/-- A pointer finishes when the rules that can come to its top do.  The induction is on the
elements behind it. -/
theorem finishes_one {pos : GrammarPos} (hes : rules.from pos = es)
    (hok : wellFormedFrom .alt (rules.from pos) = true)
    (hrule : ∀ x, LeftReaches rules (Nullable rules) pos x → (rules.at x).type = .ruleRef →
      RuleFinishes rules (rules.at x).value) :
    ∃ l, Advances rules (pushUnlessEnd rules pos []) l := by
  induction es generalizing pos with
  | nil =>
    rw [hes] at hok
    exact absurd hok (by simp [wellFormedFrom])
  | cons e es ih =>
    cases hend : (rules.at pos).isEndOfSequence with
    | true =>
      rw [pushUnlessEnd_of_end hend]
      exact ⟨[], .refl _, rfl⟩
    | false =>
      rw [pushUnlessEnd_of_not_end hend]
      have hs : StackOk rules [pos] := fun p hp => by
        obtain rfl := mem_singleton.mp hp
        exact ⟨hok, hend⟩
      rcases hs.top with htype | hterm
      · obtain ⟨q, hq⟩ := exists_mem_of_ne_nil _
          (alternates_ne_nil rules (rules.at pos).value)
        have hstep : Step (expand rules) [pos] _ := step_cons_iff.mpr ⟨htype, q, hq, rfl⟩
        obtain ⟨l, hl⟩ := hrule pos .refl htype q hq
        by_cases hnil : l = []
        · -- the alternate vanishes, and the pointer behind the reference is left
          subst hnil
          have hnull : Nullable rules (rules.at pos).value :=
            nullable_iff_reaches.mpr ⟨q, hq, hl.1⟩
          obtain ⟨l', hl'⟩ := ih (from_add_one hes) (wellFormed_add_one hok (.inl htype))
            fun x hx hxt => hrule x (.skip htype hnull hx) hxt
          have hupper := reaches_append hl.1 (pushUnlessEnd rules (pos.add 1) [])
          rw [← pushUnlessEnd_append] at hupper
          exact ⟨l', .head hstep (hupper.trans hl'.1), hl'.2⟩
        · have hupper := hl.append hnil (pushUnlessEnd rules (pos.add 1) [])
          rw [← pushUnlessEnd_append] at hupper
          exact ⟨_, .head hstep hupper.1, hupper.2⟩
      · exact ⟨[pos], .refl _, hterm⟩

theorem ruleFinishes (hwf : WellFormed rules) (hrefs : RefsOk rules)
    (hrec : ¬LeftRecursive rules) (r : Nat) (hr : r < rules.length) : RuleFinishes rules r := by
  induction hk : {v | TransGen (Corner rules (Nullable rules)) r v}.ncard
    using Nat.strong_induction_on generalizing r with
  | _ k ih =>
    intro q hq
    refine finishes_one rfl (wellFormed_alternate hwf hr hq) fun x hx htype => ?_
    have hcorner : Corner rules (Nullable rules) r (rules.at x).value := ⟨x, ⟨q, hq, hx⟩, htype, rfl⟩
    refine ih _ ?_ _ (ref_lt hrefs htype) rfl
    rw [← hk]
    refine Set.ncard_lt_ncard ⟨fun v hv => TransGen.head hcorner hv, fun hsub => ?_⟩
      (finite_corners rules r)
    exact hrec ⟨_, hsub (TransGen.single hcorner)⟩

/-- Without left recursion every stack advances to some finished stack. -/
theorem exists_advances (hwf : WellFormed rules) (hrefs : RefsOk rules) (hrec : ¬LeftRecursive rules)
    (hs : StackOk rules s) : ∃ l, Advances rules s l := by
  induction s with
  | nil => exact ⟨[], .refl _, rfl⟩
  | cons pos below ih =>
    obtain ⟨hpos, hend⟩ := hs pos mem_cons_self
    obtain ⟨l, hl⟩ := finishes_one rfl hpos fun x _ htype =>
      ruleFinishes hwf hrefs hrec _ (ref_lt hrefs htype)
    rw [pushUnlessEnd_of_not_end hend] at hl
    by_cases hnil : l = []
    · subst hnil
      obtain ⟨l', hl'⟩ := ih hs.of_push.2
      exact ⟨l', (reaches_append hl.1 below).trans hl'.1, hl'.2⟩
    · exact ⟨l ++ below, hl.append hnil below⟩

end Simulation

/-! ## The language -/

/-- The string is derivable from the start rule. -/
def Derivable (rules : GrammarRules) (start : Nat) (w : List Nat) : Prop :=
  ∃ ts ∈ (grammarOf rules start).language, List.Forall₂ CharSet.Matches ts w

/-- The string matches the terminals that some sentential form of the start rule starts
with. -/
def StartsDerivation (rules : GrammarRules) (start : Nat) (w : List Nat) : Prop :=
  ∃ (ts : List CharSet) (β : List (Symbol CharSet (grammarOf rules start).NT)),
    (grammarOf rules start).Derives [.nonterminal (grammarOf rules start).initial]
      (ts.map Symbol.terminal ++ β) ∧ List.Forall₂ CharSet.Matches ts w

/-- The string matches the beginning of a sequence of terminals that the start rule
derives. -/
def StartsWord (rules : GrammarRules) (start : Nat) (w : List Nat) : Prop :=
  ∃ ts ∈ (grammarOf rules start).language, ∃ pre, pre <+: ts ∧ List.Forall₂ CharSet.Matches pre w

/-- Every rule derives some sequence of terminals. -/
def Productive (rules : GrammarRules) (start : Nat) : Prop :=
  ∀ r < rules.length, ∃ ts : List CharSet,
    (grammarOf rules start).Derives [.nonterminal r] (ts.map Symbol.terminal)

section Init

variable {rules : GrammarRules} {start fuel : Nat} {grammar : LlamaGrammar} {n : Nat}

theorem mem_foldlM_advanceStack {alts : List GrammarPos} {newStacks out : GrammarStacks}
    (h : alts.foldlM (fun newStacks pos =>
      advanceStack fuel rules (pushUnlessEnd rules pos []) newStacks) newStacks = .ok out) :
    l ∈ out ↔ l ∈ newStacks ∨ ∃ q ∈ alts, Advances rules (pushUnlessEnd rules q []) l := by
  induction alts generalizing newStacks with
  | nil =>
    obtain rfl := Except.ok.inj h
    simp
  | cons q alts ih =>
    rw [foldlM_cons] at h
    cases hone : advanceStack fuel rules (pushUnlessEnd rules q []) newStacks with
    | error e =>
      rw [hone] at h
      exact absurd h (by simp [bind, Except.bind])
    | ok mid =>
      rw [hone] at h
      rw [ih h, mem_advanceStack hone, or_assoc]
      simp

/-- What `llama_grammar_init_impl` has checked, and the stacks it starts with. -/
theorem initImpl_eq_some (h : initImpl fuel rules start = .ok (some grammar)) :
    grammar.rules = rules.map copyRule ∧ RefsOk grammar.rules ∧
      leftRecursionCheck grammar.rules = .ok false ∧
      ∀ l, l ∈ grammar.allStacks ↔ ∃ q ∈ alternates grammar.rules start,
        Advances grammar.rules (pushUnlessEnd grammar.rules q []) l := by
  unfold initImpl at h
  cases hrefs : validReferences (rules.map copyRule) with
  | false => simp [hrefs, pure, Except.pure] at h
  | true =>
    cases hcheck : leftRecursionCheck (rules.map copyRule) with
    | error e => simp [hrefs, hcheck, bind, Except.bind] at h
    | ok found =>
      cases found with
      | true => simp [hrefs, hcheck, bind, Except.bind, pure, Except.pure] at h
      | false =>
        cases hinit : initialStacks fuel (rules.map copyRule) start with
        | error e => simp [hrefs, hcheck, hinit, bind, Except.bind] at h
        | ok out =>
          obtain rfl : LlamaGrammar.mk (rules.map copyRule) out {} = grammar := by
            simpa [hrefs, hcheck, hinit, bind, Except.bind, pure, Except.pure] using h
          refine ⟨rfl, refsOk_of_validReferences hrefs, hcheck, fun l => ?_⟩
          have hmem := mem_foldlM_advanceStack (l := l) hinit
          simpa using hmem

theorem grammarOk_of_initImpl (hwf : WellFormed (rules.map copyRule)) (hstart : start < rules.length)
    (h : initImpl fuel rules start = .ok (some grammar)) : GrammarOk grammar := by
  obtain ⟨hrules, hrefs, -, hmem⟩ := initImpl_eq_some h
  have hwf : WellFormed grammar.rules := hrules ▸ hwf
  refine ⟨hwf, hrefs, fun s hs => ?_⟩
  obtain ⟨q, hq, hadv⟩ := (hmem s).mp hs
  exact StackDone.advances hwf hrefs
    (stackOk_alternate hwf (by rw [hrules, length_map]; exact hstart) hq) hadv

/-- The stacks of a run from the initial ones are what leftmost derivations of the start
rule leave. -/
theorem mem_run_iff (hwf : WellFormed (rules.map copyRule)) (hstart : start < rules.length)
    (hinit : initImpl fuel rules start = .ok (some grammar)) (hrec : ¬LeftRecursive grammar.rules)
    {w : List Nat} {grammar' : LlamaGrammar} (hrun : grammar.acceptAll n w = .ok grammar') :
    ([] ∈ grammar'.allStacks ↔ Derivable grammar.rules start w) ∧
      (grammar'.allStacks ≠ [] ↔ StartsDerivation grammar.rules start w) := by
  obtain ⟨hrules, hrefs, -, hmem⟩ := initImpl_eq_some hinit
  have hok := grammarOk_of_initImpl hwf hstart hinit
  have hlt : start < grammar.rules.length := by rwa [hrules, length_map]
  obtain ⟨-, -, hmem'⟩ := mem_acceptAll hok hrun
  have hfinish := fun s (hs : StackOk grammar.rules s) => exists_advances hok.wf hrefs hrec hs
  have hrule : ∀ q ∈ alternates grammar.rules start,
      (⟨start, symbolsFrom (grammar.rules.from q)⟩ : ContextFreeRule CharSet Nat) ∈
        (grammarOf grammar.rules start).rules := fun q hq => mem_grammarOf_rules.mpr ⟨hlt, q, hq, rfl⟩
  -- a stack of the run is left by a leftmost derivation
  have hsound : ∀ l ∈ grammar'.allStacks, ∃ ts, List.Forall₂ CharSet.Matches ts w ∧
      Leftmost (grammarOf grammar.rules start) [.nonterminal start] ts (form grammar.rules l) := by
    intro l hl
    obtain ⟨s, hs, hcons⟩ := (hmem' l).mp hl
    obtain ⟨q, hq, hadv⟩ := (hmem s).mp hs
    obtain ⟨ts, hts, hleft⟩ := accept_sound hrefs hcons
    refine ⟨ts, hts, .rule (hrule q hq) ?_⟩
    have hstart := leftmost_of_reaches hrefs hadv.1 hleft
    rw [form_pushUnlessEnd] at hstart
    exact hstart
  -- a leftmost derivation leaves a stack of the run
  have hcomplete : ∀ ts β, List.Forall₂ CharSet.Matches ts w →
      Leftmost (grammarOf grammar.rules start) [.nonterminal start] ts β →
        ∃ l ∈ grammar'.allStacks, β = [] → l = [] := by
    intro ts β hts hleft
    have halt : ∃ q ∈ alternates grammar.rules start, ∃ β', (β = [] → β' = []) ∧
        Leftmost (grammarOf grammar.rules start) (form grammar.rules (pushUnlessEnd grammar.rules q []))
          ts β' := by
      rcases hleft.nonterminal_inv with ⟨rfl, rfl⟩ | ⟨r, hr, hinput, hrest⟩
      · obtain ⟨q, hq⟩ := exists_mem_of_ne_nil _ (alternates_ne_nil grammar.rules start)
        exact ⟨q, hq, _, fun h => absurd h (by simp), .done⟩
      · obtain ⟨-, q, hq, hout⟩ := mem_grammarOf_rules.mp hr
        refine ⟨q, hinput ▸ hq, β, id, ?_⟩
        rw [form_pushUnlessEnd, ← hout]
        exact hrest
    obtain ⟨q, hq, β', hnil, hleft⟩ := halt
    obtain ⟨l, ⟨s₀, hadv, hcons⟩, hl⟩ := accept_complete hok.wf hrefs hfinish hleft _
      (stackOk_alternate hok.wf hlt hq) rfl w hts
    exact ⟨l, (hmem' l).mpr ⟨s₀, (hmem s₀).mpr ⟨q, hq, hadv⟩, hcons⟩, fun h => hl (hnil h)⟩
  constructor
  · constructor
    · intro hnil
      obtain ⟨ts, hts, hleft⟩ := hsound [] hnil
      exact ⟨ts, LeftmostDerivation.derives_iff_leftmost.mpr hleft, hts⟩
    · rintro ⟨ts, hlang, hts⟩
      obtain ⟨l, hl, hnil⟩ := hcomplete ts [] hts (LeftmostDerivation.derives_iff_leftmost.mp hlang)
      exact hnil rfl ▸ hl
  · constructor
    · intro hne
      obtain ⟨l, hl⟩ := exists_mem_of_ne_nil _ hne
      obtain ⟨ts, hts, hleft⟩ := hsound l hl
      exact ⟨ts, _, hleft.derives, hts⟩
    · rintro ⟨ts, β, hderives, hts⟩
      obtain ⟨γ, hleft, -⟩ := LeftmostDerivation.exists_leftmost hderives
      obtain ⟨l, hl, -⟩ := hcomplete ts γ hts hleft
      exact ne_nil_of_mem hl

theorem nonterminal_mem_symbolsFrom (h : .nonterminal n ∈ symbolsFrom es) :
    ∃ e ∈ es, e.type = .ruleRef ∧ e.value = n := by
  induction es with
  | nil => exact absurd h not_mem_nil
  | cons e es ih =>
    have hrest : .nonterminal n ∈ symbolsFrom es → ∃ e' ∈ e :: es, e'.type = .ruleRef ∧ e'.value = n := by
      intro h
      obtain ⟨e', he', hv⟩ := ih h
      exact ⟨e', mem_cons_of_mem _ he', hv⟩
    rw [symbolsFrom] at h
    cases htype : e.type <;> rw [htype] at h <;> simp only [mem_cons] at h
    case ruleRef =>
      rcases h with h | h
      · exact ⟨e, mem_cons_self, htype, (Symbol.nonterminal.inj h).symm⟩
      · exact hrest h
    case charRngUpper => exact hrest h
    case charAlt => exact hrest h
    all_goals first
      | exact absurd h not_mem_nil
      | exact hrest (h.resolve_left (by simp))

theorem nonterminal_mem_form (hrefs : RefsOk rules) (h : .nonterminal n ∈ form rules l) : n < rules.length := by
  obtain ⟨pos, -, hpos⟩ := mem_flatMap.mp h
  obtain ⟨e, he, htype, rfl⟩ := nonterminal_mem_symbolsFrom hpos
  have hmem : e ∈ rules.rule pos.rule := mem_of_mem_drop he
  have hlt : pos.rule < rules.length := by
    by_contra hge
    rw [GrammarRules.rule, getD_eq_getElem?_getD, getElem?_eq_none (Nat.le_of_not_lt hge)] at hmem
    exact absurd hmem not_mem_nil
  rw [GrammarRules.rule, getD_eq_getElem?_getD, getElem?_eq_getElem hlt, Option.getD_some] at hmem
  exact hrefs _ (getElem_mem hlt) e hmem htype

/-- Where every rule is productive, a derivation can be completed. -/
theorem startsDerivation_iff_startsWord (hrefs : RefsOk rules) (hstart : start < rules.length)
    (hprod : Productive rules start) {w : List Nat} :
    StartsDerivation rules start w ↔ StartsWord rules start w := by
  constructor
  · rintro ⟨ts, β, hderives, hts⟩
    obtain ⟨γ, hleft, -⟩ := LeftmostDerivation.exists_leftmost hderives
    -- the nonterminals of a leftmost derivation are rules of the set
    have hrules : ∀ n, .nonterminal n ∈ γ → n < rules.length := by
      have hinv : ∀ {α γ : List (Symbol CharSet (grammarOf rules start).NT)} {ts : List CharSet},
          Leftmost (grammarOf rules start) α ts γ → (∀ n, .nonterminal n ∈ α → n < rules.length) →
            ∀ n, .nonterminal n ∈ γ → n < rules.length := by
        intro α γ ts h
        induction h with
        | done => exact id
        | terminal _ ih => exact fun hα => ih fun n hn => hα n (mem_cons_of_mem _ hn)
        | rule hr _ ih =>
          refine fun hα => ih fun n hn => ?_
          rcases List.mem_append.mp hn with hn | hn
          · obtain ⟨-, q, -, hout⟩ := mem_grammarOf_rules.mp hr
            have hform : .nonterminal n ∈ form rules [q] := by
              rw [form_cons]
              exact mem_append_left _ (hout ▸ hn)
            exact nonterminal_mem_form hrefs hform
          · exact hα n (mem_cons_of_mem _ hn)
      refine hinv hleft fun n hn => ?_
      obtain rfl := Symbol.nonterminal.inj (mem_singleton.mp hn)
      exact hstart
    obtain ⟨v, hv⟩ := LeftmostDerivation.exists_derives_word (g := grammarOf rules start)
      fun n hn => hprod n (hrules n hn)
    refine ⟨ts ++ v, ?_, ts, prefix_append ts v, hts⟩
    show (grammarOf rules start).Derives _ _
    rw [map_append]
    exact hleft.derives.trans (hv.append_left _)
  · rintro ⟨ts, hlang, pre, ⟨rest, rfl⟩, hpre⟩
    refine ⟨pre, rest.map Symbol.terminal, ?_, hpre⟩
    rw [← map_append]
    exact hlang

/-- Without left recursion, accepting the code points of `w` comes to an end.  The empty
stack is left exactly when `w` is derivable, and some stack is left exactly when `w` is what
an unfinished derivation starts with; where every rule derives something, this is when `w`
is the beginning of something derivable. -/
theorem accept_recognises (hwf : WellFormed (rules.map copyRule)) (hstart : start < rules.length)
    (hinit : initImpl fuel rules start = .ok (some grammar))
    (hrec : ¬LeftRecursive grammar.rules) (w : List Nat) :
    ∃ grammar', Settles (fun n => grammar.acceptAll n w) grammar' ∧
      ([] ∈ grammar'.allStacks ↔ Derivable grammar.rules start w) ∧
      (grammar'.allStacks ≠ [] ↔ StartsDerivation grammar.rules start w) ∧
      (Productive grammar.rules start →
        (grammar'.allStacks ≠ [] ↔ StartsWord grammar.rules start w)) := by
  obtain ⟨hrules, hrefs, -, -⟩ := initImpl_eq_some hinit
  have hlt : start < grammar.rules.length := by rwa [hrules, length_map]
  obtain ⟨grammar', n, hrun⟩ := settles_acceptAll (grammarOk_of_initImpl hwf hstart hinit) hrec w
  obtain ⟨hempty, hsome⟩ := mem_run_iff hwf hstart hinit hrec (hrun n (Nat.le_refl n))
  exact ⟨grammar', ⟨n, hrun⟩, hempty, hsome, fun hprod =>
    hsome.trans (startsDerivation_iff_startsWord hrefs hlt hprod)⟩

end Init

/-- `root ::= "a" root`: the rule derives no string. -/
def unproductiveRules : GrammarRules := [[⟨.char, 97⟩, ⟨.ruleRef, 0⟩]]

theorem not_leftRecursive_unproductive : ¬LeftRecursive (unproductiveRules.map copyRule) := by
  rintro ⟨r, hr⟩
  obtain ⟨v, hcorner, -⟩ := TransGen.head'_iff.mp hr
  have hlt : r < 1 := hcorner.lt
  obtain rfl : r = 0 := by omega
  obtain ⟨x, ⟨q, hq, hleft⟩, htype, -⟩ := hcorner
  obtain rfl : q = ⟨0, 0⟩ := by simpa [alternates, laterAlternates, unproductiveRules, copyRule,
    GrammarRules.rule] using hq
  cases hleft with
  | refl => exact absurd htype (by decide)
  | skip h _ _ => exact absurd h (by decide)

theorem accept_recognises_unproductive :
    ∃ grammar', Settles (fun n => (LlamaGrammar.mk (unproductiveRules.map copyRule)
        [[⟨0, 0⟩]] {}).acceptAll n [97]) grammar' ∧
      ([] ∈ grammar'.allStacks ↔ Derivable (unproductiveRules.map copyRule) 0 [97]) ∧
      (grammar'.allStacks ≠ [] ↔ StartsDerivation (unproductiveRules.map copyRule) 0 [97]) ∧
      (Productive (unproductiveRules.map copyRule) 0 →
        (grammar'.allStacks ≠ [] ↔ StartsWord (unproductiveRules.map copyRule) 0 [97])) :=
  @accept_recognises unproductiveRules 0 3 _ (by decide) (by decide) rfl
    not_leftRecursive_unproductive [97]

theorem nonterminal_mem_of_unproductive {r : ContextFreeRule CharSet Nat}
    (hr : r ∈ (grammarOf (unproductiveRules.map copyRule) 0).rules) :
    .nonterminal 0 ∈ r.output := by
  obtain ⟨hlt, q, hq, hout⟩ := mem_grammarOf_rules.mp hr
  have hlt : r.input < 1 := hlt
  obtain hzero : r.input = 0 := by omega
  rw [hzero] at hq
  obtain rfl : q = ⟨0, 0⟩ := by simpa [alternates, laterAlternates, unproductiveRules, copyRule,
    GrammarRules.rule] using hq
  rw [hout]
  decide

/-- A stack is left that waits for the next `a`, although nothing can be derived. -/
theorem unproductive_stack_left :
    ∃ grammar grammar', initImpl 3 unproductiveRules 0 = .ok (some grammar) ∧
      WellFormed grammar.rules ∧ ¬LeftRecursive grammar.rules ∧
      grammar.acceptAll 3 [97] = .ok grammar' ∧ grammar'.allStacks ≠ [] ∧
      ¬StartsWord grammar.rules 0 [97] := by
  refine ⟨_, _, rfl, by decide, not_leftRecursive_unproductive, rfl, by decide, ?_⟩
  rintro ⟨ts, hlang, -⟩
  -- the reference to the rule itself is never got rid of
  have hinv : ∀ {α β : List (Symbol CharSet (grammarOf (unproductiveRules.map copyRule) 0).NT)}
      {ts : List CharSet}, Leftmost (grammarOf (unproductiveRules.map copyRule) 0) α ts β →
        (∃ n, .nonterminal n ∈ α) → β ≠ [] := by
    intro α β ts h
    induction h with
    | done =>
      rintro ⟨n, hn⟩ rfl
      exact absurd hn not_mem_nil
    | terminal _ ih =>
      rintro ⟨n, hn⟩
      exact ih ⟨n, (mem_cons.mp hn).resolve_left (by simp)⟩
    | rule hr _ ih => exact fun _ => ih ⟨_, mem_append_left _ (nonterminal_mem_of_unproductive hr)⟩
  exact hinv (LeftmostDerivation.derives_iff_leftmost.mp hlang) ⟨_, mem_singleton.mpr rfl⟩ rfl

end LlamaCpp
