import LlamaCpp.Grammar.LeftRecursion

/-!
# The check for left recursion

`llama_grammar_detect_left_recursion` finds a left recursion exactly when there is one
through rules that have an empty alternate of their own (`leftRecursionCheck_iff`).  A rule
that is nullable only through other rules is not skipped, so a left recursion behind it is
missed, and `llama_grammar_advance_stack` may then run for ever: `accepted_terminates_iff`
says exactly when it does not.
-/

namespace LlamaCpp

open List Function

open Relation (ReflTransGen TransGen)
open Worklist (Halt Step)

variable {rules : GrammarRules} {N : Nat → Prop} {e : GrammarElement} {es : List GrammarElement}
  {v r : Nat} {marks : RecursionMarks} {inProgress : Nat → Bool}

/-! ## Left corners in a list of elements -/

/-- The elements start with a reference to `v` behind references to rules in `N`. -/
inductive LeftRef (N : Nat → Prop) (v : Nat) : List GrammarElement → Prop
| here {e : GrammarElement} {es : List GrammarElement} :
  e.type = .ruleRef ->
  e.value = v ->
  LeftRef N v (e :: es)
| skip {e : GrammarElement} {es : List GrammarElement} :
  e.type = .ruleRef ->
  N e.value ->
  LeftRef N v es ->
  LeftRef N v (e :: es)

theorem leftRef_cons_iff :
    LeftRef N v (e :: es) ↔ e.type = .ruleRef ∧ (e.value = v ∨ N e.value ∧ LeftRef N v es) := by
  constructor
  · intro h
    cases h with
    | here htype hv => exact ⟨htype, .inl hv⟩
    | skip htype hN hes => exact ⟨htype, .inr ⟨hN, hes⟩⟩
  · rintro ⟨htype, hv | ⟨hN, hes⟩⟩
    · exact .here htype hv
    · exact .skip htype hN hes

theorem leftRef_of_leftReaches {p x : GrammarPos} (h : LeftReaches rules N p x)
    (htype : (rules.at x).type = .ruleRef) : LeftRef N (rules.at x).value (rules.from p) := by
  induction h with
  | refl =>
    rw [from_eq_cons (ne_endOfRule_of_ruleRef htype)]
    exact .here htype rfl
  | skip ht hN _ ih =>
    rw [from_eq_cons (ne_endOfRule_of_ruleRef ht)]
    exact .skip ht hN (ih htype)

theorem leftReaches_of_leftRef (h : LeftRef N v es) : ∀ p, rules.from p = es →
      ∃ x, LeftReaches rules N p x ∧ (rules.at x).type = .ruleRef ∧ (rules.at x).value = v := by
  induction h with
  | here htype hv =>
    intro p hp
    refine ⟨p, .refl, ?_, ?_⟩ <;> rw [at_eq hp] <;> assumption
  | skip htype hN _ ih =>
    intro p hp
    obtain ⟨x, hx, hxv⟩ := ih (p.add 1) (from_add_one hp)
    refine ⟨x, .skip ?_ ?_ hx, hxv⟩ <;> rw [at_eq hp] <;> assumption

theorem corner_iff_leftRef : Corner rules N r v ↔ LeftRef N v (rules.rule r) ∨
      ∃ es ∈ alternateSuffixes (rules.rule r), LeftRef N v es := by
  rw [← exists_alternate_iff]
  constructor
  · rintro ⟨x, ⟨q, hq, hleft⟩, htype, rfl⟩
    exact ⟨q, hq, leftRef_of_leftReaches hleft htype⟩
  · rintro ⟨q, hq, href⟩
    obtain ⟨x, hleft, hx⟩ := leftReaches_of_leftRef href q rfl
    exact ⟨x, ⟨q, hq, hleft⟩, hx⟩

/-! ## Empty alternates -/

theorem hasEmptyAlternate_iff {prev : GreType} (hwf : wellFormedFrom prev es = true) (start : Bool) :
    hasEmptyAlternate es start = true ↔
      (start = true ∧ (headElement es).isEndOfSequence = true) ∨
        ∃ es' ∈ alternateSuffixes es, (headElement es').isEndOfSequence = true := by
  induction es generalizing prev start with
  | nil => exact absurd hwf (by simp [wellFormedFrom])
  | cons e es ih =>
    by_cases hend : e.type = .endOfRule
    · have hes : es = [] := by
        rw [wellFormedFrom, if_pos hend, Bool.and_eq_true] at hwf
        exact List.isEmpty_iff.mp hwf.2
      simp [hasEmptyAlternate, alternateSuffixes, headElement, GrammarElement.isEndOfSequence, hend, hes]
    · have ih := ih (wellFormedFrom_cons hwf hend)
      by_cases halt : e.type = .alt
      · rw [hasEmptyAlternate, if_pos (by simp [GrammarElement.isEndOfSequence, halt]), Bool.or_eq_true, ih]
        simp [alternateSuffixes, headElement, GrammarElement.isEndOfSequence, halt]
      · have hseq : e.isEndOfSequence = false := by
          simp [GrammarElement.isEndOfSequence, hend, halt]
        have hsuffix : alternateSuffixes (e :: es) = alternateSuffixes es := by
          rw [alternateSuffixes]
          split <;> first | rfl | (rename_i h; exact absurd h ‹_›)
        rw [hasEmptyAlternate, hseq, if_neg Bool.false_ne_true, ih, hsuffix]
        simp [headElement, hseq]

theorem hasEmptyAlternate_rule_iff (hwf : WellFormed rules) (hr : r < rules.length) :
    hasEmptyAlternate (rules.rule r) true = true ↔ HasEmptyAlternate rules r := by
  rw [hasEmptyAlternate_iff (wellFormed_rule hwf hr), HasEmptyAlternate, and_iff_right rfl]
  exact (exists_alternate_iff (P := fun es => (headElement es).isEndOfSequence = true)).symm

/-! ## What the search finds -/

/-- The left corners the search follows. -/
abbrev DirectCorner (rules : GrammarRules) : Nat → Nat → Prop :=
  Corner rules (HasEmptyAlternate rules)

/-- From the rule the search runs into a rule in progress or into a cycle. -/
def Found (rules : GrammarRules) (inProgress : Nat → Bool) (r : Nat) : Prop :=
  ∃ v, ReflTransGen (DirectCorner rules) r v ∧
    (inProgress v = true ∨ TransGen (DirectCorner rules) v v)

structure RecursionMarks.Sound (rules : GrammarRules) (marks : RecursionMarks) : Prop where
  mayBeEmpty : ∀ v, marks.mayBeEmpty v = true → HasEmptyAlternate rules v
  visited : ∀ v, marks.visited v = true → ¬Found rules (fun _ => false) v

/-- What a search leaves that finds nothing. -/
structure Leaves (rules : GrammarRules) (marks marks' : RecursionMarks) : Prop where
  inProgress : marks'.inProgress = marks.inProgress
  sound : marks'.Sound rules
  mayBeEmpty : ∀ v, marks.mayBeEmpty v = true → marks'.mayBeEmpty v = true

theorem Leaves.trans {m₁ m₂ m₃ : RecursionMarks} (h : Leaves rules m₁ m₂) (h' : Leaves rules m₂ m₃) :
    Leaves rules m₁ m₃ :=
  ⟨h'.inProgress.trans h.inProgress, h'.sound, fun v hv => h'.mayBeEmpty v (h.mayBeEmpty v hv)⟩

theorem Leaves.refl (h : marks.Sound rules) : Leaves rules marks marks :=
  ⟨rfl, h, fun _ hv => hv⟩

/-- The search from `r` is right: it says whether there is something to find, and when
there is nothing it knows whether `r` has an empty alternate. -/
def SearchOk (rules : GrammarRules) (inProgress : Nat → Bool) (r : Nat)
    (detect : Nat → RecursionMarks → Except Halt (Bool × RecursionMarks)) : Prop :=
  ∀ marks, marks.inProgress = inProgress → marks.Sound rules →
    ∃ found marks', detect r marks = .ok (found, marks') ∧
      (found = true ↔ Found rules inProgress r) ∧
      (found = false → Leaves rules marks marks' ∧
        (marks'.mayBeEmpty r = true ↔ HasEmptyAlternate rules r))

/-- The references that the second loop still follows. -/
def Pending (rules : GrammarRules) (es : List GrammarElement) (recurse : Bool) (v : Nat) : Prop :=
  (recurse = true ∧ LeftRef (HasEmptyAlternate rules) v es) ∨
    ∃ es' ∈ alternateSuffixes es, LeftRef (HasEmptyAlternate rules) v es'

theorem alternateSuffixes_cons_of_ne (hend : e.type ≠ .endOfRule) (halt : e.type ≠ .alt) :
    alternateSuffixes (e :: es) = alternateSuffixes es := by
  rw [alternateSuffixes]
  split
  · exact absurd ‹_› hend
  · exact absurd ‹_› halt
  · rfl

/-- Past a reference that is followed. -/
theorem pending_ref_iff (htype : e.type = .ruleRef) : Pending rules (e :: es) true v ↔
      e.value = v ∨ (HasEmptyAlternate rules e.value ∧ LeftRef (HasEmptyAlternate rules) v es) ∨
        ∃ es' ∈ alternateSuffixes es, LeftRef (HasEmptyAlternate rules) v es' := by
  rw [Pending, leftRef_cons_iff, alternateSuffixes_cons_of_ne (by rw [htype]; decide)
    (by rw [htype]; decide), and_iff_right rfl, and_iff_right htype, or_assoc]

/-- Past an element that is not followed. -/
theorem pending_other_iff {recurse : Bool} (hend : e.type ≠ .endOfRule)
    (hskip : ¬(e.type = .ruleRef ∧ recurse = true)) :
    Pending rules (e :: es) recurse v ↔ Pending rules es e.isEndOfSequence v := by
  have hno : ¬(recurse = true ∧ LeftRef (HasEmptyAlternate rules) v (e :: es)) := fun h =>
    hskip ⟨(leftRef_cons_iff.mp h.2).1, h.1⟩
  rw [Pending, or_iff_right hno, Pending]
  by_cases halt : e.type = .alt
  · simp [alternateSuffixes, GrammarElement.isEndOfSequence, halt]
  · rw [alternateSuffixes_cons_of_ne hend halt]
    simp [GrammarElement.isEndOfSequence, hend, halt]

theorem recurseIntoNonterminals_spec
    {detect : Nat → RecursionMarks → Except Halt (Bool × RecursionMarks)} {prev : GreType}
    (hwf : wellFormedFrom prev es = true)
    (hdetect : ∀ e ∈ es, e.type = .ruleRef → SearchOk rules inProgress e.value detect) (recurse : Bool)
    (hin : marks.inProgress = inProgress) (hsound : marks.Sound rules) :
    ∃ found marks', recurseIntoNonterminals detect es recurse marks = .ok (found, marks') ∧
      (found = true ↔ ∃ v, Pending rules es recurse v ∧ Found rules inProgress v) ∧
      (found = false → Leaves rules marks marks') := by
  induction es generalizing prev recurse marks with
  | nil => exact absurd hwf (by simp [wellFormedFrom])
  | cons e es ih =>
    by_cases hend : e.type = .endOfRule
    · -- nothing stands behind the end of the rule
      have hes : es = [] := by
        rw [wellFormedFrom, if_pos hend, Bool.and_eq_true] at hwf
        exact List.isEmpty_iff.mp hwf.2
      subst hes
      refine ⟨false, marks, by simp [recurseIntoNonterminals, hend], ?_, fun _ => .refl hsound⟩
      have hnone : ∀ v, ¬Pending rules [e] recurse v := by
        rintro v (⟨-, h⟩ | ⟨es', h, -⟩)
        · exact absurd (leftRef_cons_iff.mp h).1 (by rw [hend]; decide)
        · rw [alternateSuffixes, hend] at h
          exact absurd h not_mem_nil
      simp [hnone]
    · have ih := fun {m : RecursionMarks} => @ih m _ (wellFormedFrom_cons hwf hend)
        (fun e he => hdetect e (mem_cons_of_mem _ he))
      by_cases hfollow : e.type = .ruleRef ∧ recurse = true
      · obtain ⟨htype, rfl⟩ := hfollow
        obtain ⟨found, m₁, hrun, hfound, hleaves⟩ :=
          hdetect e mem_cons_self htype marks hin hsound
        cases found with
        | true =>
          refine ⟨true, m₁, ?_, ?_, fun h => absurd h (by decide)⟩
          · simp [recurseIntoNonterminals, htype, hrun]
          · exact iff_of_true rfl ⟨e.value, (pending_ref_iff htype).mpr (.inl rfl), hfound.mp rfl⟩
        | false =>
          obtain ⟨hleaves, hempty⟩ := hleaves rfl
          have hnot : ¬Found rules inProgress e.value := fun h => absurd (hfound.mpr h) (by decide)
          obtain ⟨found, m₂, hrun₂, hfound₂, hleaves₂⟩ :=
            ih (m₁.mayBeEmpty e.value) (hleaves.inProgress.trans hin) hleaves.sound
          refine ⟨found, m₂, ?_, ?_, fun h => hleaves.trans (hleaves₂ h)⟩
          · simp [recurseIntoNonterminals, htype, hrun, hrun₂]
          · rw [hfound₂]
            refine exists_congr fun v => ?_
            rw [pending_ref_iff htype, Pending, hempty]
            constructor
            · exact fun h => ⟨.inr h.1, h.2⟩
            · rintro ⟨rfl | h, hv⟩
              · exact absurd hv hnot
              · exact ⟨h, hv⟩
      · obtain ⟨found, m₁, hrun, hfound, hleaves⟩ := ih e.isEndOfSequence hin hsound
        refine ⟨found, m₁, ?_, ?_, hleaves⟩
        · rw [recurseIntoNonterminals, if_neg (by simpa using hfollow), hrun]
        · rw [hfound]
          exact exists_congr fun v => and_congr_left fun _ => (pending_other_iff hend hfollow).symm

/-! ## The search -/

/-- The number of rules that are not in progress, which bounds the depth of the search. -/
def idle (rules : GrammarRules) (inProgress : Nat → Bool) : Nat :=
  ((Finset.range rules.length).filter fun v => inProgress v = false).card

theorem idle_update_lt (hr : r < rules.length) (hidle : inProgress r = false) :
    idle rules (Function.update inProgress r true) < idle rules inProgress := by
  refine Finset.card_lt_card (Finset.ssubset_iff_of_subset (fun v hv => ?_) |>.mpr ⟨r, ?_, ?_⟩)
  · obtain ⟨hlt, hv⟩ := Finset.mem_filter.mp hv
    have hne : v ≠ r := by
      rintro rfl
      rw [update_self] at hv
      exact absurd hv (by decide)
    rw [update_of_ne hne] at hv
    exact Finset.mem_filter.mpr ⟨hlt, hv⟩
  · exact Finset.mem_filter.mpr ⟨Finset.mem_range.mpr hr, hidle⟩
  · simp

theorem found_iff_of_idle (hidle : inProgress r = false) : Found rules inProgress r ↔
      ∃ v, DirectCorner rules r v ∧ Found rules (Function.update inProgress r true) v := by
  have hle : ∀ w, inProgress w = true → Function.update inProgress r true w = true := by
    intro w hw
    by_cases hwr : w = r
    · rw [hwr, update_self]
    · rwa [update_of_ne hwr]
  constructor
  · rintro ⟨w, hrw, hw⟩
    rcases ReflTransGen.cases_head hrw with rfl | ⟨v, hrv, hvw⟩
    · have hcycle := hw.resolve_left (by rw [hidle]; decide)
      obtain ⟨v, hrv, hvr⟩ := TransGen.head'_iff.mp hcycle
      exact ⟨v, hrv, r, hvr, .inl (update_self ..)⟩
    · exact ⟨v, hrv, w, hvw, hw.imp_left (hle w)⟩
  · rintro ⟨v, hrv, w, hvw, hw⟩
    by_cases hwr : w = r
    · subst hwr
      exact ⟨w, .refl, .inr (TransGen.head' hrv hvw)⟩
    · rw [update_of_ne hwr] at hw
      exact ⟨w, .head hrv hvw, hw⟩

theorem not_found_of_not_found (h : ¬Found rules inProgress r) : ¬Found rules (fun _ => false) r := by
  rintro ⟨v, hrv, hv⟩
  exact h ⟨v, hrv, .inr (hv.resolve_left Bool.false_ne_true)⟩

/-- The search is right, with fuel for every rule that is not in progress. -/
theorem detectLeftRecursion_ok (hwf : WellFormed rules) (hrefs : RefsOk rules) {n : Nat} :
    ∀ (inProgress : Nat → Bool) (r : Nat), r < rules.length → idle rules inProgress < n →
      SearchOk rules inProgress r (detectLeftRecursion rules n) := by
  induction n with
  | zero => exact fun _ _ _ h => absurd h (Nat.not_lt_zero _)
  | succ n ih =>
    intro inProgress r hr hn marks hin hsound
    subst hin
    rw [detectLeftRecursion]
    by_cases hbusy : marks.inProgress r = true
    · rw [if_pos hbusy]
      exact ⟨true, marks, rfl, iff_of_true rfl ⟨r, .refl, .inl hbusy⟩, fun h => absurd h (by decide)⟩
    · rw [if_neg hbusy]
      have hidle : marks.inProgress r = false := by simpa using hbusy
      have hempty := hasEmptyAlternate_rule_iff hwf hr
      dsimp only
      generalize hm₁ : (RecursionMarks.mk marks.visited (Function.update marks.inProgress r true)
        (if hasEmptyAlternate (rules.rule r) true = true then Function.update marks.mayBeEmpty r true
          else marks.mayBeEmpty)) = m₁
      have hin₁ : m₁.inProgress = Function.update marks.inProgress r true := by rw [← hm₁]
      have hmay : ∀ v, m₁.mayBeEmpty v = true ↔ marks.mayBeEmpty v = true ∨ (v = r ∧ HasEmptyAlternate rules r) := by
        intro v
        rw [← hm₁, ← hempty]
        split
        · by_cases hv : v = r
          · subst hv
            simp [*]
          · simp [hv]
        · simp [*]
      have hsound₁ : m₁.Sound rules := by
        constructor
        · intro v hv
          rcases (hmay v).mp hv with hv | ⟨rfl, hv⟩
          · exact hsound.mayBeEmpty v hv
          · exact hv
        · intro v hv
          rw [← hm₁] at hv
          exact hsound.visited v hv
      have hdetect : ∀ e ∈ rules.rule r, e.type = .ruleRef → SearchOk rules
          (Function.update marks.inProgress r true) e.value (detectLeftRecursion rules n) := by
        intro e he htype
        refine ih _ _ ?_ (Nat.lt_of_lt_of_le (idle_update_lt hr hidle) (Nat.le_of_lt_succ hn))
        have hmem : rules.rule r ∈ rules := by
          rw [GrammarRules.rule, getD_eq_getElem?_getD, getElem?_eq_getElem hr, Option.getD_some]
          exact getElem_mem hr
        exact hrefs _ hmem e he htype
      obtain ⟨found, m₂, hrun, hfound, hleaves⟩ :=
        recurseIntoNonterminals_spec (wellFormed_rule hwf hr) hdetect true hin₁ hsound₁
      have hiff : found = true ↔ Found rules marks.inProgress r := by
        rw [hfound, found_iff_of_idle hidle]
        refine exists_congr fun v => and_congr_left fun _ => ?_
        rw [DirectCorner, corner_iff_leftRef, Pending, and_iff_right rfl]
      rw [hrun]
      cases found with
      | true => exact ⟨true, m₂, rfl, hiff, fun h => absurd h (by decide)⟩
      | false =>
        obtain ⟨hin₂, hsound₂, hmono⟩ := hleaves rfl
        have hnot : ¬Found rules marks.inProgress r := fun h => absurd (hiff.mpr h) (by decide)
        refine ⟨false, _, rfl, hiff, fun _ => ⟨⟨?_, ⟨hsound₂.mayBeEmpty, ?_⟩, ?_⟩, ?_⟩⟩
        · dsimp only
          rw [hin₂, hin₁, update_idem, ← hidle, update_eq_self]
        · intro v hv
          dsimp only at hv
          by_cases hvr : v = r
          · exact hvr ▸ not_found_of_not_found hnot
          · rw [update_of_ne hvr] at hv
            exact hsound₂.visited v hv
        · exact fun v hv => hmono v ((hmay v).mpr (.inl hv))
        · exact ⟨hsound₂.mayBeEmpty r, fun h => hmono r ((hmay r).mpr (.inr ⟨rfl, h⟩))⟩

theorem anyLeftRecursion_spec (hwf : WellFormed rules) (hrefs : RefsOk rules) {rs : List Nat}
    (hrs : ∀ r ∈ rs, r < rules.length) (hin : marks.inProgress = fun _ => false)
    (hsound : marks.Sound rules) : ∃ found, anyLeftRecursion rules rs marks = .ok found ∧
      (found = true ↔ ∃ r ∈ rs, Found rules (fun _ => false) r) := by
  induction rs generalizing marks with
  | nil => exact ⟨false, rfl, by simp⟩
  | cons r rs ih =>
    have ih := fun {m : RecursionMarks} => @ih m (fun r hr => hrs r (mem_cons_of_mem _ hr))
    rw [anyLeftRecursion]
    by_cases hvisited : marks.visited r = true
    · rw [if_pos hvisited]
      obtain ⟨found, hrun, hfound⟩ := ih hin hsound
      refine ⟨found, hrun, ?_⟩
      simp [hfound, hsound.visited r hvisited]
    · rw [if_neg hvisited]
      have hidle : idle rules (fun _ => false) < rules.length + 1 := by
        simp [idle]
      obtain ⟨found, m₁, hrun, hfound, hleaves⟩ :=
        detectLeftRecursion_ok hwf hrefs _ r (hrs r mem_cons_self) hidle marks hin hsound
      rw [hrun]
      cases found with
      | true => exact ⟨true, rfl, iff_of_true rfl ⟨r, mem_cons_self, hfound.mp rfl⟩⟩
      | false =>
        obtain ⟨hleaves, -⟩ := hleaves rfl
        have hnot : ¬Found rules (fun _ => false) r := fun h => absurd (hfound.mpr h) (by decide)
        obtain ⟨found, hrun, hfound⟩ := ih (hleaves.inProgress.trans hin) hleaves.sound
        exact ⟨found, hrun, by simp [hfound, hnot]⟩

/-- The check finds exactly the left recursions through rules that have an empty alternate
of their own. -/
theorem leftRecursionCheck_spec (hwf : WellFormed rules) (hrefs : RefsOk rules) :
    ∃ found, leftRecursionCheck rules = .ok found ∧ (found = true ↔ DirectLeftRecursive rules) := by
  have hsound : RecursionMarks.init.Sound rules :=
    ⟨fun _ h => absurd h Bool.false_ne_true, fun _ h => absurd h Bool.false_ne_true⟩
  have hrange : ∀ r ∈ List.range rules.length, r < rules.length := fun _ => mem_range.mp
  obtain ⟨found, hrun, hfound⟩ := anyLeftRecursion_spec hwf hrefs hrange rfl hsound
  refine ⟨found, hrun, hfound.trans ⟨?_, ?_⟩⟩
  · rintro ⟨r, -, v, -, hv⟩
    exact ⟨v, hv.resolve_left Bool.false_ne_true⟩
  · rintro ⟨r, hr⟩
    obtain ⟨v, hrv, -⟩ := TransGen.head'_iff.mp hr
    exact ⟨r, mem_range.mpr hrv.lt, r, .refl, .inr hr⟩

/-! ## Reachable stacks -/

/-- The stacks of the simulation from the start rule on: the alternates of the start rule,
what a round makes of a stack, and what is left behind a terminal. -/
inductive Reachable (rules : GrammarRules) (startRuleIndex : Nat) : GrammarStack → Prop
| start {q : GrammarPos} :
  q ∈ alternates rules startRuleIndex ->
  Reachable rules startRuleIndex (pushUnlessEnd rules q [])
| round {s s' : GrammarStack} :
  Reachable rules startRuleIndex s ->
  Step (expand rules) s s' ->
  Reachable rules startRuleIndex s'
| pass {pos : GrammarPos} {below : GrammarStack} :
  Reachable rules startRuleIndex (pos :: below) ->
  (rules.at pos).type.isTerminal = true ->
  Reachable rules startRuleIndex (pushUnlessEnd rules (behindTop rules pos) below)

section Reach

variable {start : Nat} {s below b : GrammarStack} {x : GrammarPos} {r v : Nat}

theorem Reachable.reaches {s' : GrammarStack} (hs : Reachable rules start s) (h : Reaches rules s s') :
    Reachable rules start s' := by
  induction h with
  | refl => exact hs
  | tail _ hstep ih => exact .round ih hstep

theorem Reachable.stackOk (hwf : WellFormed rules) (hrefs : RefsOk rules) (hstart : start < rules.length)
    (hs : Reachable rules start s) : StackOk rules s := by
  induction hs with
  | start hq => exact stackOk_alternate hwf hstart hq
  | round _ hstep ih => exact ih.step hwf hrefs hstep
  | pass _ hterm ih => exact ih.behindTop hterm

/-- The stack `b` is left below each alternate of `r`. -/
def OpenedOver (rules : GrammarRules) (s : GrammarStack) (r : Nat) (b : GrammarStack) : Prop :=
  ∀ q ∈ alternates rules r, Reaches rules s (pushUnlessEnd rules q [] ++ b)

theorem openedOver_top (hs : Reaches rules s (x :: below)) (htype : (rules.at x).type = .ruleRef) :
    OpenedOver rules s (rules.at x).value (pushUnlessEnd rules (x.add 1) below) := by
  intro q hq
  have hstep : Step (expand rules) (x :: below) _ := step_cons_iff.mpr ⟨htype, q, hq, rfl⟩
  rw [← pushUnlessEnd_append]
  exact hs.tail hstep

/-- Nullable references vanish from the top. -/
theorem LeftReaches.reaches {q : GrammarPos} (h : LeftReaches rules (Nullable rules) q x)
    (below : GrammarStack) :
    Reaches rules (pushUnlessEnd rules q below) (pushUnlessEnd rules x below) := by
  induction h with
  | refl => exact .refl _
  | @skip p x htype hnull _ ih =>
    obtain ⟨q', hq', hvanish⟩ := nullable_iff_reaches.mp hnull
    rw [pushUnlessEnd_of_not_end (not_isEnd_of_ruleRef htype)]
    refine .head (step_cons_iff.mpr ⟨htype, q', hq', rfl⟩) ?_
    have hupper := reaches_append hvanish (pushUnlessEnd rules (p.add 1) below)
    rw [← pushUnlessEnd_append] at hupper
    exact hupper.trans ih

/-- A left corner comes to the top with nothing lost below. -/
theorem CornerAt.reaches_top (hopen : OpenedOver rules s r b)
    (hx : CornerAt rules (Nullable rules) r v x) : Reaches rules s (x :: b) := by
  obtain ⟨⟨q, hq, hleft⟩, htype, -⟩ := hx
  have hreach := hleft.reaches b
  rw [pushUnlessEnd_of_not_end (not_isEnd_of_ruleRef htype)] at hreach
  have hopened := hopen q hq
  rw [← pushUnlessEnd_append] at hopened
  exact hopened.trans hreach

theorem OpenedOver.corner (hopen : OpenedOver rules s r b) (hrv : Corner rules (Nullable rules) r v) :
    ∃ b', b.length ≤ b'.length ∧ OpenedOver rules s v b' := by
  obtain ⟨x, hx⟩ := hrv
  have htop := openedOver_top (hx.reaches_top hopen) hx.2.1
  rw [hx.2.2] at htop
  refine ⟨_, ?_, htop⟩
  unfold pushUnlessEnd
  split
  · exact Nat.le_refl _
  · exact Nat.le_succ _

theorem OpenedOver.growingCorner (hopen : OpenedOver rules s r b)
    (hrv : GrowingCorner rules (Nullable rules) r v) :
    ∃ b', b.length < b'.length ∧ OpenedOver rules s v b' := by
  obtain ⟨x, hx, hnext⟩ := hrv
  have htop := openedOver_top (hx.reaches_top hopen) hx.2.1
  rw [hx.2.2, pushUnlessEnd_of_not_end hnext] at htop
  exact ⟨_, Nat.lt_succ_self _, htop⟩

theorem OpenedOver.corners (hopen : OpenedOver rules s r b)
    (hrv : ReflTransGen (Corner rules (Nullable rules)) r v) :
    ∃ b', b.length ≤ b'.length ∧ OpenedOver rules s v b' := by
  induction hrv with
  | refl => exact ⟨b, Nat.le_refl _, hopen⟩
  | tail _ hcorner ih =>
    obtain ⟨b₁, hle₁, hopen₁⟩ := ih
    obtain ⟨b₂, hle₂, hopen₂⟩ := hopen₁.corner hcorner
    exact ⟨b₂, Nat.le_trans hle₁ hle₂, hopen₂⟩

/-- Once round a growing left recursion, the stack is longer. -/
theorem OpenedOver.growsBack (hopen : OpenedOver rules s r b) (hgrow : GrowsBack rules r) :
    ∃ b', b.length < b'.length ∧ OpenedOver rules s r b' := by
  obtain ⟨v, w, hrv, hvw, hwr⟩ := hgrow
  obtain ⟨b₁, hle₁, hopen₁⟩ := hopen.corners hrv
  obtain ⟨b₂, hlt₂, hopen₂⟩ := hopen₁.growingCorner hvw
  obtain ⟨b₃, hle₃, hopen₃⟩ := hopen₂.corners hwr
  exact ⟨b₃, by omega, hopen₃⟩

/-- With a growing left recursion on top infinitely many stacks are reached. -/
theorem infinite_of_growsBack (hs : Reaches rules s (x :: below)) (htype : (rules.at x).type = .ruleRef)
    (hgrow : GrowsBack rules (rules.at x).value) : ¬{s' | Reaches rules s s'}.Finite := by
  intro hfin
  have hlong : ∀ n, ∃ b, n ≤ b.length ∧ OpenedOver rules s (rules.at x).value b := by
    intro n
    induction n with
    | zero => exact ⟨_, Nat.zero_le _, openedOver_top hs htype⟩
    | succ n ih =>
      obtain ⟨b, hle, hopen⟩ := ih
      obtain ⟨b', hlt, hopen'⟩ := hopen.growsBack hgrow
      exact ⟨b', by omega, hopen'⟩
  obtain ⟨n, hn⟩ := (hfin.image List.length).bddAbove
  obtain ⟨b, hle, hopen⟩ := hlong (n + 1)
  obtain ⟨q, hq⟩ := exists_mem_of_ne_nil _ (alternates_ne_nil rules (rules.at x).value)
  have hbound := hn ⟨_, hopen q hq, rfl⟩
  rw [length_append] at hbound
  omega

/-- A rule that the top of a reachable stack refers to recurses to the left and leaves an
element behind. -/
def ReachableGrowth (rules : GrammarRules) (start : Nat) : Prop :=
  ∃ x below, Reachable rules start (x :: below) ∧ (rules.at x).type = .ruleRef ∧
    GrowsBack rules (rules.at x).value

/-- The left corners of a rule on top come to the top. -/
theorem growth_of_corners (hs : Reachable rules start (x :: below))
    (htype : (rules.at x).type = .ruleRef)
    (hv : ReflTransGen (Corner rules (Nullable rules)) (rules.at x).value v)
    (hgrow : GrowsBack rules v) : ReachableGrowth rules start := by
  rcases ReflTransGen.cases_tail hv with heq | ⟨u, hu, huv⟩
  · exact ⟨x, below, hs, htype, heq ▸ hgrow⟩
  · obtain ⟨b, -, hopen⟩ := (openedOver_top (.refl _) htype).corners hu
    obtain ⟨y, hy⟩ := huv
    exact ⟨y, b, hs.reaches (hy.reaches_top hopen), hy.2.1, hy.2.2.symm ▸ hgrow⟩

/-- `llama_grammar_advance_stack` finishes on every reachable stack exactly when no
growing left recursion is reachable. -/
theorem terminates_iff (hwf : WellFormed rules) (hrefs : RefsOk rules)
    (hstart : start < rules.length) :
    (∀ s, Reachable rules start s → ∀ newStacks, ∃ fuel out, advanceStack fuel rules s newStacks = .ok out) ↔
      ¬ReachableGrowth rules start := by
  constructor
  · rintro h ⟨x, below, hs, htype, hgrow⟩
    obtain ⟨fuel, out, hrun⟩ := h _ hs []
    exact infinite_of_growsBack (.refl _) htype hgrow (Worklist.finite_of_explore_ok hrun)
  · intro hno s hs newStacks
    have hok := hs.stackOk hwf hrefs hstart
    have hopens : OpensFinitely rules s := fun x below hx htype =>
      finite_opened rules _ fun v hv hgrow => hno (growth_of_corners (hs.reaches hx) htype hv hgrow)
    obtain ⟨out, n, hrun⟩ :=
      advanceStack_terminates hwf hrefs hok (finite_reaches_stack hok hopens) newStacks
    exact ⟨n, out, hrun n (Nat.le_refl n)⟩

end Reach

/-! ## Accepted grammars -/

/-- A stack that cannot be advanced makes the loop run for ever. -/
theorem advanceStack_diverges (hwf : WellFormed rules) (hrefs : RefsOk rules) {s : GrammarStack}
    (hs : StackOk rules s) (hinf : ¬{s' | Reaches rules s s'}.Finite) (newStacks : GrammarStacks)
    (fuel : Nat) : advanceStack fuel rules s newStacks = .error .outOfFuel := by
  have hS : ∀ x ∈ {s | StackOk rules s}, ∃ ys, expand rules x = .ok ys ∧ ∀ y ∈ ys, y ∈ {s | StackOk rules s} := by
    intro x hx
    obtain ⟨ys, hys⟩ := StackOk.expand_ok hx
    exact ⟨ys, hys, fun y hy => StackOk.step hwf hrefs hx ⟨ys, hys, hy⟩⟩
  have htodo : ∀ t ∈ [s], t ∈ {s | StackOk rules s} := by
    intro t ht
    obtain rfl : t = s := by simpa using ht
    exact hs
  rcases Worklist.explore_ok_or_outOfFuel hS htodo with ⟨out, hrun⟩ | hrun
  · exact absurd (Worklist.finite_of_explore_ok hrun) hinf
  · exact hrun

/-- Past the check, `llama_grammar_advance_stack` finishes on every reachable stack exactly
when a growing left recursion is reachable only if there is one through rules with an empty
alternate of their own; and the check rejects left recursion under the same condition. -/
theorem leftRecursionCheck_terminates_iff (hwf : WellFormed rules)
    (hrefs : validReferences rules = true) {start : Nat} (hstart : start < rules.length) :
    ((leftRecursionCheck rules = .ok false → ∀ s, Reachable rules start s → ∀ newStacks,
        ∃ fuel out, advanceStack fuel rules s newStacks = .ok out) ↔
      (ReachableGrowth rules start → DirectLeftRecursive rules)) ∧
    ((LeftRecursive rules → leftRecursionCheck rules = .ok true) ↔
      (LeftRecursive rules → DirectLeftRecursive rules)) := by
  have hrefs := refsOk_of_validReferences hrefs
  obtain ⟨found, hcheck, hfound⟩ := leftRecursionCheck_spec hwf hrefs
  rw [terminates_iff hwf hrefs hstart, hcheck, ← hfound]
  cases found with
  | true => simp
  | false => simp

/-- `root ::= b root "x" | "y"`, `b ::= c`, `c ::= "" | "z"`: the rule `b` is nullable only
through `c`. -/
def nullableThroughOther : GrammarRules :=
  [[⟨.ruleRef, 1⟩, ⟨.ruleRef, 0⟩, ⟨.char, 120⟩, ⟨.alt, 0⟩, ⟨.char, 121⟩, ⟨.endOfRule, 0⟩],
    [⟨.ruleRef, 2⟩, ⟨.endOfRule, 0⟩],
    [⟨.alt, 0⟩, ⟨.char, 122⟩, ⟨.endOfRule, 0⟩]]

theorem leftRecursionCheck_terminates_iff_missed :
    ((leftRecursionCheck nullableThroughOther = .ok false →
        ∀ s, Reachable nullableThroughOther 0 s → ∀ newStacks,
          ∃ fuel out, advanceStack fuel nullableThroughOther s newStacks = .ok out) ↔
      (ReachableGrowth nullableThroughOther 0 → DirectLeftRecursive nullableThroughOther)) ∧
    ((LeftRecursive nullableThroughOther →
        leftRecursionCheck nullableThroughOther = .ok true) ↔
      (LeftRecursive nullableThroughOther → DirectLeftRecursive nullableThroughOther)) :=
  leftRecursionCheck_terminates_iff (by decide) (by decide) (by decide)

theorem growsBack_nullableThroughOther : GrowsBack nullableThroughOther 0 := by
  have hnull : Nullable nullableThroughOther 1 :=
    ⟨⟨1, 0⟩, by decide, .ref (q := ⟨2, 0⟩) rfl (by decide) (.done rfl) (.done rfl)⟩
  refine ⟨0, 0, .refl, ⟨⟨0, 1⟩, ⟨⟨⟨0, 0⟩, by decide, ?_⟩, rfl, rfl⟩, rfl⟩, .refl⟩
  exact .skip rfl hnull .refl

/-- The check passes this grammar, and the initial stack cannot be advanced. -/
theorem leftRecursionCheck_misses :
    leftRecursionCheck nullableThroughOther = .ok false ∧ LeftRecursive nullableThroughOther ∧
      ∃ s, Reachable nullableThroughOther 0 s ∧
        ∀ fuel, advanceStack fuel nullableThroughOther s [] = .error .outOfFuel := by
  have hwf : WellFormed nullableThroughOther := by decide
  have hrefs : RefsOk nullableThroughOther := refsOk_of_validReferences (by decide)
  have hstart : Reachable nullableThroughOther 0 [⟨0, 0⟩] := .start (q := ⟨0, 0⟩) (by decide)
  refine ⟨by decide, growsBack_nullableThroughOther.leftRecursive, [⟨0, 0⟩], hstart, fun fuel => ?_⟩
  refine advanceStack_diverges hwf hrefs (hstart.stackOk hwf hrefs (by decide)) ?_ [] fuel
  -- the references to `b` and `c` vanish and bring the reference to `root` to the top
  have htop : Reaches nullableThroughOther [⟨0, 0⟩] [⟨0, 1⟩] := by
    refine .head (y := [⟨1, 0⟩, ⟨0, 1⟩]) ?_ (.head (y := [⟨0, 1⟩]) ?_ (.refl _))
    · exact step_cons_iff.mpr ⟨rfl, ⟨1, 0⟩, by decide, by decide⟩
    · exact step_cons_iff.mpr ⟨rfl, ⟨2, 0⟩, by decide, by decide⟩
  exact infinite_of_growsBack htop rfl growsBack_nullableThroughOther

end LlamaCpp
