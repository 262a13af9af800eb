import Mathlib.Data.Set.Card
import Mathlib.Order.Interval.Finset.Nat
import LlamaCpp.Grammar.Expansion

/-!
# Left recursion and termination

A rule is nullable when one of its alternates derives the empty string (`Vanishes`).
`Corner N` relates a rule to the references its alternates start with, behind references
to rules in `N`.  With the nullable rules for `N` this is left recursion
(`LeftRecursive`); `llama_grammar_detect_left_recursion` looks for it with the rules that
have an empty alternate of their own (`detect_iff`).

`llama_grammar_advance_stack` runs for ever exactly when a left recursion leaves something
behind on the stack (`GrowsBack`): one that leaves nothing behind comes back to a stack
that was seen before.
-/

namespace LlamaCpp

open List

open Relation (ReflTransGen TransGen)
open Worklist (Halt Step Settles)

/-! ## Nullable rules -/

/-- The rest of an alternate derives the empty string. -/
inductive Vanishes (rules : GrammarRules) : List GrammarElement → Prop
| done {es : List GrammarElement} :
  (headElement es).isEndOfSequence = true ->
  Vanishes rules es
| ref {e : GrammarElement} {es : List GrammarElement} {q : GrammarPos} :
  e.type = .ruleRef ->
  q ∈ alternates rules e.value ->
  Vanishes rules (rules.from q) ->
  Vanishes rules es ->
  Vanishes rules (e :: es)

/-- The rule derives the empty string. -/
def Nullable (rules : GrammarRules) (r : Nat) : Prop :=
  ∃ q ∈ alternates rules r, Vanishes rules (rules.from q)

/-- The rule has an alternate without elements. -/
def HasEmptyAlternate (rules : GrammarRules) (r : Nat) : Prop :=
  ∃ q ∈ alternates rules r, (rules.at q).isEndOfSequence = true

section Vanish

variable {rules : GrammarRules}

/-- What derives the empty string vanishes from a stack. -/
theorem Vanishes.reaches {es : List GrammarElement} (h : Vanishes rules es) :
    ∀ pos, rules.from pos = es → Reaches rules (pushUnlessEnd rules pos []) [] := by
  induction h with
  | done hend =>
    intro pos hpos
    rw [pushUnlessEnd_of_end (by rwa [GrammarRules.at, hpos])]
    exact .refl _
  | @ref e es q htype hq _ _ ihq ih =>
    intro pos hpos
    have hat : rules.at pos = e := at_eq hpos
    have hstep : Step (expand rules) [pos]
        (pushUnlessEnd rules q (pushUnlessEnd rules (pos.add 1) [])) :=
      step_cons_iff.mpr ⟨hat.symm ▸ htype, q, hat.symm ▸ hq, rfl⟩
    have hpush : pushUnlessEnd rules pos [] = [pos] :=
      pushUnlessEnd_of_not_end (not_isEnd_of_ruleRef (hat.symm ▸ htype)) []
    rw [hpush]
    refine .head hstep ?_
    have hupper := reaches_append (ihq q rfl) (pushUnlessEnd rules (pos.add 1) [])
    rw [← pushUnlessEnd_append] at hupper
    exact hupper.trans (ih _ (from_add_one hpos))

/-- A stack that vanishes holds pointers to nothing but nullable rests. -/
theorem vanishes_of_reaches_nil {s : GrammarStack} (h : Reaches rules s []) :
    ∀ pos ∈ s, Vanishes rules (rules.from pos) := by
  induction h using ReflTransGen.head_induction_on with
  | refl => exact fun _ h => absurd h not_mem_nil
  | @head s s' hstep _ ih =>
    cases s with
    | nil => exact absurd hstep not_step_nil
    | cons pos below =>
      obtain ⟨htype, q, hq, rfl⟩ := step_cons_iff.mp hstep
      -- a pointer is on the new stack, or there is nothing left at it
      have hvanish : ∀ p s, (∀ p' ∈ pushUnlessEnd rules p s, Vanishes rules (rules.from p')) →
          Vanishes rules (rules.from p) ∧ ∀ p' ∈ s, Vanishes rules (rules.from p') := by
        intro p s hs
        cases hend : (rules.at p).isEndOfSequence with
        | true =>
          rw [pushUnlessEnd_of_end hend] at hs
          exact ⟨.done hend, hs⟩
        | false =>
          rw [pushUnlessEnd_of_not_end hend] at hs
          exact ⟨hs p mem_cons_self, fun p' hp' => hs p' (mem_cons_of_mem _ hp')⟩
      obtain ⟨hq', hrest⟩ := hvanish q _ ih
      obtain ⟨hnext, hbelow⟩ := hvanish (pos.add 1) below hrest
      intro p hp
      rcases mem_cons.mp hp with rfl | hp
      · rw [from_eq_cons (ne_endOfRule_of_ruleRef htype)]
        exact .ref htype hq hq' hnext
      · exact hbelow p hp

theorem nullable_iff_reaches {r : Nat} :
    Nullable rules r ↔ ∃ q ∈ alternates rules r, Reaches rules (pushUnlessEnd rules q []) [] := by
  constructor
  · rintro ⟨q, hq, hvanish⟩
    exact ⟨q, hq, hvanish.reaches q rfl⟩
  · rintro ⟨q, hq, hreach⟩
    refine ⟨q, hq, ?_⟩
    cases hend : (rules.at q).isEndOfSequence with
    | true => exact .done hend
    | false =>
      rw [pushUnlessEnd_of_not_end hend] at hreach
      exact vanishes_of_reaches_nil hreach q mem_cons_self

end Vanish

/-! ## Left corners -/

section Corners

variable (rules : GrammarRules) (N : Nat → Prop)

/-- Between the two pointers stand only references to rules in `N`. -/
inductive LeftReaches : GrammarPos → GrammarPos → Prop
| refl {pos : GrammarPos} :
  LeftReaches pos pos
| skip {pos x : GrammarPos} :
  (rules.at pos).type = .ruleRef ->
  N (rules.at pos).value ->
  LeftReaches (pos.add 1) x ->
  LeftReaches pos x

/-- `x` is a reference to `v` behind references to rules in `N` in an alternate of `r`. -/
def CornerAt (r v : Nat) (x : GrammarPos) : Prop :=
  (∃ q ∈ alternates rules r, LeftReaches rules N q x) ∧
    (rules.at x).type = .ruleRef ∧ (rules.at x).value = v

/-- An alternate of `r` starts with a reference to `v`, behind references to rules in `N`. -/
def Corner (r v : Nat) : Prop := ∃ x, CornerAt rules N r v x

/-- The reference is followed by another element. -/
def GrowingCorner (r v : Nat) : Prop :=
  ∃ x, CornerAt rules N r v x ∧ (rules.at (x.add 1)).isEndOfSequence = false

end Corners

/-- Some rule starts with itself behind nullable rules. -/
def LeftRecursive (rules : GrammarRules) : Prop :=
  ∃ r, TransGen (Corner rules (Nullable rules)) r r

/-- Some rule starts with itself behind rules that have an empty alternate. -/
def DirectLeftRecursive (rules : GrammarRules) : Prop :=
  ∃ r, TransGen (Corner rules (HasEmptyAlternate rules)) r r

/-- The rule starts with itself, and an element is left behind on the way. -/
def GrowsBack (rules : GrammarRules) (r : Nat) : Prop :=
  ∃ v w, ReflTransGen (Corner rules (Nullable rules)) r v ∧
    GrowingCorner rules (Nullable rules) v w ∧
    ReflTransGen (Corner rules (Nullable rules)) w r

section CornerLemmas

variable {rules : GrammarRules} {N N' : Nat → Prop} {r v : Nat} {p x : GrammarPos}

theorem LeftReaches.snoc (h : LeftReaches rules N p x) (htype : (rules.at x).type = .ruleRef)
    (hN : N (rules.at x).value) : LeftReaches rules N p (x.add 1) := by
  induction h with
  | refl => exact .skip htype hN .refl
  | skip ht hn _ ih => exact .skip ht hn (ih htype hN)

theorem GrowingCorner.corner (h : GrowingCorner rules N r v) : Corner rules N r v := by
  obtain ⟨x, hx, -⟩ := h
  exact ⟨x, hx⟩

theorem GrowsBack.leftRecursive (h : GrowsBack rules r) : LeftRecursive rules := by
  obtain ⟨v, w, hrv, hvw, hwr⟩ := h
  exact ⟨r, TransGen.trans_right hrv (TransGen.head' hvw.corner hwr)⟩

theorem Corner.lt (h : Corner rules N r v) : r < rules.length := by
  obtain ⟨x, ⟨q, hq, hleft⟩, htype, -⟩ := h
  have hq' : (rules.at q).type = .ruleRef := by
    cases hleft with
    | refl => exact htype
    | skip ht _ _ => exact ht
  have hlt := (at_mem_rule (ne_endOfRule_of_ruleRef hq')).1
  rwa [alternates_rule hq] at hlt

end CornerLemmas

/-! ## Expansions that end -/

section Finite

variable {rules : GrammarRules} {r v : Nat}

/-- The stacks reached from the alternates of a rule. -/
def Opened (rules : GrammarRules) (r : Nat) : Set GrammarStack :=
  {s | ∃ q ∈ alternates rules r, Reaches rules (pushUnlessEnd rules q []) s}

/-- A chain of left corners leads from `r` to `v` and leaves an element behind. -/
def Grows (rules : GrammarRules) (r v : Nat) : Prop :=
  ∃ a b, ReflTransGen (Corner rules (Nullable rules)) r a ∧
    GrowingCorner rules (Nullable rules) a b ∧
    ReflTransGen (Corner rules (Nullable rules)) b v

theorem Grows.reflTransGen (h : Grows rules r v) : ReflTransGen (Corner rules (Nullable rules)) r v := by
  obtain ⟨a, b, hra, hab, hbv⟩ := h
  exact hra.trans (.head hab.corner hbv)

theorem Grows.trans {u : Nat} (h : Grows rules r u) (hu : Grows rules u v) : Grows rules r v := by
  obtain ⟨a, b, hra, hab, hbu⟩ := h
  exact ⟨a, b, hra, hab, hbu.trans hu.reflTransGen⟩

theorem finite_positions (rules : GrammarRules) : {x | (rules.at x).type ≠ .endOfRule}.Finite := by
  have hfin : (⋃ r ∈ Set.Iio rules.length,
      (fun i => (⟨r, i⟩ : GrammarPos)) '' Set.Iio (rules.rule r).length).Finite :=
    (Set.finite_Iio _).biUnion fun r _ => (Set.finite_Iio _).image _
  refine hfin.subset fun x hx => ?_
  obtain ⟨hlt, -⟩ := at_mem_rule hx
  have hindex : x.index < (rules.rule x.rule).length := by
    by_contra hge
    have hnil : rules.from x = [] := drop_eq_nil_of_le (Nat.le_of_not_lt hge)
    exact absurd (from_eq_cons hx) (by simp [hnil])
  exact Set.mem_biUnion hlt ⟨x.index, hindex, rfl⟩

theorem finite_grows (rules : GrammarRules) (r : Nat) : {v | Grows rules r v}.Finite := by
  refine ((finite_positions rules).image fun x => (rules.at x).value).subset ?_
  rintro v ⟨a, b, -, hab, hbv⟩
  have hcorner : ∃ u, Corner rules (Nullable rules) u v := by
    rcases ReflTransGen.cases_tail hbv with rfl | ⟨u, -, huv⟩
    · exact ⟨a, hab.corner⟩
    · exact ⟨u, huv⟩
  obtain ⟨u, x, -, htype, hvalue⟩ := hcorner
  exact ⟨x, ne_endOfRule_of_ruleRef htype, hvalue⟩

/-- The pointer stands in an alternate of a rule that `r` starts with, behind nullable
references. -/
def Near (rules : GrammarRules) (r : Nat) (x : GrammarPos) : Prop :=
  ∃ v, ReflTransGen (Corner rules (Nullable rules)) r v ∧
    ∃ q ∈ alternates rules v, LeftReaches rules (Nullable rules) q x

theorem Near.grows {x : GrammarPos} (h : Near rules r x) (htype : (rules.at x).type = .ruleRef)
    (hnext : (rules.at (x.add 1)).isEndOfSequence = false) :
    Grows rules r (rules.at x).value := by
  obtain ⟨v, hrv, hq⟩ := h
  exact ⟨v, _, hrv, ⟨x, ⟨hq, htype, rfl⟩, hnext⟩, .refl⟩

/-- The stacks over an alternate of `r`: a pointer alone, or a pointer that waits below
what its predecessor has opened. -/
inductive Around (rules : GrammarRules) (r : Nat) : GrammarStack → Prop
| nil :
  Around rules r []
| one {x : GrammarPos} :
  Near rules r x ->
  (rules.at x).isEndOfSequence = false ->
  Around rules r [x]
| above {x : GrammarPos} {a : GrammarStack} :
  Near rules r x ->
  (rules.at x).type = .ruleRef ->
  (rules.at (x.add 1)).isEndOfSequence = false ->
  a ∈ Opened rules (rules.at x).value ->
  Around rules r (a ++ [x.add 1])

theorem around_pushUnlessEnd {q : GrammarPos} (hq : Near rules r q) : Around rules r (pushUnlessEnd rules q []) := by
  cases hend : (rules.at q).isEndOfSequence with
  | true =>
    rw [pushUnlessEnd_of_end hend]
    exact .nil
  | false =>
    rw [pushUnlessEnd_of_not_end hend]
    exact .one hq hend

theorem around_step_one {x : GrammarPos} {s : GrammarStack} (hx : Near rules r x)
    (hstep : Step (expand rules) [x] s) : Around rules r s := by
  obtain ⟨htype, q, hq, rfl⟩ := step_cons_iff.mp hstep
  cases hnext : (rules.at (x.add 1)).isEndOfSequence with
  | true =>
    rw [pushUnlessEnd_of_end hnext]
    obtain ⟨v, hrv, hv⟩ := hx
    exact around_pushUnlessEnd ⟨_, hrv.tail ⟨x, hv, htype, rfl⟩, q, hq, .refl⟩
  | false =>
    rw [pushUnlessEnd_of_not_end hnext, ← nil_append [x.add 1], pushUnlessEnd_append]
    exact .above hx htype hnext ⟨q, hq, .refl _⟩

/-- No round leads out of the stacks over `r`. -/
theorem Around.step {s s' : GrammarStack} (h : Around rules r s) (hstep : Step (expand rules) s s') :
    Around rules r s' := by
  cases h with
  | nil => exact absurd hstep not_step_nil
  | one hx _ => exact around_step_one hx hstep
  | @above x a hx htype hnext ha =>
    cases a with
    | nil =>
      -- what was opened has vanished, so the rule is nullable
      have hnull : Nullable rules (rules.at x).value := nullable_iff_reaches.mpr ha
      obtain ⟨v, hrv, q, hq, hleft⟩ := hx
      exact around_step_one ⟨v, hrv, q, hq, hleft.snoc htype hnull⟩ hstep
    | cons p below =>
      obtain ⟨b, hb, rfl⟩ := step_append_inv (cons_ne_nil p below) hstep
      obtain ⟨q, hq, hreach⟩ := ha
      exact .above hx htype hnext ⟨q, hq, hreach.tail hb⟩

theorem finite_around (hopened : ∀ u, Grows rules r u → (Opened rules u).Finite) : {s | Around rules r s}.Finite := by
  have hfin : ({[]} ∪ (fun x => [x]) '' {x | (rules.at x).type ≠ .endOfRule} ∪
      ⋃ x ∈ {x | (rules.at x).type ≠ .endOfRule},
        (fun a => a ++ [x.add 1]) '' {a | Grows rules r (rules.at x).value ∧
          a ∈ Opened rules (rules.at x).value}).Finite := by
    refine ((Set.finite_singleton _).union ((finite_positions rules).image _)).union
      ((finite_positions rules).biUnion fun x _ => Set.Finite.image _ ?_)
    by_cases hgrows : Grows rules r (rules.at x).value
    · exact (hopened _ hgrows).subset fun a ha => ha.2
    · exact Set.finite_empty.subset fun a ha => absurd ha.1 hgrows
  refine hfin.subset fun s hs => ?_
  cases hs with
  | nil => exact .inl (.inl rfl)
  | @one x _ hend =>
    refine .inl (.inr ⟨x, fun h => ?_, rfl⟩)
    simp [GrammarElement.isEndOfSequence, h] at hend
  | @above x a hx htype hnext ha =>
    exact .inr (Set.mem_biUnion (ne_endOfRule_of_ruleRef htype)
      ⟨a, ⟨hx.grows htype hnext, ha⟩, rfl⟩)

/-- A rule from which no chain of left corners reaches a growing left recursion opens
finitely many stacks.  The induction is on the number of rules that the chains reach with
an element left behind. -/
theorem finite_opened (rules : GrammarRules) (r : Nat)
    (hno : ∀ v, ReflTransGen (Corner rules (Nullable rules)) r v → ¬GrowsBack rules v) :
    (Opened rules r).Finite := by
  induction hk : {v | Grows rules r v}.ncard using Nat.strong_induction_on generalizing r with
  | _ k ih =>
    have hopened : ∀ u, Grows rules r u → (Opened rules u).Finite := by
      intro u hu
      refine ih _ ?_ u (fun v huv => hno v (hu.reflTransGen.trans huv)) rfl
      rw [← hk]
      refine Set.ncard_lt_ncard ⟨fun v hv => hu.trans hv, fun hsub => ?_⟩ (finite_grows rules r)
      obtain ⟨a, b, hua, hab, hbu⟩ : Grows rules u u := hsub hu
      exact hno u hu.reflTransGen ⟨a, b, hua, hab, hbu⟩
    refine (finite_around hopened).subset ?_
    rintro s ⟨q, hq, hreach⟩
    exact Worklist.Reaches.mem_of_closed (S := {s | Around rules r s})
      (fun _ hs _ hstep => Around.step hs hstep)
      (around_pushUnlessEnd ⟨r, .refl, q, hq, .refl⟩) hreach

end Finite

/-! ## Stacks in general -/

section Stacks

variable {rules : GrammarRules} {s : GrammarStack}

theorem reaches_nil (h : Reaches rules [] s) : s = [] := by
  rcases ReflTransGen.cases_head h with heq | ⟨_, hstep, _⟩
  · exact heq.symm
  · exact absurd hstep not_step_nil

theorem finite_reaches_append {a rest : GrammarStack} (ha : {s | Reaches rules a s}.Finite)
    (hrest : Reaches rules a [] → {s | Reaches rules rest s}.Finite) :
    {s | Reaches rules (a ++ rest) s}.Finite := by
  by_cases hnil : Reaches rules a []
  · refine ((ha.image (· ++ rest)).union (hrest hnil)).subset fun s hs => ?_
    rcases reaches_append_inv hs with ⟨b, hb, rfl⟩ | ⟨-, hs⟩
    · exact .inl ⟨b, hb, rfl⟩
    · exact .inr hs
  · refine (ha.image (· ++ rest)).subset fun s hs => ?_
    rcases reaches_append_inv hs with ⟨b, hb, rfl⟩ | ⟨ha, -⟩
    · exact ⟨b, hb, rfl⟩
    · exact absurd ha hnil

/-- The rules that a stack comes to refer to on its top open finitely many stacks. -/
def OpensFinitely (rules : GrammarRules) (s : GrammarStack) : Prop :=
  ∀ x below, Reaches rules s (x :: below) → (rules.at x).type = .ruleRef →
    (Opened rules (rules.at x).value).Finite

theorem OpensFinitely.reaches {s' : GrammarStack} (h : OpensFinitely rules s) (hs : Reaches rules s s') :
    OpensFinitely rules s' :=
  fun x below hx => h x below (hs.trans hx)

/-- One pointer reaches finitely many stacks.  The induction is on the elements behind it. -/
theorem finite_reaches_one {es : List GrammarElement} {pos : GrammarPos}
    (hes : rules.from pos = es) (h : OpensFinitely rules (pushUnlessEnd rules pos [])) :
    {s | Reaches rules (pushUnlessEnd rules pos []) s}.Finite := by
  have hnil : {s | Reaches rules [] s}.Finite :=
    (Set.finite_singleton ([] : GrammarStack)).subset fun s hs => reaches_nil hs
  induction es generalizing pos with
  | nil =>
    rw [pushUnlessEnd_of_end (by rw [GrammarRules.at, hes]; rfl)]
    exact hnil
  | cons e es ih =>
    cases hend : (rules.at pos).isEndOfSequence with
    | true =>
      rw [pushUnlessEnd_of_end hend]
      exact hnil
    | false =>
      rw [pushUnlessEnd_of_not_end hend] at h ⊢
      by_cases htype : (rules.at pos).type = .ruleRef
      · have hopened := h pos [] (.refl _) htype
        have hq : ∀ q ∈ alternates rules (rules.at pos).value, {s | Reaches rules
            (pushUnlessEnd rules q (pushUnlessEnd rules (pos.add 1) [])) s}.Finite := by
          intro q hq
          have hstep : Step (expand rules) [pos] _ := step_cons_iff.mpr ⟨htype, q, hq, rfl⟩
          rw [← nil_append (pushUnlessEnd rules (pos.add 1) []), pushUnlessEnd_append] at hstep ⊢
          refine finite_reaches_append (hopened.subset fun s hs => ⟨q, hq, hs⟩) fun hvanish => ?_
          refine ih (from_add_one hes) (h.reaches ?_)
          exact .head hstep (reaches_append hvanish _)
        refine ((Set.finite_singleton [pos]).union
          ((finite_toSet (alternates rules (rules.at pos).value)).biUnion hq)).subset
            fun s hs => ?_
        rcases ReflTransGen.cases_head hs with heq | ⟨s', hstep, hs⟩
        · exact .inl heq.symm
        · obtain ⟨-, q, hq, rfl⟩ := step_cons_iff.mp hstep
          exact .inr (Set.mem_biUnion hq hs)
      · refine (Set.finite_singleton [pos]).subset fun s hs => ?_
        rcases ReflTransGen.cases_head hs with heq | ⟨s', hstep, -⟩
        · exact heq.symm
        · exact absurd (step_cons_iff.mp hstep).1 htype

theorem finite_reaches_stack (hs : StackOk rules s) (h : OpensFinitely rules s) :
    {s' | Reaches rules s s'}.Finite := by
  induction s with
  | nil => exact (Set.finite_singleton ([] : GrammarStack)).subset fun s hs => reaches_nil hs
  | cons pos below ih =>
    have hpush : pushUnlessEnd rules pos below = pos :: below :=
      pushUnlessEnd_of_not_end (hs pos mem_cons_self).2 below
    rw [← hpush, ← nil_append below, pushUnlessEnd_append] at h ⊢
    have hone : OpensFinitely rules (pushUnlessEnd rules pos []) := fun x rest hx =>
      h x (rest ++ below) (reaches_append hx below)
    refine finite_reaches_append (finite_reaches_one rfl hone) fun hvanish => ?_
    exact ih (fun p hp => hs p (mem_cons_of_mem _ hp))
      (h.reaches (reaches_append hvanish below))

/-- `llama_grammar_advance_stack` finishes when finitely many stacks are reached. -/
theorem advanceStack_terminates (hwf : WellFormed rules) (hrefs : RefsOk rules) (hs : StackOk rules s)
    (hfin : {s' | Reaches rules s s'}.Finite) (newStacks : GrammarStacks) :
    ∃ out, Settles (fun fuel => advanceStack fuel rules s newStacks) out :=
  Worklist.explore_terminates hfin (fun _ hx => (hs.reaches hwf hrefs hx).expand_ok) newStacks

/-- Without left recursion every stack reaches finitely many stacks. -/
theorem opensFinitely_of_not_leftRecursive (hrec : ¬LeftRecursive rules) (s : GrammarStack) : OpensFinitely rules s :=
  fun x _ _ _ => finite_opened rules (rules.at x).value fun _ _ hgrow =>
    hrec hgrow.leftRecursive

end Stacks

end LlamaCpp
