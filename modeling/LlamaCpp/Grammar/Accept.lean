import LlamaCpp.Grammar.LeftRecursion

/-!
# What accepting a code point does

A char range is the set `charSetAt` of code points, and `llama_grammar_match_char` decides
membership in it.  `Passes` says that a code point is in the set on top of a stack, and
what the stack then advances to; `llama_grammar_accept` collects exactly those stacks
(`mem_acceptStacks`), and accepting a string follows them (`mem_acceptAll`).  Without left
recursion all of this has enough fuel at some point.
-/

namespace LlamaCpp

open Worklist (Halt Step Settles settles_pure settles_foldlM)

/-! ## Char ranges -/

/-- What a terminal element matches. -/
inductive CharSet where
  /-- Any character. -/
  | any
  /-- The characters in one of the ranges, or those in none of them. -/
  | ranges (positive : Bool) (bounds : List (Nat × Nat))
  /-- A token element matches no character. -/
  | none
deriving DecidableEq

def CharSet.Matches : CharSet → Nat → Prop
  | .any, _ => True
  | .ranges positive bounds, chr => ((∃ b ∈ bounds, b.1 ≤ chr ∧ chr ≤ b.2) ↔ positive = true)
  | .none, _ => False

instance (s : CharSet) (chr : Nat) : Decidable (s.Matches chr) := by
  cases s <;> unfold CharSet.Matches <;> infer_instance

/-- The bounds that the elements of a char range give: `[a-z]` or a single char, and the
alternates that follow. -/
def charBounds : List GrammarElement → List (Nat × Nat)
  | e :: u :: es =>
    if u.type = .charRngUpper then
      (e.value, u.value) :: if (headElement es).type = .charAlt then charBounds es else []
    else (e.value, e.value) :: if u.type = .charAlt then charBounds (u :: es) else []
  | [e] => [(e.value, e.value)]
  | [] => []

/-- The set of the terminal that the elements start with. -/
def charSetAt (es : List GrammarElement) : CharSet :=
  match (headElement es).type with
  | .charAny => .any
  | .char => .ranges true (charBounds es)
  | .charNot => .ranges false (charBounds es)
  | _ => .none

/-- The bounds decide the loop of `llama_grammar_match_char`. -/
theorem matchCharLoop_fst (chr : Nat) (es : List GrammarElement) (found : Bool) (n : Nat)
    (hes : es ≠ []) (hany : (headElement es).type ≠ .charAny) :
    (matchCharLoop chr es found n).1 = true ↔ found = true ∨ ∃ b ∈ charBounds es, b.1 ≤ chr ∧ chr ≤ b.2 := by
  have hcharAlt : ∀ {es : List GrammarElement}, (headElement es).type = .charAlt →
      es ≠ [] ∧ (headElement es).type ≠ .charAny := by
    intro es h
    refine ⟨?_, by rw [h]; decide⟩
    rintro rfl
    exact absurd h (by decide)
  have heq : ∀ {v : Nat}, v = chr ↔ v ≤ chr ∧ chr ≤ v := by omega
  fun_induction matchCharLoop chr es found n with
  | case1 e u es found n hrng found' halt ih =>
    refine (ih (hcharAlt halt).1 (hcharAlt halt).2).trans ?_
    rw [charBounds, if_pos hrng, if_pos halt]
    simp [found', or_assoc]
  | case2 e u es found n hrng found' halt =>
    rw [charBounds, if_pos hrng, if_neg halt]
    simp [found']
  | case3 e u es found n hrng found' halt ih =>
    have hany : e.type ≠ .charAny := hany
    refine (ih (@hcharAlt (u :: es) halt).1 (@hcharAlt (u :: es) halt).2).trans ?_
    rw [charBounds, if_neg hrng, if_pos halt]
    simp [found', hany, heq, or_assoc]
  | case4 e u es found n hrng found' halt =>
    have hany : e.type ≠ .charAny := hany
    rw [charBounds, if_neg hrng, if_neg halt]
    simp [found', hany, heq]
  | case5 e found n =>
    have hany : e.type ≠ .charAny := hany
    simp [charBounds, hany, heq]
  | case6 => exact absurd rfl hes

section Matching

variable {rules : GrammarRules} {pos : GrammarPos}

/-- Any character is matched at `.`. -/
theorem matchCharLoop_charAny (chr : Nat) {e : GrammarElement} {es : List GrammarElement}
    (hwf : wellFormedFrom .alt (e :: es) = true) (hany : e.type = .charAny) :
    (matchCharLoop chr (e :: es) false 0).1 = true := by
  have htail := wellFormedFrom_cons hwf (by rw [hany]; decide)
  rw [hany] at htail
  cases es with
  | nil => exact absurd htail (by simp [wellFormedFrom])
  | cons u es =>
    rw [wellFormedFrom, Bool.and_eq_true] at htail
    have hrng : u.type ≠ .charRngUpper := by
      intro h
      rw [h] at htail
      exact absurd htail.1 (by decide)
    have halt : u.type ≠ .charAlt := by
      intro h
      rw [h] at htail
      exact absurd htail.1 (by decide)
    simp [matchCharLoop, hany, hrng, halt]

/-- `llama_grammar_match_char` decides membership and passes the char range. -/
theorem matchChar_eq (hwf : wellFormedFrom .alt (rules.from pos) = true) (chr : Nat)
    (htype : (rules.at pos).type = .char ∨ (rules.at pos).type = .charNot ∨ (rules.at pos).type = .charAny) :
    matchChar rules pos chr = .ok (decide ((charSetAt (rules.from pos)).Matches chr), behindTop rules pos) := by
  have hne : (rules.at pos).type ≠ .endOfRule := by
    rcases htype with h | h | h <;> rw [h] <;> decide
  have hcons := from_eq_cons hne
  have hsnd : (matchCharLoop chr (rules.from pos) false 0).2 = passed (rules.from pos) := by
    rw [matchCharLoop_snd, Nat.zero_add]
  have hhead : (headElement (rules.from pos)).type = (rules.at pos).type := rfl
  unfold matchChar behindTop charSetAt
  rw [hhead]
  have hranges : (rules.at pos).type ≠ .charAny →
      ((matchCharLoop chr (rules.from pos) false 0).1 = true ↔
        ∃ b ∈ charBounds (rules.from pos), b.1 ≤ chr ∧ chr ≤ b.2) := by
    intro hany
    have hfst := matchCharLoop_fst chr (rules.from pos) false 0 (by simp [hcons]) (hhead ▸ hany)
    simpa using hfst
  rcases htype with h | h | h
  · have hset : decide ((CharSet.ranges true (charBounds (rules.from pos))).Matches chr) =
        (matchCharLoop chr (rules.from pos) false 0).1 := by
      rw [Bool.eq_iff_iff, decide_eq_true_iff, CharSet.Matches, hranges (by rw [h]; decide)]
      simp
    simp [h, isPositiveChar, hsnd, hset]
  · have hset : decide ((CharSet.ranges false (charBounds (rules.from pos))).Matches chr) =
        !(matchCharLoop chr (rules.from pos) false 0).1 := by
      rw [Bool.eq_iff_iff, decide_eq_true_iff, CharSet.Matches, ← hranges (by rw [h]; decide)]
      simp
    simp [h, isPositiveChar, hsnd, hset]
  · have hfst : (matchCharLoop chr (rules.from pos) false 0).1 = true := by
      rw [hcons] at hwf ⊢
      exact matchCharLoop_charAny chr hwf h
    simp [h, isPositiveChar, hsnd, hfst, CharSet.Matches]

end Matching

/-! ## Advancing and passing -/

/-- What `llama_grammar_advance_stack` makes of a stack. -/
def Advances (rules : GrammarRules) (s l : GrammarStack) : Prop :=
  Reaches rules s l ∧ isFinished rules l = true

/-- What `llama_grammar_accept_chr` makes of a stack. -/
def Passes (rules : GrammarRules) (s : GrammarStack) (chr : Nat) (l : GrammarStack) : Prop :=
  ∃ pos below, s = pos :: below ∧ (charSetAt (rules.from pos)).Matches chr ∧
    Advances rules (pushUnlessEnd rules (behindTop rules pos) below) l

/-- What accepting the code points one by one makes of a stack. -/
inductive Consumes (rules : GrammarRules) : GrammarStack → List Nat → GrammarStack → Prop
| nil {s : GrammarStack} :
  Consumes rules s [] s
| cons {s s' l : GrammarStack} {chr : Nat} {w : List Nat} :
  Passes rules s chr s' ->
  Consumes rules s' w l ->
  Consumes rules s (chr :: w) l

def LlamaGrammar.acceptAll (fuel : Nat) (grammar : LlamaGrammar) (w : List Nat) :
    Except Halt LlamaGrammar :=
  w.foldlM (fun grammar chr => grammar.accept fuel chr) grammar

/-- A finished stack of a well-formed grammar. -/
structure StackDone (rules : GrammarRules) (s : GrammarStack) : Prop where
  ok : StackOk rules s
  finished : isFinished rules s = true

section Accept

variable {rules : GrammarRules} {s l : GrammarStack} {newStacks out : GrammarStacks}
  {fuel chr : Nat} {pos : GrammarPos}

theorem mem_pushNew {stack : GrammarStack} : l ∈ pushNew newStacks stack ↔ l ∈ newStacks ∨ l = stack := by
  unfold pushNew
  split
  · constructor
    · exact .inl
    · rintro (h | rfl)
      · exact h
      · assumption
  · simp

theorem mem_collect {stack : GrammarStack} :
    l ∈ collect rules newStacks stack ↔ l ∈ newStacks ∨ (l = stack ∧ isFinished rules l = true) := by
  unfold collect
  split
  · rw [mem_pushNew]
    constructor
    · rintro (h | rfl)
      · exact .inl h
      · exact .inr ⟨rfl, ‹_›⟩
    · rintro (h | ⟨h, -⟩)
      · exact .inl h
      · exact .inr h
  · constructor
    · exact .inl
    · rintro (h | ⟨rfl, h⟩)
      · exact h
      · exact absurd h ‹_›

theorem mem_foldl_collect {order : List GrammarStack} :
    l ∈ order.foldl (collect rules) newStacks ↔ l ∈ newStacks ∨ (l ∈ order ∧ isFinished rules l = true) := by
  induction order generalizing newStacks with
  | nil => simp
  | cons stack order ih =>
    rw [List.foldl_cons, ih, mem_collect, List.mem_cons, or_assoc, ← or_and_right]

/-- `llama_grammar_advance_stack` adds the finished stacks that are reached. -/
theorem mem_advanceStack (h : advanceStack fuel rules s newStacks = .ok out) :
    l ∈ out ↔ l ∈ newStacks ∨ Advances rules s l := by
  obtain ⟨order, hmem, rfl, -⟩ := Worklist.explore_ok h
  rw [mem_foldl_collect, hmem]
  rfl

theorem StackDone.advances (hwf : WellFormed rules) (hrefs : RefsOk rules) (hs : StackOk rules s)
    (h : Advances rules s l) : StackDone rules l :=
  ⟨hs.reaches hwf hrefs h.1, h.2⟩

/-- On top of a finished stack is a char range or a token. -/
theorem StackDone.top {below : GrammarStack} (hs : StackDone rules (pos :: below)) :
    ((rules.at pos).type = .char ∨ (rules.at pos).type = .charNot ∨ (rules.at pos).type = .charAny) ∨
    ((rules.at pos).type = .token ∨ (rules.at pos).type = .tokenNot) := by
  have hterm : (rules.at pos).type.isTerminal = true := hs.finished
  cases htype : (rules.at pos).type <;> rw [htype] at hterm <;>
    first | exact absurd hterm (by decide) | simp

theorem not_matches_of_token (h : (rules.at pos).type = .token ∨ (rules.at pos).type = .tokenNot) :
    ¬(charSetAt (rules.from pos)).Matches chr := by
  have hhead : (headElement (rules.from pos)).type = (rules.at pos).type := rfl
  unfold charSetAt
  rw [hhead]
  rcases h with h | h <;> rw [h] <;> exact id

theorem StackDone.behind (hs : StackDone rules s) {below : GrammarStack} (heq : s = pos :: below) :
    StackOk rules (pushUnlessEnd rules (behindTop rules pos) below) := by
  subst heq
  exact hs.ok.behindTop hs.finished

theorem StackDone.passes (hwf : WellFormed rules) (hrefs : RefsOk rules) (hs : StackDone rules s)
    (h : Passes rules s chr l) : StackDone rules l := by
  obtain ⟨pos, below, heq, -, hadv⟩ := h
  exact StackDone.advances hwf hrefs (hs.behind heq) hadv

theorem StackDone.consumes (hwf : WellFormed rules) (hrefs : RefsOk rules) {w : List Nat}
    (hs : StackDone rules s) (h : Consumes rules s w l) : StackDone rules l := by
  induction h with
  | nil => exact hs
  | cons hpass _ ih => exact ih (hs.passes hwf hrefs hpass)

theorem acceptChr_eq (hs : StackDone rules s) (chr : Nat) :
    (∃ pos below, s = pos :: below ∧ (charSetAt (rules.from pos)).Matches chr ∧
      ∀ fuel newStacks, acceptChr fuel rules s chr newStacks =
        advanceStack fuel rules (pushUnlessEnd rules (behindTop rules pos) below) newStacks) ∨
    ((∀ l, ¬Passes rules s chr l) ∧ ∀ fuel newStacks, acceptChr fuel rules s chr newStacks = .ok newStacks) := by
  cases s with
  | nil => exact .inr ⟨fun l ⟨pos, below, h, _⟩ => absurd h (by simp), fun _ _ => rfl⟩
  | cons pos below =>
    simp only [acceptChr]
    have hno : ¬(charSetAt (rules.from pos)).Matches chr → ∀ l, ¬Passes rules (pos :: below) chr l := by
      rintro hm l ⟨pos', below', heq, hm', -⟩
      obtain ⟨rfl, rfl⟩ := List.cons.inj heq
      exact hm hm'
    rcases hs.top with htype | htype
    · have hnot : ¬(((rules.at pos).type = .token || (rules.at pos).type = .tokenNot) = true) := by
        rcases htype with h | h | h <;> rw [h] <;> decide
      simp only [if_neg hnot, matchChar_eq (hs.ok pos List.mem_cons_self).1 chr htype]
      by_cases hm : (charSetAt (rules.from pos)).Matches chr
      · simp only [decide_eq_true hm]
        exact .inl ⟨pos, below, rfl, hm, fun _ _ => rfl⟩
      · simp only [decide_eq_false hm]
        exact .inr ⟨hno hm, fun _ _ => trivial⟩
    · have htoken : ((rules.at pos).type = .token || (rules.at pos).type = .tokenNot) = true := by
        rcases htype with h | h <;> rw [h] <;> decide
      simp only [if_pos htoken]
      exact .inr ⟨hno (not_matches_of_token htype), fun _ _ => trivial⟩

theorem mem_acceptChr (hs : StackDone rules s)
    (h : acceptChr fuel rules s chr newStacks = .ok out) :
    l ∈ out ↔ l ∈ newStacks ∨ Passes rules s chr l := by
  rcases acceptChr_eq hs chr with ⟨pos, below, rfl, hm, heq⟩ | ⟨hno, heq⟩
  · rw [heq] at h
    rw [mem_advanceStack h]
    refine or_congr_right ⟨fun hadv => ⟨pos, below, rfl, hm, hadv⟩, ?_⟩
    rintro ⟨pos', below', hcons, -, hadv⟩
    obtain ⟨rfl, rfl⟩ := List.cons.inj hcons
    exact hadv
  · rw [heq] at h
    obtain rfl := Except.ok.inj h
    simp [hno]

theorem mem_foldlM_acceptChr {stackList : GrammarStacks} (hs : ∀ s ∈ stackList, StackDone rules s)
    (h : stackList.foldlM (fun newStacks stack => acceptChr fuel rules stack chr newStacks)
      newStacks = .ok out) :
    l ∈ out ↔ l ∈ newStacks ∨ ∃ s ∈ stackList, Passes rules s chr l := by
  induction stackList generalizing newStacks with
  | nil =>
    obtain rfl := Except.ok.inj h
    simp
  | cons s stackList ih =>
    rw [List.foldlM_cons] at h
    cases hone : acceptChr fuel rules s chr newStacks with
    | error e =>
      rw [hone] at h
      exact absurd h (by simp [bind, Except.bind])
    | ok mid =>
      rw [hone] at h
      rw [ih (fun s hs' => hs s (List.mem_cons_of_mem _ hs')) h,
        mem_acceptChr (hs s List.mem_cons_self) hone, or_assoc]
      simp

theorem mem_acceptStacks {stackList : GrammarStacks} (hs : ∀ s ∈ stackList, StackDone rules s)
    (h : acceptStacks fuel rules stackList chr = .ok out) :
    l ∈ out ↔ ∃ s ∈ stackList, Passes rules s chr l := by
  rw [mem_foldlM_acceptChr hs h]
  simp

/-- The stacks of a grammar are finished stacks of well-formed rules. -/
structure GrammarOk (grammar : LlamaGrammar) : Prop where
  wf : WellFormed grammar.rules
  refs : RefsOk grammar.rules
  done : ∀ s ∈ grammar.allStacks, StackDone grammar.rules s

variable {grammar grammar' : LlamaGrammar}

theorem accept_eq_ok (h : grammar.accept fuel chr = .ok grammar') :
    ∃ out, acceptStacks fuel grammar.rules grammar.allStacks chr = .ok out ∧
      grammar' = { grammar with allStacks := out } := by
  unfold LlamaGrammar.accept at h
  cases hrun : acceptStacks fuel grammar.rules grammar.allStacks chr with
  | error e =>
    rw [hrun] at h
    exact absurd h (by simp [bind, Except.bind])
  | ok out =>
    rw [hrun] at h
    exact ⟨out, rfl, (Except.ok.inj h).symm⟩

theorem GrammarOk.accept (hg : GrammarOk grammar) (h : grammar.accept fuel chr = .ok grammar') :
    grammar'.rules = grammar.rules ∧ GrammarOk grammar' ∧
      ∀ l, l ∈ grammar'.allStacks ↔ ∃ s ∈ grammar.allStacks, Passes grammar.rules s chr l := by
  obtain ⟨out, hrun, rfl⟩ := accept_eq_ok h
  have hmem := fun l => mem_acceptStacks (l := l) hg.done hrun
  refine ⟨rfl, ⟨hg.wf, hg.refs, fun l hl => ?_⟩, hmem⟩
  obtain ⟨s, hs, hpass⟩ := (hmem l).mp hl
  exact (hg.done s hs).passes hg.wf hg.refs hpass

/-- Accepting a string follows what its code points make of the stacks. -/
theorem mem_acceptAll {w : List Nat} (hg : GrammarOk grammar)
    (h : grammar.acceptAll fuel w = .ok grammar') :
    grammar'.rules = grammar.rules ∧ GrammarOk grammar' ∧
      ∀ l, l ∈ grammar'.allStacks ↔ ∃ s ∈ grammar.allStacks, Consumes grammar.rules s w l := by
  induction w generalizing grammar with
  | nil =>
    obtain rfl := Except.ok.inj h
    refine ⟨rfl, hg, fun l => ⟨fun hl => ⟨l, hl, .nil⟩, ?_⟩⟩
    rintro ⟨s, hs, hcons⟩
    cases hcons with
    | nil => exact hs
  | cons chr w ih =>
    rw [LlamaGrammar.acceptAll, List.foldlM_cons] at h
    cases hone : grammar.accept fuel chr with
    | error e =>
      rw [hone] at h
      exact absurd h (by simp [bind, Except.bind])
    | ok mid =>
      rw [hone] at h
      obtain ⟨hrules, hmid, hmem⟩ := hg.accept hone
      obtain ⟨hrules', hg', hmem'⟩ := ih hmid h
      refine ⟨hrules'.trans hrules, hg', fun l => ?_⟩
      rw [hmem' l, hrules]
      constructor
      · rintro ⟨s', hs', hcons⟩
        obtain ⟨s, hs, hpass⟩ := (hmem s').mp hs'
        exact ⟨s, hs, .cons hpass hcons⟩
      · rintro ⟨s, hs, hcons⟩
        cases hcons with
        | cons hpass hrest => exact ⟨_, (hmem _).mpr ⟨s, hs, hpass⟩, hrest⟩

/-! ## Enough fuel -/

theorem settles_advanceStack (hwf : WellFormed rules) (hrefs : RefsOk rules)
    (hrec : ¬LeftRecursive rules) (hs : StackOk rules s) (newStacks : GrammarStacks) :
    ∃ out, Settles (fun fuel => advanceStack fuel rules s newStacks) out :=
  advanceStack_terminates hwf hrefs hs
    (finite_reaches_stack hs (opensFinitely_of_not_leftRecursive hrec s)) newStacks

theorem settles_acceptChr (hwf : WellFormed rules) (hrefs : RefsOk rules)
    (hrec : ¬LeftRecursive rules) (hs : StackDone rules s) (chr : Nat) (newStacks : GrammarStacks) :
    ∃ out, Settles (fun fuel => acceptChr fuel rules s chr newStacks) out := by
  rcases acceptChr_eq hs chr with ⟨pos, below, heq, -, hrun⟩ | ⟨-, hrun⟩
  · simp only [hrun]
    exact settles_advanceStack hwf hrefs hrec (hs.behind heq) newStacks
  · simp only [hrun]
    exact ⟨newStacks, settles_pure newStacks⟩

theorem settles_accept (hg : GrammarOk grammar) (hrec : ¬LeftRecursive grammar.rules) (chr : Nat) :
    ∃ grammar', Settles (fun fuel => grammar.accept fuel chr) grammar' := by
  have hloop : ∃ out, Settles (fun fuel => acceptStacks fuel grammar.rules grammar.allStacks chr)
      out ∧ True :=
    settles_foldlM (fun s hs newStacks _ => by
      obtain ⟨out, hout⟩ := settles_acceptChr hg.wf hg.refs hrec (hg.done s hs) chr newStacks
      exact ⟨out, hout, trivial⟩) trivial
  obtain ⟨out, hout, -⟩ := hloop
  exact ⟨_, hout.bind (settles_pure _)⟩

/-- Without left recursion accepting a string comes to an end. -/
theorem settles_acceptAll (hg : GrammarOk grammar) (hrec : ¬LeftRecursive grammar.rules)
    (w : List Nat) : ∃ grammar', Settles (fun fuel => grammar.acceptAll fuel w) grammar' := by
  have hloop : ∃ grammar', Settles (fun fuel => grammar.acceptAll fuel w) grammar' ∧
      (GrammarOk grammar' ∧ grammar'.rules = grammar.rules) := by
    refine settles_foldlM (fun chr _ g hg' => ?_) ⟨hg, rfl⟩
    obtain ⟨g', hg''⟩ := settles_accept hg'.1 (hg'.2 ▸ hrec) chr
    obtain ⟨n, hrun⟩ := hg''
    obtain ⟨hrules, hok, -⟩ := hg'.1.accept (hrun n (Nat.le_refl n))
    exact ⟨g', ⟨n, hrun⟩, hok, hrules.trans hg'.2⟩
  obtain ⟨g', hg', -⟩ := hloop
  exact ⟨g', hg'⟩

end Accept

end LlamaCpp
