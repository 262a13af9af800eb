import LlamaCpp.Grammar.Masking
import Mathlib.Algebra.Order.BigOperators.Group.List

/-!
# The mask agrees with acceptance

`llama_grammar_accept_token` keeps a stack when the id matches the token element on top of
it, or when the stack consumes every code point of the piece (`Takes`).  The mask lets a
token through when it gets as far as `survives_iff` says.  The two differ where the mask
stops early (`StopsEarly`): at a token element that is reached strictly inside the token,
or at a code point 0.
-/

namespace LlamaCpp

open Worklist (Halt Step Settles settles_pure settles_foldlM)

/-! ## Decoding -/

/-- The code points of a piece end with a 0, and a piece leaves a code point or an
incomplete sequence. -/
theorem decodeSequences_terminated (bytes : List UInt8) (value : Nat) (nRemain : Int)
    (codePoints : List Nat) :
    ∃ cps, (decodeSequences bytes value nRemain codePoints).1 = cps ++ [0] ∧
      ((bytes.headD 0 ≠ 0 ∨ nRemain ≠ 0 ∨ codePoints ≠ []) →
        cps ≠ [] ∨ (decodeSequences bytes value nRemain codePoints).2.nRemain ≠ 0) := by
  fun_induction decodeSequences bytes value nRemain codePoints with
  | case1 value nRemain codePoints =>
    refine ⟨codePoints, rfl, ?_⟩
    rintro (h | h | h)
    · exact absurd rfl h
    · exact .inr h
    · exact .inl h
  | case2 bytes value nRemain codePoints =>
    refine ⟨codePoints, rfl, ?_⟩
    rintro (h | h | h)
    · exact absurd rfl h
    · exact .inr h
    · exact .inl h
  | case3 byte bytes value nRemain codePoints hbyte hpos value' ih =>
    obtain ⟨cps, heq, hleft⟩ := ih
    refine ⟨cps, heq, fun _ => hleft ?_⟩
    by_cases hlast : nRemain - 1 = 0
    · simp [hlast]
    · exact .inr (.inl hlast)
  | case4 byte bytes value nRemain codePoints hbyte hpos nRemain' hneg =>
    refine ⟨[], rfl, fun _ => .inr ?_⟩
    show nRemain' ≠ 0
    omega
  | case5 byte bytes value nRemain codePoints hbyte hpos nRemain' hneg value' ih =>
    obtain ⟨cps, heq, hleft⟩ := ih
    refine ⟨cps, heq, fun _ => hleft ?_⟩
    by_cases hlast : nRemain' = 0
    · simp [hlast]
    · exact .inr (.inl hlast)

theorem continueSequence_terminated (start : PartialUtf8) (bytes : List UInt8) (value : Nat)
    (nRemain : Int) :
    ∃ cps, (continueSequence start bytes value nRemain).1 = cps ++ [0] ∧
      ((0 < start.nRemain ∨ nRemain ≤ 0 ∧ bytes.headD 0 ≠ 0) →
        cps ≠ [] ∨ (continueSequence start bytes value nRemain).2.nRemain ≠ 0) := by
  have hstart : ∀ {n : Int} {value : Nat}, 0 < start.nRemain →
      n ≠ 0 ∨ (if 0 < start.nRemain && n = 0 then [value] else []) ≠ [] := by
    intro n value hpos
    by_cases hn : n = 0
    · simp [hpos, hn]
    · exact .inl hn
  fun_induction continueSequence start bytes value nRemain with
  | case1 value nRemain =>
    obtain ⟨cps, heq, hleft⟩ := decodeSequences_terminated [] value nRemain
      (if 0 < start.nRemain && nRemain = 0 then [value] else [])
    refine ⟨cps, heq, ?_⟩
    rintro (hpos | ⟨-, hhead⟩)
    · exact hleft (.inr (hstart hpos))
    · exact absurd rfl hhead
  | case2 byte bytes value nRemain hgo hcont => exact ⟨[], rfl, fun _ => .inr (by decide)⟩
  | case3 byte bytes value nRemain hgo hcont ih =>
    obtain ⟨cps, heq, hleft⟩ := ih
    refine ⟨cps, heq, ?_⟩
    rintro (hpos | ⟨hle, -⟩)
    · exact hleft (.inl hpos)
    · simp only [Bool.and_eq_true, decide_eq_true_eq] at hgo
      omega
  | case4 byte bytes value nRemain hgo =>
    obtain ⟨cps, heq, hleft⟩ := decodeSequences_terminated (byte :: bytes) value nRemain
      (if 0 < start.nRemain && nRemain = 0 then [value] else [])
    refine ⟨cps, heq, ?_⟩
    rintro (hpos | ⟨-, hhead⟩)
    · exact hleft (.inr (hstart hpos))
    · exact hleft (.inl hhead)

/-- A piece that is not empty leaves a code point or an incomplete sequence. -/
theorem decodeUtf8_terminated (piece : List UInt8) (start : PartialUtf8) :
    ∃ cps, (decodeUtf8 piece start).1 = cps ++ [0] ∧
      (pieceIsEmpty piece = false → cps ≠ [] ∨ (decodeUtf8 piece start).2.nRemain ≠ 0) := by
  obtain ⟨cps, heq, hleft⟩ := continueSequence_terminated start piece start.value start.nRemain
  refine ⟨cps, heq, fun hpiece => hleft ?_⟩
  by_cases hpos : 0 < start.nRemain
  · exact .inl hpos
  · exact .inr ⟨by omega, of_decide_eq_false hpiece⟩

/-! ## Accepting a token -/

/-- What `llama_grammar_accept_token` makes of one stack. -/
def Takes (rules : GrammarRules) (id : Nat) (codePoints : List Nat) (s l : GrammarStack) : Prop :=
  ∃ pos below, s = pos :: below ∧
    (((rules.at pos).type.isToken = true ∧ matchToken (rules.at pos) id = true ∧
        Advances rules (pushUnlessEnd rules (pos.add 1) below) l) ∨
      ((rules.at pos).type.isChar = true ∧ Consumes rules s codePoints l))

section Token

variable {rules : GrammarRules} {s l : GrammarStack} {cur newStacks out : GrammarStacks}
  {fuel id : Nat} {codePoints : List Nat}

theorem behindTop_token {pos : GrammarPos} (h : (rules.at pos).type.isToken = true) :
    behindTop rules pos = pos.add 1 := by
  unfold behindTop
  rcases isToken_iff.mp h with h | h <;> simp [h]

theorem consumes_cons_iff {chr : Nat} {w : List Nat} :
    Consumes rules s (chr :: w) l ↔ ∃ s', Passes rules s chr s' ∧ Consumes rules s' w l := by
  constructor
  · intro h
    cases h with
    | cons hpass hrest => exact ⟨_, hpass, hrest⟩
  · rintro ⟨s', hpass, hrest⟩
    exact .cons hpass hrest

/-- The code points of a token, from several stacks. -/
theorem mem_acceptCodePoints (hwf : WellFormed rules) (hrefs : RefsOk rules)
    (hs : ∀ s ∈ cur, StackDone rules s)
    (h : acceptCodePoints fuel rules codePoints cur = .ok out) :
    l ∈ out ↔ ∃ s ∈ cur, Consumes rules s codePoints l := by
  induction codePoints generalizing cur with
  | nil =>
    obtain rfl := Except.ok.inj h
    refine ⟨fun hl => ⟨l, hl, .nil⟩, ?_⟩
    rintro ⟨s, hs, hcons⟩
    cases hcons with
    | nil => exact hs
  | cons chr codePoints ih =>
    rw [acceptCodePoints] at h
    cases hone : acceptStacks fuel rules cur chr with
    | error e =>
      rw [hone] at h
      exact absurd h (by simp)
    | ok next =>
      rw [hone] at h
      have hmem := fun l => mem_acceptStacks (l := l) hs hone
      have hrest : l ∈ out ↔ ∃ s' ∈ next, Consumes rules s' codePoints l := by
        by_cases hnil : next = []
        · simp only [hnil, if_true] at h
          obtain rfl := Except.ok.inj h
          simp [hnil]
        · simp only [hnil, if_false] at h
          refine ih (fun l hl => ?_) h
          obtain ⟨s, hs', hpass⟩ := (hmem l).mp hl
          exact (hs s hs').passes hwf hrefs hpass
      simp only [hrest, hmem, consumes_cons_iff]
      constructor
      · rintro ⟨s', ⟨s, hs, hpass⟩, hcons⟩
        exact ⟨s, hs, s', hpass, hcons⟩
      · rintro ⟨s, hs, s', hpass, hcons⟩
        exact ⟨s', ⟨s, hs, hpass⟩, hcons⟩

theorem mem_foldl_pushNew {more : GrammarStacks} : l ∈ more.foldl pushNew newStacks ↔ l ∈ newStacks ∨ l ∈ more := by
  induction more generalizing newStacks with
  | nil => simp
  | cons stack more ih =>
    rw [List.foldl_cons, ih, mem_pushNew, List.mem_cons, or_assoc]

theorem mem_acceptTokenStack (hwf : WellFormed rules) (hrefs : RefsOk rules)
    (hs : StackDone rules s)
    (h : acceptTokenStack fuel rules id codePoints newStacks s = .ok out) :
    l ∈ out ↔ l ∈ newStacks ∨ Takes rules id codePoints s l := by
  cases s with
  | nil =>
    obtain rfl := Except.ok.inj h
    simp [Takes]
  | cons pos below =>
    have htakes : Takes rules id codePoints (pos :: below) l ↔
        ((rules.at pos).type.isToken = true ∧ matchToken (rules.at pos) id = true ∧
          Advances rules (pushUnlessEnd rules (pos.add 1) below) l) ∨
        ((rules.at pos).type.isChar = true ∧ Consumes rules (pos :: below) codePoints l) := by
      constructor
      · rintro ⟨pos', below', heq, h⟩
        obtain ⟨rfl, rfl⟩ := List.cons.inj heq
        exact h
      · exact fun h => ⟨pos, below, rfl, h⟩
    rw [acceptTokenStack] at h
    rcases hs.top_isChar with ⟨htype, hnot⟩ | ⟨htype, htoken⟩
    · rw [hnot, if_neg Bool.false_ne_true] at h
      have hno : (rules.at pos).type.isToken = false := by
        rcases isChar_iff.mp htype with h | h | h <;> rw [h] <;> decide
      cases hrun : acceptCodePoints fuel rules codePoints [pos :: below] with
      | error e =>
        rw [hrun] at h
        exact absurd h (by simp [bind, Except.bind])
      | ok current =>
        rw [hrun] at h
        obtain rfl := Except.ok.inj h
        have hmem := mem_acceptCodePoints (l := l) hwf hrefs (by simpa using hs) hrun
        rw [mem_foldl_pushNew, hmem, htakes]
        simp [htype, hno]
    · rw [htoken, if_pos rfl] at h
      rw [htakes, htype, isChar_eq_false_of_isToken htype]
      split at h
      · rename_i hmatch
        rw [mem_advanceStack h]
        simp [hmatch]
      · rename_i hmatch
        obtain rfl := Except.ok.inj h
        simp [hmatch]

theorem mem_foldlM_acceptTokenStack (hwf : WellFormed rules) (hrefs : RefsOk rules)
    (hs : ∀ s ∈ cur, StackDone rules s)
    (h : cur.foldlM (acceptTokenStack fuel rules id codePoints) newStacks = .ok out) :
    l ∈ out ↔ l ∈ newStacks ∨ ∃ s ∈ cur, Takes rules id codePoints s l := by
  induction cur generalizing newStacks with
  | nil =>
    obtain rfl := Except.ok.inj h
    simp
  | cons s cur ih =>
    rw [List.foldlM_cons] at h
    cases hone : acceptTokenStack fuel rules id codePoints newStacks s with
    | error e =>
      rw [hone] at h
      exact absurd h (by simp [bind, Except.bind])
    | ok mid =>
      rw [hone] at h
      rw [ih (fun s hs' => hs s (List.mem_cons_of_mem _ hs')) h,
        mem_acceptTokenStack hwf hrefs (hs s List.mem_cons_self) hone, or_assoc]
      simp

theorem StackDone.takes (hwf : WellFormed rules) (hrefs : RefsOk rules) (hs : StackDone rules s)
    (h : Takes rules id codePoints s l) : StackDone rules l := by
  obtain ⟨pos, below, rfl, ⟨htype, -, hadv⟩ | ⟨-, hcons⟩⟩ := h
  · rw [← behindTop_token htype] at hadv
    exact StackDone.advances hwf hrefs (hs.behind rfl) hadv
  · exact hs.consumes hwf hrefs hcons

theorem settles_acceptStacks (hwf : WellFormed rules) (hrefs : RefsOk rules)
    (hrec : ¬LeftRecursive rules) (hs : ∀ s ∈ cur, StackDone rules s) (chr : Nat) :
    ∃ next, Settles (fun n => acceptStacks n rules cur chr) next := by
  have hloop : ∃ next, Settles (fun n => acceptStacks n rules cur chr) next ∧ True :=
    settles_foldlM (fun s hs' newStacks _ => by
      obtain ⟨out, hout⟩ := settles_acceptChr hwf hrefs hrec (hs s hs') chr newStacks
      exact ⟨out, hout, trivial⟩) trivial
  obtain ⟨next, hnext, -⟩ := hloop
  exact ⟨next, hnext⟩

theorem settles_acceptCodePoints (hwf : WellFormed rules) (hrefs : RefsOk rules)
    (hrec : ¬LeftRecursive rules) (hs : ∀ s ∈ cur, StackDone rules s) :
    ∃ out, Settles (fun n => acceptCodePoints n rules codePoints cur) out := by
  induction codePoints generalizing cur with
  | nil => exact ⟨cur, settles_pure cur⟩
  | cons chr codePoints ih =>
    obtain ⟨next, hone⟩ := settles_acceptStacks hwf hrefs hrec hs chr
    have hdone : ∀ l ∈ next, StackDone rules l := by
      intro l hl
      obtain ⟨n, hrun⟩ := hone
      obtain ⟨s, hs', hpass⟩ := (mem_acceptStacks hs (hrun n (Nat.le_refl n))).mp hl
      exact (hs s hs').passes hwf hrefs hpass
    obtain ⟨out, hout⟩ := ih hdone
    have hrest : ∃ out, Settles (fun n => if next = [] then .ok next
        else acceptCodePoints n rules codePoints next) out := by
      by_cases hnil : next = []
      · simp only [if_pos hnil]
        exact ⟨next, settles_pure next⟩
      · simp only [if_neg hnil]
        exact ⟨out, hout⟩
    obtain ⟨out', hout'⟩ := hrest
    obtain ⟨n, hrun⟩ := hone.bind (g := fun n next => if next = [] then .ok next
      else acceptCodePoints n rules codePoints next) hout'
    refine ⟨out', n, fun m hm => Eq.trans ?_ (hrun m hm)⟩
    simp only [acceptCodePoints, bind, Except.bind]
    cases acceptStacks m rules cur chr <;> rfl

theorem settles_acceptTokenStack (hwf : WellFormed rules) (hrefs : RefsOk rules)
    (hrec : ¬LeftRecursive rules) (hs : StackDone rules s) (id : Nat) (codePoints : List Nat)
    (newStacks : GrammarStacks) :
    ∃ out, Settles (fun n => acceptTokenStack n rules id codePoints newStacks s) out := by
  cases s with
  | nil => exact ⟨_, settles_pure _⟩
  | cons pos below =>
    simp only [acceptTokenStack]
    rcases hs.top_isChar with ⟨-, hnot⟩ | ⟨htype, htoken⟩
    · simp only [hnot, Bool.false_eq_true, if_false]
      obtain ⟨current, hcur⟩ := @settles_acceptCodePoints rules [pos :: below] codePoints
        hwf hrefs hrec (by simpa using hs)
      exact ⟨_, hcur.bind (settles_pure _)⟩
    · simp only [htoken, if_true]
      by_cases hmatch : matchToken (rules.at pos) id = true
      · simp only [if_pos hmatch]
        have hbehind := hs.behind rfl
        rw [behindTop_token htype] at hbehind
        exact settles_advanceStack hwf hrefs hrec hbehind newStacks
      · simp only [if_neg hmatch]
        exact ⟨_, settles_pure _⟩

end Token

section Grammar

variable {grammar : LlamaGrammar} {fuel id : Nat} {piece : List UInt8}

/-- The code points of a piece, without the terminating 0. -/
def LlamaGrammar.pieceCodePoints (grammar : LlamaGrammar) (piece : List UInt8) : List Nat :=
  (decodeUtf8 piece grammar.partialUtf8).1.dropLast

/-- The stacks left by `llama_grammar_accept_token` are those that take the token. -/
theorem mem_acceptToken (hg : GrammarOk grammar) {result : Option LlamaGrammar}
    (h : grammar.acceptToken fuel id piece = .ok result) :
    (result ≠ none ↔ ∃ s ∈ grammar.allStacks, ∃ l, Takes grammar.rules id (grammar.pieceCodePoints piece) s l) ∧
    ∀ grammar', result = some grammar' → grammar'.rules = grammar.rules ∧ GrammarOk grammar' ∧
      grammar'.allStacks ≠ [] := by
  unfold LlamaGrammar.acceptToken at h
  cases hrun : grammar.allStacks.foldlM (acceptTokenStack fuel grammar.rules id
      (decodeUtf8 piece grammar.partialUtf8).1.dropLast) [] with
  | error e =>
    simp only [hrun] at h
    exact absurd h (by simp [bind, Except.bind])
  | ok stacksNew =>
    simp only [hrun] at h
    obtain rfl := Except.ok.inj h
    have hmem : ∀ l, l ∈ stacksNew ↔ ∃ s ∈ grammar.allStacks,
        Takes grammar.rules id (grammar.pieceCodePoints piece) s l := fun l => by
      rw [mem_foldlM_acceptTokenStack hg.wf hg.refs hg.done hrun]
      simp [LlamaGrammar.pieceCodePoints]
    by_cases hnil : stacksNew = []
    · subst hnil
      refine ⟨⟨fun h => absurd rfl h, ?_⟩, fun _ h => absurd h (by simp)⟩
      rintro ⟨s, hs, l, htakes⟩
      exact absurd ((hmem l).mpr ⟨s, hs, htakes⟩) List.not_mem_nil
    · rw [if_neg hnil]
      refine ⟨⟨fun _ => ?_, fun _ => by simp⟩, ?_⟩
      · obtain ⟨l, hl⟩ := List.exists_mem_of_ne_nil _ hnil
        obtain ⟨s, hs, htakes⟩ := (hmem l).mp hl
        exact ⟨s, hs, l, htakes⟩
      · rintro grammar' heq
        obtain rfl := Option.some.inj heq
        refine ⟨rfl, ⟨hg.wf, hg.refs, fun l hl => ?_⟩, hnil⟩
        obtain ⟨s, hs, htakes⟩ := (hmem l).mp hl
        exact (hg.done s hs).takes hg.wf hg.refs htakes

theorem settles_acceptToken (hg : GrammarOk grammar) (hrec : ¬LeftRecursive grammar.rules)
    (id : Nat) (piece : List UInt8) :
    ∃ result, Settles (fun n => grammar.acceptToken n id piece) result := by
  have hloop : ∃ out, Settles (fun n => grammar.allStacks.foldlM (acceptTokenStack n grammar.rules
      id (decodeUtf8 piece grammar.partialUtf8).1.dropLast) []) out ∧ True :=
    settles_foldlM (fun s hs newStacks _ => by
      obtain ⟨out, hout⟩ := settles_acceptTokenStack hg.wf hg.refs hrec (hg.done s hs) id
        (decodeUtf8 piece grammar.partialUtf8).1.dropLast newStacks
      exact ⟨out, hout, trivial⟩) trivial
  obtain ⟨out, hout, -⟩ := hloop
  exact ⟨_, hout.bind (settles_pure _)⟩

/-- The stacks left by `llama_grammar_accept_str` are in order. -/
theorem GrammarOk.acceptStr (hg : GrammarOk grammar) {grammar' : LlamaGrammar}
    (h : grammar.acceptStr fuel piece = .ok (some grammar')) :
    grammar'.rules = grammar.rules ∧ GrammarOk grammar' ∧ grammar'.allStacks ≠ [] := by
  have hloop : ∀ (w : List Nat) (cur out : GrammarStacks),
      (∀ s ∈ cur, StackDone grammar.rules s) →
      w.foldlM (fun cur chr => acceptStacks fuel grammar.rules cur chr) cur = .ok out →
        ∀ s ∈ out, StackDone grammar.rules s := by
    intro w
    induction w with
    | nil =>
      intro cur out hcur h
      obtain rfl := Except.ok.inj h
      exact hcur
    | cons chr w ih =>
      intro cur out hcur h
      rw [List.foldlM_cons] at h
      cases hone : acceptStacks fuel grammar.rules cur chr with
      | error e =>
        rw [hone] at h
        exact absurd h (by simp [bind, Except.bind])
      | ok mid =>
        rw [hone] at h
        refine ih mid out (fun l hl => ?_) h
        obtain ⟨s, hs, hpass⟩ := (mem_acceptStacks hcur hone).mp hl
        exact (hcur s hs).passes hg.wf hg.refs hpass
  unfold LlamaGrammar.acceptStr at h
  cases hrun : (decodeUtf8 piece grammar.partialUtf8).1.dropLast.foldlM
      (fun currentStacks chr => acceptStacks fuel grammar.rules currentStacks chr)
      grammar.allStacks with
  | error e =>
    simp only [hrun] at h
    exact absurd h (by simp [bind, Except.bind])
  | ok stacksNew =>
    simp only [hrun] at h
    by_cases hnil : stacksNew = []
    · simp [hnil, bind, Except.bind, pure, Except.pure] at h
    · simp only [bind, Except.bind, if_neg hnil] at h
      obtain rfl := Option.some.inj (Except.ok.inj h)
      exact ⟨rfl, ⟨hg.wf, hg.refs, hloop _ _ _ hg.done hrun⟩, hnil⟩

end Grammar

/-! ## Reachable grammars -/

/-- The states of a grammar: made by `llama_grammar_init_impl`, and left by accepting
tokens and strings. -/
inductive ReachableGrammar (rules : GrammarRules) (start : Nat) : LlamaGrammar → Prop
| init {fuel : Nat} {grammar : LlamaGrammar} :
  initImpl fuel rules start = .ok (some grammar) ->
  ReachableGrammar rules start grammar
| acceptToken {fuel token : Nat} {piece : List UInt8} {grammar grammar' : LlamaGrammar} :
  ReachableGrammar rules start grammar ->
  grammar.acceptToken fuel token piece = .ok (some grammar') ->
  ReachableGrammar rules start grammar'
| acceptStr {fuel : Nat} {piece : List UInt8} {grammar grammar' : LlamaGrammar} :
  ReachableGrammar rules start grammar ->
  grammar.acceptStr fuel piece = .ok (some grammar') ->
  ReachableGrammar rules start grammar'

section Reachable

variable {rules : GrammarRules} {start : Nat} {grammar : LlamaGrammar}

theorem ReachableGrammar.grammarOk (hwf : WellFormed (rules.map copyRule))
    (hstart : start < rules.length) (h : ReachableGrammar rules start grammar) :
    GrammarOk grammar := by
  induction h with
  | init h => exact grammarOk_of_initImpl hwf hstart h
  | acceptToken _ h ih => exact ((mem_acceptToken ih h).2 _ rfl).2.1
  | acceptStr _ h ih => exact (ih.acceptStr h).2.1

/-- A reachable grammar of rules without left recursion has a stack. -/
theorem ReachableGrammar.allStacks_ne_nil (hwf : WellFormed (rules.map copyRule))
    (hstart : start < rules.length) (h : ReachableGrammar rules start grammar)
    (hrec : ¬LeftRecursive grammar.rules) : grammar.allStacks ≠ [] := by
  induction h with
  | @init fuel grammar h =>
    obtain ⟨hrules, hrefs, -, hmem⟩ := initImpl_eq_some h
    have hwf : WellFormed grammar.rules := hrules ▸ hwf
    have hlt : start < grammar.rules.length := by rwa [hrules, List.length_map]
    obtain ⟨q, hq⟩ := List.exists_mem_of_ne_nil _ (alternates_ne_nil grammar.rules start)
    obtain ⟨l, hl⟩ := exists_advances hwf hrefs hrec (stackOk_alternate hwf hlt hq)
    exact List.ne_nil_of_mem ((hmem l).mpr ⟨q, hq, hl⟩)
  | acceptToken hreach h => exact ((mem_acceptToken (hreach.grammarOk hwf hstart) h).2 _ rfl).2.2
  | acceptStr hreach h => exact ((hreach.grammarOk hwf hstart).acceptStr h).2.2

/-! ## The mask and acceptance -/

/-- Some stack takes the whole token: its id, or all its code points. -/
def TakesWhole (grammar : LlamaGrammar) (id : Nat) (codePoints : List Nat) : Prop :=
  ∃ s ∈ grammar.allStacks, TokenOnTop grammar.rules id s ∨
    ((∃ pos below, s = pos :: below ∧ (grammar.rules.at pos).type.isChar = true) ∧
      ∃ l, Consumes grammar.rules s codePoints l)

/-- The mask stops early at some stack: at a matching token element that is reached strictly
inside the token, or at a code point 0. -/
def StopsEarly (grammar : LlamaGrammar) (id : Nat) (codePoints : List Nat)
    (partialUtf8 : PartialUtf8) : Prop :=
  ∃ s ∈ grammar.allStacks, ∃ t₁ chr t₂ l, codePoints = t₁ ++ chr :: t₂ ∧ 0 ∉ t₁ ∧
    Consumes grammar.rules s t₁ l ∧
    ((chr ≠ 0 ∧ t₁ ≠ [] ∧ TokenOnTop grammar.rules id l) ∨
      (chr = 0 ∧ EndsAt grammar.rules partialUtf8 l))

variable {id : Nat} {codePoints : List Nat} {partialUtf8 : PartialUtf8}

theorem exists_takes_iff (hg : GrammarOk grammar) (hrec : ¬LeftRecursive grammar.rules) :
    (∃ s ∈ grammar.allStacks, ∃ l, Takes grammar.rules id codePoints s l) ↔ TakesWhole grammar id codePoints := by
  constructor
  · rintro ⟨s, hs, l, pos, below, rfl, ⟨htype, hmatch, -⟩ | ⟨htype, hcons⟩⟩
    · exact ⟨_, hs, .inl ⟨pos, below, rfl, htype, hmatch⟩⟩
    · exact ⟨_, hs, .inr ⟨⟨pos, below, rfl, htype⟩, l, hcons⟩⟩
  · rintro ⟨s, hs, ⟨pos, below, rfl, htype, hmatch⟩ | ⟨⟨pos, below, rfl, htype⟩, l, hcons⟩⟩
    · have hbehind := (hg.done _ hs).behind rfl
      rw [behindTop_token htype] at hbehind
      obtain ⟨l, hl⟩ := exists_advances hg.wf hg.refs hrec hbehind
      exact ⟨_, hs, l, pos, below, rfl, .inl ⟨htype, hmatch, hl⟩⟩
    · exact ⟨_, hs, l, pos, below, rfl, .inr ⟨htype, hcons⟩⟩

theorem consumes_append {s l : GrammarStack} {w w' : List Nat} (h : Consumes rules s (w ++ w') l) :
    ∃ s', Consumes rules s w s' ∧ Consumes rules s' w' l := by
  induction w generalizing s with
  | nil => exact ⟨s, .nil, h⟩
  | cons chr w ih =>
    obtain ⟨s', hpass, hrest⟩ := consumes_cons_iff.mp h
    obtain ⟨l', hw, hw'⟩ := ih hrest
    exact ⟨l', .cons hpass hw, hw'⟩

/-- A token that gets through the mask is taken whole unless the mask stopped early. -/
theorem takesWhole_of_survives (hg : GrammarOk grammar)
    (hleft : codePoints ≠ [] ∨ partialUtf8.nRemain ≠ 0) {s : GrammarStack}
    (hs : s ∈ grammar.allStacks)
    (h : Survives grammar.rules id partialUtf8 s (codePoints ++ [0])) :
    TakesWhole grammar id codePoints ∨ StopsEarly grammar id codePoints partialUtf8 := by
  obtain ⟨t₁, t₂, l, heq, hzero, hcons, hstop⟩ := survives_iff.mp h
  have hsplit : ∃ r, codePoints = t₁ ++ r ∧ t₂ = r ++ [0] := by
    rcases List.append_eq_append_iff.mp heq with ⟨r, rfl, hr⟩ | h
    · cases r with
      | nil => exact ⟨[], by simp, by simpa using hr.symm⟩
      | cons c r =>
        obtain ⟨rfl, -⟩ := List.cons.inj hr
        exact absurd (List.mem_append_right _ List.mem_cons_self) hzero
    · exact h
  obtain ⟨r, rfl, rfl⟩ := hsplit
  cases r with
  | nil =>
    -- everything was read, and only the terminating 0 is left
    rw [List.append_nil] at hleft ⊢
    obtain ⟨-, hends⟩ := hstop.resolve_right fun h => h.1 rfl
    refine .inl ⟨s, hs, .inr ⟨?_, l, hcons⟩⟩
    cases hcons with
    | nil =>
      obtain ⟨pos, below, rfl, htype, -⟩ := hends.resolve_left (hleft.resolve_left (by simp))
      exact ⟨pos, below, rfl, htype⟩
    | cons hpass _ =>
      obtain ⟨pos, below, rfl, hm, -⟩ := hpass
      refine ⟨pos, below, rfl, ?_⟩
      rcases (hg.done _ hs).top_isChar with ⟨htype, -⟩ | ⟨htype, -⟩
      · exact htype
      · exact absurd hm (not_matches_of_token (isToken_iff.mp htype))
  | cons chr r =>
    rcases hstop with ⟨hchr, hends⟩ | ⟨hchr, htop⟩
    · exact .inr ⟨s, hs, t₁, chr, r, l, rfl, hzero, hcons, .inr ⟨hchr, hends⟩⟩
    · cases t₁ with
      | nil =>
        cases hcons with
        | nil => exact .inl ⟨s, hs, .inl htop⟩
      | cons c t₁ =>
        exact .inr ⟨s, hs, c :: t₁, chr, r, l, rfl, hzero, hcons, .inl ⟨hchr, by simp, htop⟩⟩

/-- Where the mask stops early it lets the token through. -/
theorem survives_of_stopsEarly (h : StopsEarly grammar id codePoints partialUtf8) :
    ∃ s ∈ grammar.allStacks, Survives grammar.rules id partialUtf8 s (codePoints ++ [0]) := by
  obtain ⟨s, hs, t₁, chr, t₂, l, rfl, hzero, hcons, hstop⟩ := h
  refine ⟨s, hs, survives_iff.mpr ⟨t₁, chr :: t₂ ++ [0], l, by simp, hzero, hcons, ?_⟩⟩
  rcases hstop with ⟨hchr, -, htop⟩ | ⟨hchr, hends⟩
  · exact .inr ⟨hchr, htop⟩
  · exact .inl ⟨hchr, hends⟩

/-- The mask lets a complete token through that is taken whole. -/
theorem survives_of_takesWhole (hleft : codePoints ≠ [] ∨ partialUtf8.nRemain ≠ 0)
    (hcomplete : partialUtf8.nRemain = 0) (h : TakesWhole grammar id codePoints) :
    ∃ s ∈ grammar.allStacks, Survives grammar.rules id partialUtf8 s (codePoints ++ [0]) := by
  obtain ⟨s, hs, htop | ⟨-, l, hcons⟩⟩ := h
  · refine ⟨s, hs, ?_⟩
    by_cases hchr : (codePoints ++ [0]).headD 0 = 0
    · exact .ended hchr (.inl hcomplete)
    · exact .token hchr htop
  · refine ⟨s, hs, ?_⟩
    by_cases hzero : 0 ∈ codePoints
    · -- the mask does not look behind the first code point 0
      obtain ⟨t₁, t₂, rfl, hfirst⟩ := List.eq_append_cons_of_mem hzero
      obtain ⟨l', hcons', -⟩ := consumes_append hcons
      exact survives_iff.mpr ⟨t₁, 0 :: t₂ ++ [0], l', by simp, hfirst, hcons', .inl ⟨rfl, .inl hcomplete⟩⟩
    · exact survives_iff.mpr ⟨codePoints, [0], l, rfl, hzero, hcons, .inl ⟨rfl, .inl hcomplete⟩⟩

/-! ## The masked tokens -/

variable {vocab : GrammarVocab} {ids : List Nat} {i fuel : Nat} {masked : List Nat}

theorem mem_applyCandidates {tok : GrammarCandidate} :
    tok ∈ applyCandidates vocab grammar ids ↔ ∃ id i, ids[i]? = some id ∧ vocab.isEog id = false ∧
      pieceIsEmpty (vocab.tokenToPiece id) = false ∧ tok = candidateOf vocab grammar i id := by
  simp only [applyCandidates, List.mem_map, List.mem_filter, Bool.and_eq_true, Bool.not_eq_true',
    Prod.exists, List.mem_zipIdx_iff_getElem?]
  constructor
  · rintro ⟨id, i, ⟨hid, heog, hpiece⟩, rfl⟩
    exact ⟨id, i, hid, heog, hpiece, rfl⟩
  · rintro ⟨id, i, hid, heog, hpiece, rfl⟩
    exact ⟨id, i, ⟨hid, heog, hpiece⟩, rfl⟩

/-- A candidate is masked when it survives at no stack. -/
theorem mem_applyImpl (hg : GrammarOk grammar) (hid : ids[i]? = some id)
    (heog : vocab.isEog id = false) (hpiece : pieceIsEmpty (vocab.tokenToPiece id) = false)
    (h : grammar.applyImpl fuel vocab ids = .ok masked) :
    i ∈ masked ↔ ∀ s ∈ grammar.allStacks, ¬(candidateOf vocab grammar i id).Survives grammar.rules s := by
  unfold LlamaGrammar.applyImpl at h
  cases hrun : rejectCandidates grammar.rules fuel grammar.allStacks
      (applyCandidates vocab grammar ids) with
  | error e =>
    rw [hrun] at h
    exact absurd h (by simp [bind, Except.bind])
  | ok rejects =>
    rw [hrun] at h
    obtain rfl := Except.ok.inj h
    have hmem := mem_rejectCandidates hg.wf hg.refs _ _ _ hg.done hrun
    rw [List.mem_append]
    constructor
    · rintro (hunfit | hrej)
      · obtain ⟨⟨id', i'⟩, hp, rfl⟩ := List.mem_map.mp hunfit
        obtain ⟨hp, hcond⟩ := List.mem_filter.mp hp
        obtain rfl : id = id' :=
          Option.some.inj (hid.symm.trans (List.mem_zipIdx_iff_getElem?.mp hp))
        simp [heog, hpiece] at hcond
      · obtain ⟨tok, htok, hidx⟩ := List.mem_map.mp hrej
        obtain ⟨hcand, hno⟩ := (hmem tok).mp htok
        obtain ⟨id', i', hid', -, -, rfl⟩ := mem_applyCandidates.mp hcand
        obtain rfl : i' = i := hidx
        obtain rfl : id = id' := Option.some.inj (hid.symm.trans hid')
        exact hno
    · intro hno
      exact .inr (List.mem_map.mpr ⟨_, (hmem _).mpr
        ⟨mem_applyCandidates.mpr ⟨id, i, hid, heog, hpiece, rfl⟩, hno⟩, rfl⟩)

theorem settles_applyImpl (hg : GrammarOk grammar) (hrec : ¬LeftRecursive grammar.rules)
    (hne : grammar.allStacks ≠ []) (vocab : GrammarVocab) (ids : List Nat) :
    ∃ masked, Settles (fun n => grammar.applyImpl n vocab ids) masked := by
  have hbound : ∀ tok ∈ applyCandidates vocab grammar ids, tok.remaining <
      ((applyCandidates vocab grammar ids).map GrammarCandidate.remaining).sum + 1 := fun tok htok =>
    Nat.lt_succ_of_le (List.le_sum_of_mem (List.mem_map_of_mem htok))
  obtain ⟨rejects, hrej⟩ := settles_rejectCandidates hg.wf hg.refs hrec _ _ _ hne hg.done hbound
  exact ⟨_, hrej.bind (settles_pure _)⟩

/-- A token that gets through the mask is accepted exactly when the mask does not stop early
or some stack takes the token whole all the same; a complete token that is accepted always
gets through. -/
theorem mask_agrees_iff (hwf : WellFormed (rules.map copyRule)) (hstart : start < rules.length)
    (hreach : ReachableGrammar rules start grammar) (hrec : ¬LeftRecursive grammar.rules)
    (hid : ids[i]? = some id) (heog : vocab.isEog id = false)
    (hpiece : pieceIsEmpty (vocab.tokenToPiece id) = false) :
    ∃ masked result, Settles (fun n => grammar.applyImpl n vocab ids) masked ∧
      Settles (fun n => grammar.acceptToken n id (vocab.tokenToPiece id)) result ∧
      (((i ∉ masked → result ≠ none) ∧
          ((decodeUtf8 (vocab.tokenToPiece id) grammar.partialUtf8).2.nRemain = 0 →
            result ≠ none → i ∉ masked)) ↔
        (StopsEarly grammar id (grammar.pieceCodePoints (vocab.tokenToPiece id))
            (decodeUtf8 (vocab.tokenToPiece id) grammar.partialUtf8).2 →
          TakesWhole grammar id (grammar.pieceCodePoints (vocab.tokenToPiece id)))) := by
  have hg := hreach.grammarOk hwf hstart
  obtain ⟨masked, hmask⟩ := settles_applyImpl hg hrec
    (hreach.allStacks_ne_nil hwf hstart hrec) vocab ids
  obtain ⟨result, hres⟩ := settles_acceptToken hg hrec id (vocab.tokenToPiece id)
  refine ⟨masked, result, hmask, hres, ?_⟩
  obtain ⟨n, hmask⟩ := hmask
  obtain ⟨m, hres⟩ := hres
  obtain ⟨cps, hcps, hleft⟩ := decodeUtf8_terminated (vocab.tokenToPiece id) grammar.partialUtf8
  have hleft := hleft hpiece
  have hpoints : grammar.pieceCodePoints (vocab.tokenToPiece id) = cps := by
    rw [LlamaGrammar.pieceCodePoints, hcps, List.dropLast_concat]
  have haccepted : result ≠ none ↔ TakesWhole grammar id cps := by
    rw [(mem_acceptToken hg (hres m (Nat.le_refl m))).1, hpoints, exists_takes_iff hg hrec]
  have hthrough : i ∉ masked ↔ ∃ s ∈ grammar.allStacks, Survives grammar.rules id
      (decodeUtf8 (vocab.tokenToPiece id) grammar.partialUtf8).2 s (cps ++ [0]) := by
    rw [mem_applyImpl hg hid heog hpiece (hmask n (Nat.le_refl n))]
    simp [GrammarCandidate.Survives, candidateOf, hcps]
  rw [hpoints, haccepted, hthrough]
  constructor
  · rintro ⟨hpass, -⟩ hstops
    exact hpass (survives_of_stopsEarly hstops)
  · intro hcond
    refine ⟨?_, fun hcomplete => survives_of_takesWhole hleft hcomplete⟩
    rintro ⟨s, hs, hsurvives⟩
    rcases takesWhole_of_survives hg hleft hs hsurvives with hwhole | hstops
    · exact hwhole
    · exact hcond hstops

end Reachable

/-- `root ::= "a" !<[7]>` -/
def tokenAfterCharRules : GrammarRules := [[⟨.char, 97⟩, ⟨.tokenNot, 7⟩]]

/-- A vocabulary in which token 5 is `ab`. -/
def abVocab : GrammarVocab := ⟨fun id => if id = 5 then [97, 98] else [], fun _ => false⟩

theorem not_leftRecursive_tokenAfterChar : ¬LeftRecursive (tokenAfterCharRules.map copyRule) := by
  rintro ⟨r, hr⟩
  obtain ⟨v, hcorner, -⟩ := Relation.TransGen.head'_iff.mp hr
  have hlt : r < 1 := hcorner.lt
  obtain rfl : r = 0 := by omega
  obtain ⟨x, ⟨q, hq, hleft⟩, htype, -⟩ := hcorner
  obtain rfl : q = ⟨0, 0⟩ := by simpa [alternates, laterAlternates, tokenAfterCharRules, copyRule,
    GrammarRules.rule] using hq
  cases hleft with
  | refl => exact absurd htype (by decide)
  | skip h _ _ => exact absurd h (by decide)

theorem mask_agrees_iff_tokenAfterChar :
    ∃ masked result, Settles (fun n => (LlamaGrammar.mk (tokenAfterCharRules.map copyRule)
        [[⟨0, 0⟩]] {}).applyImpl n abVocab [5]) masked ∧
      Settles (fun n => (LlamaGrammar.mk (tokenAfterCharRules.map copyRule)
        [[⟨0, 0⟩]] {}).acceptToken n 5 [97, 98]) result ∧
      (((0 ∉ masked → result ≠ none) ∧
          ((decodeUtf8 [97, 98] {}).2.nRemain = 0 → result ≠ none → 0 ∉ masked)) ↔
        (StopsEarly (LlamaGrammar.mk (tokenAfterCharRules.map copyRule) [[⟨0, 0⟩]] {}) 5 [97, 98]
            (decodeUtf8 [97, 98] {}).2 →
          TakesWhole (LlamaGrammar.mk (tokenAfterCharRules.map copyRule) [[⟨0, 0⟩]] {}) 5
            [97, 98])) :=
  @mask_agrees_iff tokenAfterCharRules 0 _ 5 abVocab [5] 0 (by decide) (by decide)
    (.init (show initImpl 3 tokenAfterCharRules 0 = _ from rfl)) not_leftRecursive_tokenAfterChar rfl rfl rfl

/-- The token `ab` is not masked in the initial state, but accepting it throws. -/
theorem mask_passes_unaccepted :
    ∃ grammar, initImpl 3 tokenAfterCharRules 0 = .ok (some grammar) ∧
      WellFormed grammar.rules ∧ ¬LeftRecursive grammar.rules ∧
      abVocab.isEog 5 = false ∧ pieceIsEmpty (abVocab.tokenToPiece 5) = false ∧
      grammar.applyImpl 5 abVocab [5] = .ok [] ∧
      grammar.acceptToken 5 5 (abVocab.tokenToPiece 5) = .ok none :=
  ⟨_, rfl, by decide, not_leftRecursive_tokenAfterChar, rfl, rfl, rfl, rfl⟩

end LlamaCpp
