import LlamaCpp.Grammar.Language
import LlamaCpp.Grammar.Tokens

/-!
# The mask and acceptance

`Survives` is what the recursion of `llama_grammar_reject_candidates` asks of a stack and
the rest of a token's code points, and `WholeToken` is what `llama_grammar_accept_token`
asks.  They read a token in two ways that differ: the mask stops at a token element in the
middle of a token and only compares the id, and it takes a code point 0 for the end of the
token.  `mask_agrees_iff` says that these are the only differences.
-/

namespace LlamaCpp

open List

open Worklist (Halt Step Settles settles_pure settles_foldlM)

/-! ## What the mask asks -/

def GreType.isChar : GreType → Bool
  | .char | .charNot | .charAny => true
  | _ => false

def GreType.isToken : GreType → Bool
  | .token | .tokenNot => true
  | _ => false

/-- A token may end at the stack: it is complete, or its incomplete sequence can satisfy the
char range on top. -/
def EndsAt (rules : GrammarRules) (partialUtf8 : PartialUtf8) (s : GrammarStack) : Prop :=
  partialUtf8.nRemain = 0 ∨ ∃ pos below, s = pos :: below ∧ (rules.at pos).type.isChar = true ∧
    partialCharMatches rules pos partialUtf8 = true

def TokenOnTop (rules : GrammarRules) (id : Nat) (s : GrammarStack) : Prop :=
  ∃ pos below, s = pos :: below ∧ (rules.at pos).type.isToken = true ∧
    matchToken (rules.at pos) id = true

/-- The stack does not reject the rest of the code points. -/
inductive Survives (rules : GrammarRules) (id : Nat) (partialUtf8 : PartialUtf8) :
    GrammarStack → List Nat → Prop
| ended {s : GrammarStack} {codePoints : List Nat} :
  codePoints.headD 0 = 0 ->
  EndsAt rules partialUtf8 s ->
  Survives rules id partialUtf8 s codePoints
| token {s : GrammarStack} {codePoints : List Nat} :
  codePoints.headD 0 ≠ 0 ->
  TokenOnTop rules id s ->
  Survives rules id partialUtf8 s codePoints
| char {s s' : GrammarStack} {chr : Nat} {codePoints : List Nat} :
  chr ≠ 0 ->
  Passes rules s chr s' ->
  Survives rules id partialUtf8 s' codePoints ->
  Survives rules id partialUtf8 s (chr :: codePoints)

def GrammarCandidate.Survives (rules : GrammarRules) (tok : GrammarCandidate) (s : GrammarStack) :
    Prop :=
  LlamaCpp.Survives rules tok.id tok.partialUtf8 s (tok.codePoints.drop tok.offset)

section Reject

variable {rules : GrammarRules} {s l : GrammarStack} {fuel : Nat} {tok : GrammarCandidate}
  {below : GrammarStack} {pos : GrammarPos} {t : GreType} {chr : Nat}

theorem StackDone.top_isChar (hs : StackDone rules (pos :: below)) : ((rules.at pos).type.isChar = true ∧
      ((rules.at pos).type = .token || (rules.at pos).type = .tokenNot) = false) ∨
    ((rules.at pos).type.isToken = true ∧
      ((rules.at pos).type = .token || (rules.at pos).type = .tokenNot) = true) := by
  rcases hs.top with (h | h | h) | (h | h) <;> rw [h]
  · exact .inl ⟨rfl, by decide⟩
  · exact .inl ⟨rfl, by decide⟩
  · exact .inl ⟨rfl, by decide⟩
  · exact .inr ⟨rfl, by decide⟩
  · exact .inr ⟨rfl, by decide⟩

theorem isChar_iff : t.isChar = true ↔ t = .char ∨ t = .charNot ∨ t = .charAny := by
  cases t <;> decide

theorem isToken_iff : t.isToken = true ↔ t = .token ∨ t = .tokenNot := by
  cases t <;> decide

theorem isChar_eq_false_of_isToken (h : t.isToken = true) : t.isChar = false := by
  cases t <;> revert h <;> decide

theorem passes_cons_iff : Passes rules (pos :: below) chr l ↔ (charSetAt (rules.from pos)).Matches chr ∧
      Advances rules (pushUnlessEnd rules (behindTop rules pos) below) l := by
  constructor
  · rintro ⟨pos', below', heq, h⟩
    obtain ⟨rfl, rfl⟩ := List.cons.inj heq
    exact h
  · exact fun h => ⟨pos, below, rfl, h⟩

theorem not_passes_nil : ¬Passes rules [] chr l :=
  fun ⟨_, _, h, _⟩ => absurd h (by simp)

theorem not_passes_token (h : (rules.at pos).type.isToken = true) : ¬Passes rules (pos :: below) chr l := by
  intro hpass
  exact not_matches_of_token (isToken_iff.mp h) (passes_cons_iff.mp hpass).1

theorem codePoint_eq (tok : GrammarCandidate) : tok.codePoint = (tok.codePoints.drop tok.offset).headD 0 := by
  rw [GrammarCandidate.codePoint, getD_eq_getElem?_getD, headD_eq_head?_getD, head?_drop]

theorem drop_of_codePoint_ne_zero (h : tok.codePoint ≠ 0) :
    tok.codePoints.drop tok.offset = tok.codePoint :: tok.codePoints.drop (tok.offset + 1) := by
  have hlt : tok.offset < tok.codePoints.length := by
    by_contra hge
    rw [GrammarCandidate.codePoint, getD_eq_getElem?_getD, getElem?_eq_none (Nat.le_of_not_lt hge)] at h
    exact h rfl
  rw [drop_eq_getElem_cons hlt, GrammarCandidate.codePoint, getD_eq_getElem?_getD,
    getElem?_eq_getElem hlt, Option.getD_some]

/-- Candidates at the empty stack. -/
theorem survives_nil_iff : tok.Survives rules [] ↔ tok.codePoint = 0 ∧ tok.partialUtf8.nRemain = 0 := by
  rw [codePoint_eq, GrammarCandidate.Survives]
  generalize tok.codePoints.drop tok.offset = codePoints
  constructor
  · intro h
    cases h with
    | ended hzero hends =>
      refine ⟨hzero, hends.resolve_right ?_⟩
      rintro ⟨pos, below, h, -⟩
      exact absurd h (by simp)
    | token _ h =>
      obtain ⟨pos, below, h, -⟩ := h
      exact absurd h (by simp)
    | char _ h _ => exact absurd h not_passes_nil
  · rintro ⟨hzero, hn⟩
    exact .ended hzero (.inl hn)

theorem survives_token_iff (htype : (rules.at pos).type.isToken = true) :
    tok.Survives rules (pos :: below) ↔
      if tok.codePoint = 0 then tok.partialUtf8.nRemain = 0
      else matchToken (rules.at pos) tok.id = true := by
  rw [codePoint_eq, GrammarCandidate.Survives]
  generalize tok.codePoints.drop tok.offset = codePoints
  constructor
  · intro h
    cases h with
    | ended hzero hends =>
      rw [if_pos hzero]
      refine hends.resolve_right ?_
      rintro ⟨pos', below', heq, hchar, -⟩
      obtain ⟨rfl, rfl⟩ := List.cons.inj heq
      rw [isChar_eq_false_of_isToken htype] at hchar
      exact absurd hchar (by decide)
    | token hne h =>
      obtain ⟨pos', below', heq, -, hmatch⟩ := h
      obtain ⟨rfl, rfl⟩ := List.cons.inj heq
      rwa [if_neg hne]
    | char _ h _ => exact absurd h (not_passes_token htype)
  · split
    · exact fun hn => .ended ‹_› (.inl hn)
    · exact fun hmatch => .token ‹_› ⟨pos, below, rfl, htype, hmatch⟩

theorem survives_char_iff (htype : (rules.at pos).type.isChar = true) :
    tok.Survives rules (pos :: below) ↔
      if tok.codePoint = 0 then
        tok.partialUtf8.nRemain = 0 ∨ partialCharMatches rules pos tok.partialUtf8 = true
      else (charSetAt (rules.from pos)).Matches tok.codePoint ∧
        ∃ s', Advances rules (pushUnlessEnd rules (behindTop rules pos) below) s' ∧
          tok.forward.Survives rules s' := by
  constructor
  · intro h
    by_cases hzero : tok.codePoint = 0
    · rw [if_pos hzero]
      rw [codePoint_eq] at hzero
      rw [GrammarCandidate.Survives] at h
      generalize tok.codePoints.drop tok.offset = codePoints at h hzero
      cases h with
      | ended _ hends =>
        refine hends.imp_right ?_
        rintro ⟨pos', below', heq, -, hmatch⟩
        obtain ⟨rfl, rfl⟩ := List.cons.inj heq
        exact hmatch
      | token hne _ | char hne _ _ => exact absurd hzero hne
    · rw [if_neg hzero]
      rw [GrammarCandidate.Survives, drop_of_codePoint_ne_zero hzero] at h
      cases h with
      | ended h _ => exact absurd h hzero
      | token _ h =>
        obtain ⟨pos', below', heq, htoken, -⟩ := h
        obtain ⟨rfl, rfl⟩ := List.cons.inj heq
        rw [isChar_eq_false_of_isToken htoken] at htype
        exact absurd htype (by decide)
      | char _ hpass hrest =>
        obtain ⟨hm, hadv⟩ := passes_cons_iff.mp hpass
        exact ⟨hm, _, hadv, hrest⟩
  · split
    · rename_i hzero
      intro hends
      exact .ended (codePoint_eq tok ▸ hzero) (hends.imp_right fun h => ⟨pos, below, rfl, htype, h⟩)
    · rename_i hzero
      rintro ⟨hm, s', hadv, hrest⟩
      rw [GrammarCandidate.Survives, drop_of_codePoint_ne_zero hzero]
      exact .char hzero (passes_cons_iff.mpr ⟨hm, hadv⟩) hrest

/-! ## The rejected candidates -/

/-- What the loop does with a candidate at a char range. -/
def rejectedAt (rules : GrammarRules) (pos : GrammarPos) (tok : GrammarCandidate) : Bool :=
  if tok.codePoint = 0 then
    tok.partialUtf8.nRemain ≠ 0 && !partialCharMatches rules pos tok.partialUtf8
  else !decide ((charSetAt (rules.from pos)).Matches tok.codePoint)

/-- The candidates that go on at a char range. -/
def passedAt (rules : GrammarRules) (pos : GrammarPos) (tok : GrammarCandidate) : Bool :=
  tok.codePoint ≠ 0 && decide ((charSetAt (rules.from pos)).Matches tok.codePoint)

theorem sortCandidates_eq (hwf : wellFormedFrom .alt (rules.from pos) = true)
    (htype : (rules.at pos).type.isChar = true) (candidates : List GrammarCandidate)
    (sort : CandidateSort) : sortCandidates rules pos candidates sort =
      .ok ⟨sort.rejects ++ candidates.filter (rejectedAt rules pos),
        sort.nextCandidates ++ (candidates.filter (passedAt rules pos)).map GrammarCandidate.forward⟩ := by
  have hpartial : ∀ p, matchPartialChar rules pos p = .ok (partialCharMatches rules pos p) := by
    intro p
    rw [matchPartialChar, if_pos]
    rcases isChar_iff.mp htype with h | h | h <;> simp [isPositiveChar, h]
  have hchar := fun chr => matchChar_eq hwf chr (isChar_iff.mp htype)
  induction candidates generalizing sort with
  | nil => simp [sortCandidates]
  | cons tok candidates ih =>
    rw [sortCandidates]
    by_cases hzero : tok.codePoint = 0
    · have hpass : passedAt rules pos tok = false := by simp [passedAt, hzero]
      rw [if_pos hzero]
      by_cases hn : tok.partialUtf8.nRemain = 0
      · have hrej : rejectedAt rules pos tok = false := by simp [rejectedAt, hzero, hn]
        simp [hn, ih, hpass, hrej]
      · cases hmatch : partialCharMatches rules pos tok.partialUtf8 with
        | true =>
          have hrej : rejectedAt rules pos tok = false := by simp [rejectedAt, hzero, hmatch]
          simp [hn, hpartial, hmatch, ih, hpass, hrej]
        | false =>
          have hrej : rejectedAt rules pos tok = true := by simp [rejectedAt, hzero, hn, hmatch]
          simp [hn, hpartial, hmatch, ih, hpass, hrej]
    · rw [if_neg hzero, hchar]
      by_cases hm : (charSetAt (rules.from pos)).Matches tok.codePoint
      · have hrej : rejectedAt rules pos tok = false := by simp [rejectedAt, hzero, hm]
        have hpass : passedAt rules pos tok = true := by simp [passedAt, hzero, hm]
        simp [hm, ih, hpass, hrej]
      · have hrej : rejectedAt rules pos tok = true := by simp [rejectedAt, hzero, hm]
        have hpass : passedAt rules pos tok = false := by simp [passedAt, hm]
        simp [hm, ih, hpass, hrej]

/-- One stack rejects the candidates that do not survive at it. -/
theorem mem_rejectCandidatesForStack (hwf : WellFormed rules) (hrefs : RefsOk rules)
    {rejectNext : GrammarStacks → List GrammarCandidate → Except Halt (List GrammarCandidate)}
    (hnext : ∀ stackList candidates rejects, (∀ s ∈ stackList, StackDone rules s) →
      rejectNext stackList candidates = .ok rejects → ∀ tok, tok ∈ rejects ↔
        tok ∈ candidates ∧ ∀ s ∈ stackList, ¬tok.Survives rules s)
    (hs : StackDone rules s) {candidates rejects : List GrammarCandidate}
    (h : rejectCandidatesForStack rejectNext fuel rules s candidates = .ok rejects) :
    tok ∈ rejects ↔ tok ∈ candidates ∧ ¬tok.Survives rules s := by
  cases s with
  | nil =>
    obtain rfl := Except.ok.inj h
    rw [mem_filter, survives_nil_iff]
    simp only [Bool.or_eq_true, decide_eq_true_eq]
    tauto
  | cons pos below =>
    rw [rejectCandidatesForStack] at h
    rcases hs.top_isChar with ⟨htype, hnot⟩ | ⟨htype, htoken⟩
    · rw [hnot, if_neg Bool.false_ne_true, sortCandidates_eq (hs.ok pos mem_cons_self).1 htype,
        matchChar_eq (hs.ok pos mem_cons_self).1 0 (isChar_iff.mp htype)] at h
      simp only [bind, Except.bind, nil_append, pure, Except.pure] at h
      cases hadv : advanceStack fuel rules (pushUnlessEnd rules (behindTop rules pos) below) [] with
      | error e =>
        rw [hadv] at h
        exact absurd h (by simp)
      | ok nextStacks =>
        rw [hadv] at h
        dsimp only at h
        cases hrej : rejectNext nextStacks
            ((candidates.filter (passedAt rules pos)).map GrammarCandidate.forward) with
        | error e =>
          rw [hrej] at h
          exact absurd h (by simp)
        | ok nextRejects =>
          rw [hrej] at h
          obtain rfl := Except.ok.inj h
          have hmem : ∀ l, l ∈ nextStacks ↔
              Advances rules (pushUnlessEnd rules (behindTop rules pos) below) l := fun l => by
            rw [mem_advanceStack hadv]
            simp
          have hdone : ∀ l ∈ nextStacks, StackDone rules l := fun l hl =>
            StackDone.advances hwf hrefs (hs.behind rfl) ((hmem l).mp hl)
          have hback : tok ∈ nextRejects.map GrammarCandidate.backward ↔
              (tok ∈ candidates ∧ passedAt rules pos tok = true) ∧
                ∀ l ∈ nextStacks, ¬tok.forward.Survives rules l := by
            rw [List.mem_map]
            constructor
            · rintro ⟨d, hd, rfl⟩
              obtain ⟨hd, hno⟩ := (hnext _ _ _ hdone hrej d).mp hd
              obtain ⟨c, hc, rfl⟩ := List.mem_map.mp hd
              exact ⟨mem_filter.mp hc, hno⟩
            · rintro ⟨hc, hno⟩
              exact ⟨tok.forward, (hnext _ _ _ hdone hrej _).mpr
                ⟨List.mem_map_of_mem (mem_filter.mpr hc), hno⟩, rfl⟩
          rw [List.mem_append, mem_filter, hback, survives_char_iff htype]
          by_cases hzero : tok.codePoint = 0
          · simp only [rejectedAt, passedAt, hzero]
            simp
          · by_cases hm : (charSetAt (rules.from pos)).Matches tok.codePoint
            · simp [rejectedAt, passedAt, hzero, hm, hmem]
            · simp [rejectedAt, passedAt, hzero, hm]
    · rw [htoken, if_pos rfl] at h
      obtain rfl := Except.ok.inj h
      rw [mem_filter, survives_token_iff htype]
      split <;> simp

/-- The rejected candidates are those that survive at no stack. -/
theorem mem_rejectCandidates (hwf : WellFormed rules) (hrefs : RefsOk rules) {n : Nat} :
    ∀ stackList candidates rejects, (∀ s ∈ stackList, StackDone rules s) →
      rejectCandidates rules n stackList candidates = .ok rejects → ∀ tok, tok ∈ rejects ↔
        tok ∈ candidates ∧ ∀ s ∈ stackList, ¬tok.Survives rules s := by
  induction n with
  | zero => exact fun _ _ _ _ h => absurd h (by simp [rejectCandidates])
  | succ n ih =>
    intro stackList candidates rejects hdone h tok
    rw [rejectCandidates] at h
    by_cases hnil : stackList = []
    · rw [if_pos hnil] at h
      exact absurd h (by simp)
    · rw [if_neg hnil] at h
      by_cases hcand : candidates = []
      · rw [if_pos hcand] at h
        obtain rfl := Except.ok.inj h
        simp [hcand]
      · rw [if_neg hcand] at h
        clear hnil hcand
        induction stackList generalizing candidates with
        | nil =>
          obtain rfl := Except.ok.inj h
          simp
        | cons s stackList ihs =>
          rw [foldlM_cons] at h
          cases hone : rejectCandidatesForStack (rejectCandidates rules n) n rules s candidates with
          | error e =>
            rw [hone] at h
            exact absurd h (by simp [bind, Except.bind])
          | ok mid =>
            rw [hone] at h
            rw [ihs mid (fun s hs => hdone s (mem_cons_of_mem _ hs)) h,
              mem_rejectCandidatesForStack hwf hrefs ih (hdone s mem_cons_self) hone,
              and_assoc]
            simp

/-! ## Enough fuel -/

theorem settles_succ {α : Type} {f : Nat → Except Halt α} {a : α}
    (h : Settles (fun n => f (n + 1)) a) : Settles f a := by
  obtain ⟨n, h⟩ := h
  refine ⟨n + 1, fun m hm => ?_⟩
  obtain ⟨m, rfl⟩ : ∃ k, m = k + 1 := ⟨m - 1, by omega⟩
  exact h m (by omega)

/-- The code points that a candidate has left. -/
def GrammarCandidate.remaining (tok : GrammarCandidate) : Nat := tok.codePoints.length - tok.offset

theorem remaining_forward (h : tok.codePoint ≠ 0) : tok.forward.remaining < tok.remaining := by
  have hdrop := congrArg List.length (drop_of_codePoint_ne_zero h)
  simp only [length_drop, length_cons] at hdrop
  simp only [GrammarCandidate.remaining, GrammarCandidate.forward]
  omega

/-- One stack comes to an end when the candidates that go on do. -/
theorem settles_rejectCandidatesForStack (hwf : WellFormed rules) (hrefs : RefsOk rules)
    (hrec : ¬LeftRecursive rules) (hs : StackDone rules s) {k : Nat}
    {candidates : List GrammarCandidate} (hk : ∀ tok ∈ candidates, tok.remaining < k + 1)
    (hnext : ∀ stackList candidates, stackList ≠ [] → (∀ s ∈ stackList, StackDone rules s) →
      (∀ tok ∈ candidates, tok.remaining < k) →
        ∃ rejects, Settles (fun n => rejectCandidates rules n stackList candidates) rejects) :
    ∃ rejects, Settles (fun n =>
      rejectCandidatesForStack (rejectCandidates rules n) n rules s candidates) rejects := by
  cases s with
  | nil => exact ⟨_, settles_pure _⟩
  | cons pos below =>
    simp only [rejectCandidatesForStack]
    rcases hs.top_isChar with ⟨htype, hnot⟩ | ⟨-, htoken⟩
    · have hpos := (hs.ok pos mem_cons_self).1
      simp only [hnot, Bool.false_eq_true, if_false, sortCandidates_eq hpos htype,
        matchChar_eq hpos 0 (isChar_iff.mp htype), bind, Except.bind, nil_append]
      obtain ⟨next, hadv⟩ := settles_advanceStack hwf hrefs hrec (hs.behind rfl) []
      have hmem : ∀ l, l ∈ next ↔ Advances rules (pushUnlessEnd rules (behindTop rules pos) below) l := by
        obtain ⟨n, hrun⟩ := hadv
        intro l
        rw [mem_advanceStack (hrun n (Nat.le_refl n))]
        simp
      have hne : next ≠ [] := by
        obtain ⟨l, hl⟩ := exists_advances hwf hrefs hrec (hs.behind rfl)
        exact ne_nil_of_mem ((hmem l).mpr hl)
      obtain ⟨rejects, hrej⟩ := hnext next
        ((candidates.filter (passedAt rules pos)).map GrammarCandidate.forward) hne
        (fun l hl => StackDone.advances hwf hrefs (hs.behind rfl) ((hmem l).mp hl)) (by
          intro d hd
          obtain ⟨c, hc, rfl⟩ := List.mem_map.mp hd
          obtain ⟨hc, hpass⟩ := mem_filter.mp hc
          have hzero : c.codePoint ≠ 0 := by
            intro hzero
            simp [passedAt, hzero] at hpass
          have hlt := remaining_forward hzero
          have hle := hk c hc
          omega)
      exact ⟨_, hadv.bind (hrej.bind (settles_pure _))⟩
    · simp only [htoken, if_true]
      exact ⟨_, settles_pure _⟩

/-- Rejecting candidates comes to an end: they have one code point less each time. -/
theorem settles_rejectCandidates (hwf : WellFormed rules) (hrefs : RefsOk rules)
    (hrec : ¬LeftRecursive rules) (k : Nat) : ∀ stackList candidates, stackList ≠ [] →
      (∀ s ∈ stackList, StackDone rules s) →
      (∀ tok ∈ candidates, tok.remaining < k) →
        ∃ rejects, Settles (fun n => rejectCandidates rules n stackList candidates) rejects := by
  induction k with
  | zero =>
    intro stackList candidates hne _ hk
    obtain rfl : candidates = [] :=
      eq_nil_iff_forall_not_mem.mpr fun tok htok => absurd (hk tok htok) (by omega)
    refine ⟨[], settles_succ ?_⟩
    simp only [rejectCandidates, if_neg hne, if_true]
    exact settles_pure _
  | succ k ih =>
    intro stackList candidates hne hdone hk
    have hloop : ∃ rejects, Settles (fun n => stackList.foldlM (fun rejects stack =>
        rejectCandidatesForStack (rejectCandidates rules n) n rules stack rejects) candidates)
        rejects ∧ ∀ tok ∈ rejects, tok.remaining < k + 1 := by
      refine settles_foldlM (fun s hs mid hmid => ?_) hk
      obtain ⟨rejects, hone⟩ := settles_rejectCandidatesForStack hwf hrefs hrec (hdone s hs) hmid ih
      refine ⟨rejects, hone, fun tok htok => hmid tok ?_⟩
      obtain ⟨n, hrun⟩ := hone
      exact ((mem_rejectCandidatesForStack hwf hrefs (mem_rejectCandidates hwf hrefs)
        (hdone s hs) (hrun n (Nat.le_refl n))).mp htok).1
    obtain ⟨rejects, hloop, -⟩ := hloop
    by_cases hcand : candidates = []
    · refine ⟨[], settles_succ ?_⟩
      simp only [rejectCandidates, if_neg hne, if_pos hcand]
      exact settles_pure _
    · refine ⟨rejects, settles_succ ?_⟩
      simp only [rejectCandidates, if_neg hne, if_neg hcand]
      exact hloop

/-! ## How far a token gets -/

/-- The code points that are read before the mask stops. -/
theorem survives_iff {id : Nat} {partialUtf8 : PartialUtf8} {codePoints : List Nat} :
    Survives rules id partialUtf8 s codePoints ↔
      ∃ t₁ t₂ l, codePoints = t₁ ++ t₂ ∧ 0 ∉ t₁ ∧ Consumes rules s t₁ l ∧
        ((t₂.headD 0 = 0 ∧ EndsAt rules partialUtf8 l) ∨ (t₂.headD 0 ≠ 0 ∧ TokenOnTop rules id l)) := by
  constructor
  · intro h
    induction h with
    | ended hzero hends => exact ⟨[], _, _, rfl, not_mem_nil, .nil, .inl ⟨hzero, hends⟩⟩
    | token hne htop => exact ⟨[], _, _, rfl, not_mem_nil, .nil, .inr ⟨hne, htop⟩⟩
    | char hne hpass _ ih =>
      obtain ⟨t₁, t₂, l, rfl, hmem, hcons, hstop⟩ := ih
      refine ⟨_ :: t₁, t₂, l, rfl, ?_, .cons hpass hcons, hstop⟩
      rw [mem_cons]
      rintro (h | h)
      · exact hne h.symm
      · exact hmem h
  · rintro ⟨t₁, t₂, l, rfl, hmem, hcons, hstop⟩
    induction hcons with
    | nil =>
      rcases hstop with ⟨hzero, hends⟩ | ⟨hne, htop⟩
      · exact .ended hzero hends
      · exact .token hne htop
    | cons hpass _ ih =>
      rw [mem_cons, not_or] at hmem
      exact .char (Ne.symm hmem.1) hpass (ih hmem.2 hstop)

end Reject

end LlamaCpp
