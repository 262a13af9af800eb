import LlamaCpp.Common.AhoCorasick
import Mathlib

/-!
# The reasoning budget

The sampler of reasoning-budget.cpp.  It counts the tokens of a reasoning block down, and at
zero it forces a sequence of tokens that ends the block.  The end waits until a token leaves
the text complete; `common_utf8_is_complete` is asked about the piece of that token alone.
`warnTokens` are forced once in between, when little of the budget is left.

A token is its number.  What `advance` returns has an option around it only because the
automaton's loops take fuel; `Tracks.advance` has it succeed.
-/

namespace LlamaCpp

/-! ## Matching token sequences -/

structure TokenMatcher where
  seqs : List (List Nat)
  ac : AhoCorasick
  state : Nat := 0

namespace TokenMatcher

/-- `collect`: without empty sequences and duplicates. -/
def collect (seqs : List (List Nat)) : List (List Nat) :=
  seqs.foldl (fun res seq => if seq ≠ [] ∧ seq ∉ res then res ++ [seq] else res) []

def create (seqs : List (List Nat)) : Option TokenMatcher :=
  (AhoCorasick.create (CommonTrie.insertAll (collect seqs)).1).map fun ac =>
    { seqs := collect seqs, ac := ac }

/-- `advance`: the index of the longest sequence that ends at this token, or -1. -/
def advance (m : TokenMatcher) (token : Nat) : Option (Int × TokenMatcher) :=
  (m.ac.next m.state token).map fun state =>
    let p := m.ac.matchPattern state
    (p, { m with state := if 0 ≤ p then 0 else state })

def reset (m : TokenMatcher) : TokenMatcher := { m with state := 0 }

/-- The matcher has read `input` since it was at the root. -/
structure Tracks (m : TokenMatcher) (input : List Nat) : Prop where
  exact : ∃ word patterns, m.ac.Exact word patterns ∧ ∀ p, p ∈ patterns ↔ p ∈ m.seqs
  fed : m.ac.feed 0 input = some m.state

theorem create_tracks (seqs : List (List Nat)) : ∃ m, create seqs = some m ∧ m.seqs = collect seqs ∧ m.Tracks [] := by
  obtain ⟨word, patterns, hinserted, hmem, -⟩ := CommonTrie.holds_insertAll (collect seqs)
  obtain ⟨ac, hcreate, hexact⟩ := AhoCorasick.create_exact hinserted
  refine ⟨{ seqs := collect seqs, ac := ac }, ?_, rfl, ⟨word, patterns, hexact, hmem⟩, rfl⟩
  unfold create
  rw [hcreate]
  rfl

variable {m : TokenMatcher} {input : List Nat}

theorem Tracks.reset (h : m.Tracks input) : m.reset.Tracks [] := ⟨h.exact, rfl⟩

/-- The next token; a match brings the matcher back to the root. -/
theorem Tracks.advance (h : m.Tracks input) (token : Nat) :
    ∃ p m', m.advance token = some (p, m') ∧ m'.seqs = m.seqs ∧
      (0 ≤ p → m'.Tracks []) ∧ (p < 0 → m'.Tracks (input ++ [token])) ∧
      ((∀ seq ∈ m.seqs, ¬seq <:+ input ++ [token]) → p < 0) := by
  obtain ⟨word, patterns, hexact, hmem⟩ := h.exact
  obtain ⟨state, hfeed, -, -⟩ := hexact.feed (input ++ [token])
  have hnext : m.ac.next m.state token = some state := by
    rw [AhoCorasick.feed_concat, h.fed] at hfeed
    exact hfeed
  refine ⟨m.ac.matchPattern state, { m with state := if 0 ≤ m.ac.matchPattern state then 0 else state },
    ?_, rfl, fun hp => ⟨h.exact, ?_⟩, fun hp => ⟨h.exact, ?_⟩, fun hno => ?_⟩
  · unfold TokenMatcher.advance
    rw [hnext]
    rfl
  · exact (congrArg some (if_pos hp)).symm
  · rw [hfeed]
    exact (congrArg some (if_neg (Int.not_le.mpr hp))).symm
  · rw [hexact.matchPattern_eq hfeed fun w hw => hno w ((hmem w).mp hw)]
    decide

/-- What the matcher has read after a token is at most what it had read, and the token. -/
theorem Tracks.after (h : m.Tracks input) {token : Nat} {p : Int} {m' : TokenMatcher}
    (hadvance : m.advance token = some (p, m')) :
    m'.seqs = m.seqs ∧ ∃ input', m'.Tracks input' ∧ input' <:+ input ++ [token] := by
  obtain ⟨p', m'', hadvance', hseqs, hroot, hgrown, -⟩ := h.advance token
  obtain ⟨rfl, rfl⟩ := Prod.mk.inj (Option.some.inj (hadvance.symm.trans hadvance'))
  refine ⟨hseqs, ?_⟩
  rcases Int.lt_or_le p 0 with hp | hp
  · exact ⟨_, hgrown hp, List.suffix_refl _⟩
  · exact ⟨[], hroot hp, List.nil_suffix⟩

theorem Tracks.no_match (h : m.Tracks input) {token : Nat} {p : Int} {m' : TokenMatcher}
    (hadvance : m.advance token = some (p, m')) (hno : ∀ seq ∈ m.seqs, ¬seq <:+ input ++ [token]) :
    p < 0 := by
  obtain ⟨p', m'', hadvance', -, -, -, hlt⟩ := h.advance token
  obtain ⟨rfl, rfl⟩ := Prod.mk.inj (Option.some.inj (hadvance.symm.trans hadvance'))
  exact hlt hno

end TokenMatcher

/-! ## Complete text -/

/-- The bytes that a character takes, by its first byte. -/
def expectedBytes (c : UInt8) : Nat :=
  if 0xF0 ≤ c then 4 else if 0xE0 ≤ c then 3 else if 0xC0 ≤ c then 2 else 1

/-- The loop of `common_utf8_is_complete`; the bytes are read from the end, `c` is the `i`-th. -/
def endsComplete : Nat → List UInt8 → Bool
  | _, [] => false
  | i, c :: cs => if c &&& 0xC0 ≠ 0x80 then decide (expectedBytes c ≤ i) else endsComplete (i + 1) cs

def utf8IsComplete (s : List UInt8) : Bool :=
  if s = [] then true else endsComplete 1 (s.reverse.take 4)

/-! ## The sampler -/

inductive ReasoningBudgetState where
  | idle
  | counting
  | forcing
  | waitingUtf8
  | warning
  | done
deriving DecidableEq

/-- `common_reasoning_budget_ctx`; the vocabulary gives the piece of a token, without the special
ones, and may be null. -/
structure ReasoningBudget where
  vocab : Option (Nat → List UInt8)
  startMatcher : TokenMatcher
  endMatcher : TokenMatcher
  forcedTokens : List Nat
  budget : Int
  remaining : Int
  state : ReasoningBudgetState
  forcePos : Nat := 0
  endMatch : Int := -1
  warnTokens : List Nat
  warnAt : Int
  warnPos : Nat := 0
  warnFired : Bool := false

namespace ReasoningBudget

def init (vocab : Option (Nat → List UInt8)) (startSeqs endSeqs : List (List Nat))
    (forcedTokens : List Nat) (budget : Int) (initialState : ReasoningBudgetState)
    (warnTokens : List Nat) (warnAt : Int) : Option ReasoningBudget := do
  -- promote COUNTING with budget <= 0 to FORCING
  let initialState := if initialState = .counting ∧ budget ≤ 0 then .forcing else initialState
  let startMatcher ← TokenMatcher.create startSeqs
  let endMatcher ← TokenMatcher.create endSeqs
  return {
    vocab := vocab
    startMatcher := startMatcher
    endMatcher := endMatcher
    forcedTokens := forcedTokens
    budget := budget
    remaining := budget
    state := initialState
    warnTokens := warnTokens
    warnAt := warnAt }

variable (ctx : ReasoningBudget)

def warnArmed : Bool := !ctx.warnFired && decide (0 ≤ ctx.warnAt) && decide (ctx.warnTokens ≠ [])

/-- `utf8_complete` -/
def pieceComplete (token : Nat) : Bool :=
  match ctx.vocab with
  | none => true
  | some piece => utf8IsComplete (piece token)

/-- A start sequence was completed. -/
def activate : ReasoningBudget :=
  let ctx := { ctx with state := .counting, remaining := ctx.budget, warnPos := 0, warnFired := false }
  if ctx.remaining ≤ 0 then { ctx with state := .forcing, forcePos := 0 } else ctx

/-- The change to `FORCING`. -/
def startForcing : ReasoningBudget :=
  { ctx with state := .forcing, forcePos := 0, endMatcher := ctx.endMatcher.reset }

/-- A token in `COUNTING` or `WAITING_UTF8` that ends no sequence. -/
def spend (utf8Complete : Bool) : ReasoningBudget :=
  if ctx.state = .waitingUtf8 then
    if utf8Complete then ctx.startForcing else ctx
  else
    let ctx := { ctx with remaining := ctx.remaining - 1 }
    if ctx.remaining ≤ 0 then
      if utf8Complete then ctx.startForcing
      else { ctx with state := .waitingUtf8, endMatcher := ctx.endMatcher.reset }
    else if ctx.warnArmed ∧ ctx.remaining ≤ ctx.warnAt ∧ utf8Complete then
      -- not complete? the condition still holds next token
      { ctx with state := .warning, warnPos := 0, warnFired := true, endMatcher := ctx.endMatcher.reset }
    else ctx

def accept (token : Nat) : Option ReasoningBudget :=
  match ctx.state with
  | .idle => do
      let (m, matcher) ← ctx.startMatcher.advance token
      let ctx := { ctx with startMatcher := matcher }
      return if 0 ≤ m then ctx.activate else ctx
  | .counting | .waitingUtf8 => do
      let (m, matcher) ← ctx.endMatcher.advance token
      let ctx := { ctx with endMatcher := matcher }
      return if 0 ≤ m then { ctx with state := .done, endMatch := m }
        else ctx.spend (ctx.pieceComplete token)
  | .warning =>
    let ctx := { ctx with warnPos := ctx.warnPos + 1 }
    some (if ctx.warnTokens.length ≤ ctx.warnPos then
        { ctx with state := .counting, endMatcher := ctx.endMatcher.reset }
      else ctx)
  | .forcing => do
      let (m, matcher) ← ctx.endMatcher.advance token
      let ctx := { ctx with endMatcher := matcher, forcePos := ctx.forcePos + 1 }
      return if ctx.forcedTokens.length ≤ ctx.forcePos then { ctx with state := .done, endMatch := m }
        else ctx
  | .done => do
      let (m, matcher) ← ctx.startMatcher.advance token
      let ctx := { ctx with startMatcher := matcher }
      return if 0 ≤ m then
          { ctx with endMatcher := ctx.endMatcher.reset, endMatch := -1 }.activate
        else ctx

/-- The token that `common_reasoning_budget_apply` leaves. -/
def forcedToken : Option Nat :=
  match ctx.state with
  | .forcing => ctx.forcedTokens[ctx.forcePos]?
  | .warning => ctx.warnTokens[ctx.warnPos]?
  | _ => none

end ReasoningBudget

end LlamaCpp
