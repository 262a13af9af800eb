import LlamaCpp.Common.ReasoningBudget
import LlamaCpp.Lib.Runs

/-!
# Reasoning blocks

Runs of the sampler in which no end sequence completes and the forced tokens are accepted.
`BudgetBlock` is what a block has been given so far, `Enforced` what the budget means for it:
as many free tokens are counted as the budget has, the forcing starts once one of them or a
later one leaves the text complete, the warning is forced at most once, and after the forced
tokens the block is done.

The sampler asks whether the last piece is complete, not the text.  A piece that holds only the
last bytes of a character is not, and an empty piece always is.
-/

namespace LlamaCpp

open List Option

namespace ReasoningBudget

/-! ## What one token does -/

/-- The changes that a token can make if the budget is positive. -/
inductive Moves (ctx : ReasoningBudget) (token : Nat) : ReasoningBudget → Prop where
  | rest {p : Int} {m : TokenMatcher} (hstate : ctx.state = .idle ∨ ctx.state = .done)
      (hadvance : ctx.startMatcher.advance token = some (p, m)) :
      Moves ctx token { ctx with startMatcher := m }
  | wake {p : Int} {m : TokenMatcher} (hstate : ctx.state = .idle)
      (hadvance : ctx.startMatcher.advance token = some (p, m)) :
      Moves ctx token
        { ctx with startMatcher := m, state := .counting, remaining := ctx.budget, warnPos := 0,
                   warnFired := false }
  | rewake {p : Int} {m : TokenMatcher} (hstate : ctx.state = .done)
      (hadvance : ctx.startMatcher.advance token = some (p, m)) :
      Moves ctx token
        { ctx with startMatcher := m, endMatcher := ctx.endMatcher.reset, endMatch := -1,
                   state := .counting, remaining := ctx.budget, warnPos := 0, warnFired := false }
  | close {p : Int} {m : TokenMatcher} (hstate : ctx.state = .counting ∨ ctx.state = .waitingUtf8)
      (hadvance : ctx.endMatcher.advance token = some (p, m)) (hmatch : 0 ≤ p) :
      Moves ctx token { ctx with endMatcher := m, state := .done, endMatch := p }
  | count {p : Int} {m : TokenMatcher} (hstate : ctx.state = .counting)
      (hadvance : ctx.endMatcher.advance token = some (p, m)) (hmatch : p < 0)
      (hleft : 0 < ctx.remaining - 1) :
      Moves ctx token { ctx with endMatcher := m, remaining := ctx.remaining - 1 }
  | warn {p : Int} {m : TokenMatcher} (hstate : ctx.state = .counting)
      (hadvance : ctx.endMatcher.advance token = some (p, m)) (hmatch : p < 0)
      (hleft : 0 < ctx.remaining - 1) (harmed : ctx.warnArmed = true) :
      Moves ctx token
        { ctx with endMatcher := m.reset, remaining := ctx.remaining - 1, state := .warning,
                   warnPos := 0, warnFired := true }
  | wait {p : Int} {m : TokenMatcher} (hstate : ctx.state = .counting)
      (hadvance : ctx.endMatcher.advance token = some (p, m)) (hmatch : p < 0)
      (hleft : ctx.remaining - 1 ≤ 0) (hpiece : ctx.pieceComplete token = false) :
      Moves ctx token
        { ctx with endMatcher := m.reset, remaining := ctx.remaining - 1, state := .waitingUtf8 }
  | force {p : Int} {m : TokenMatcher} (hstate : ctx.state = .counting)
      (hadvance : ctx.endMatcher.advance token = some (p, m)) (hmatch : p < 0)
      (hleft : ctx.remaining - 1 ≤ 0) (hpiece : ctx.pieceComplete token = true) :
      Moves ctx token
        { ctx with endMatcher := m.reset, remaining := ctx.remaining - 1, state := .forcing,
                   forcePos := 0 }
  | waitOn {p : Int} {m : TokenMatcher} (hstate : ctx.state = .waitingUtf8)
      (hadvance : ctx.endMatcher.advance token = some (p, m)) (hmatch : p < 0)
      (hpiece : ctx.pieceComplete token = false) :
      Moves ctx token { ctx with endMatcher := m }
  | forceLate {p : Int} {m : TokenMatcher} (hstate : ctx.state = .waitingUtf8)
      (hadvance : ctx.endMatcher.advance token = some (p, m)) (hmatch : p < 0)
      (hpiece : ctx.pieceComplete token = true) :
      Moves ctx token { ctx with endMatcher := m.reset, state := .forcing, forcePos := 0 }
  | inject (hstate : ctx.state = .warning) (hleft : ctx.warnPos + 1 < ctx.warnTokens.length) :
      Moves ctx token { ctx with warnPos := ctx.warnPos + 1 }
  | injected (hstate : ctx.state = .warning) (hleft : ctx.warnTokens.length ≤ ctx.warnPos + 1) :
      Moves ctx token
        { ctx with warnPos := ctx.warnPos + 1, state := .counting, endMatcher := ctx.endMatcher.reset }
  | forceOn {p : Int} {m : TokenMatcher} (hstate : ctx.state = .forcing)
      (hadvance : ctx.endMatcher.advance token = some (p, m))
      (hleft : ctx.forcePos + 1 < ctx.forcedTokens.length) :
      Moves ctx token { ctx with endMatcher := m, forcePos := ctx.forcePos + 1 }
  | finish {p : Int} {m : TokenMatcher} (hstate : ctx.state = .forcing)
      (hadvance : ctx.endMatcher.advance token = some (p, m))
      (hleft : ctx.forcedTokens.length ≤ ctx.forcePos + 1) :
      Moves ctx token
        { ctx with endMatcher := m, forcePos := ctx.forcePos + 1, state := .done, endMatch := p }

variable {ctx ctx' : ReasoningBudget} {token : Nat}

theorem activate_eq (ctx : ReasoningBudget) (hbudget : 1 ≤ ctx.budget) :
    ctx.activate = { ctx with state := .counting, remaining := ctx.budget, warnPos := 0, warnFired := false } := by
  unfold activate
  exact if_neg (by dsimp only; omega)

theorem spend_moves {p : Int} {m : TokenMatcher} (hstate : ctx.state = .counting ∨ ctx.state = .waitingUtf8)
    (hadvance : ctx.endMatcher.advance token = some (p, m)) (hmatch : p < 0) :
    Moves ctx token (spend { ctx with endMatcher := m } (ctx.pieceComplete token)) := by
  rcases hstate with hstate | hstate
  · have hne : ¬ctx.state = .waitingUtf8 := by
      rw [hstate]
      decide
    unfold spend
    dsimp only
    rw [if_neg hne]
    split
    · next hleft =>
      cases hpiece : ctx.pieceComplete token with
      | true => exact .force hstate hadvance hmatch hleft hpiece
      | false => exact .wait hstate hadvance hmatch hleft hpiece
    · next hleft =>
      split
      · next hwarn => exact .warn hstate hadvance hmatch (by omega) hwarn.1
      · exact .count hstate hadvance hmatch (by omega)
  · unfold spend
    rw [if_pos hstate]
    cases hpiece : ctx.pieceComplete token with
    | true => exact .forceLate hstate hadvance hmatch hpiece
    | false => exact .waitOn hstate hadvance hmatch hpiece

theorem accept_moves (hbudget : 1 ≤ ctx.budget) (h : ctx.accept token = some ctx') : Moves ctx token ctx' := by
  have hspend : ∀ p m, (ctx.state = .counting ∨ ctx.state = .waitingUtf8) →
      ctx.endMatcher.advance token = some (p, m) →
      (if 0 ≤ p then { { ctx with endMatcher := m } with state := .done, endMatch := p }
        else spend { ctx with endMatcher := m } (ctx.pieceComplete token)) = ctx' →
      Moves ctx token ctx' := by
    intro p m hstate hadvance heq
    subst heq
    split
    · next hmatch => exact .close hstate hadvance hmatch
    · next hmatch => exact spend_moves hstate hadvance (Int.not_le.mp hmatch)
  unfold accept at h
  split at h
  · next hstate =>
    obtain ⟨⟨p, m⟩, hadvance, h⟩ := bind_eq_some_iff.mp h
    obtain rfl := some.inj h
    split
    · rw [activate_eq _ (by exact hbudget)]
      exact .wake hstate hadvance
    · exact .rest (.inl hstate) hadvance
  · next hstate =>
    obtain ⟨⟨p, m⟩, hadvance, h⟩ := bind_eq_some_iff.mp h
    exact hspend p m (.inl hstate) hadvance (some.inj h)
  · next hstate =>
    obtain ⟨⟨p, m⟩, hadvance, h⟩ := bind_eq_some_iff.mp h
    exact hspend p m (.inr hstate) hadvance (some.inj h)
  · next hstate =>
    obtain rfl := some.inj h
    split
    · next hleft => exact .injected hstate hleft
    · next hleft => exact .inject hstate (Nat.not_le.mp hleft)
  · next hstate =>
    obtain ⟨⟨p, m⟩, hadvance, h⟩ := bind_eq_some_iff.mp h
    obtain rfl := some.inj h
    split
    · next hleft => exact .finish hstate hadvance hleft
    · next hleft => exact .forceOn hstate hadvance (Nat.not_le.mp hleft)
  · next hstate =>
    obtain ⟨⟨p, m⟩, hadvance, h⟩ := bind_eq_some_iff.mp h
    obtain rfl := some.inj h
    split
    · rw [activate_eq _ (by exact hbudget)]
      exact .rewake hstate hadvance
    · exact .rest (.inr hstate) hadvance

/-- The bytes of a token's piece. -/
def pieceOf (ctx : ReasoningBudget) (token : Nat) : List UInt8 :=
  match ctx.vocab with
  | none => []
  | some piece => piece token

end ReasoningBudget

/-! ## Blocks -/

/-- What was accepted since a start sequence was completed. -/
structure BudgetBlock where
  accepted : List Nat := []
  /-- Tokens accepted in `COUNTING`. -/
  counted : Nat := 0
  /-- Tokens accepted in `WAITING_UTF8`. -/
  waited : Nat := 0
  /-- A free token, from the one on that the budget ends with, left the text complete. -/
  due : Bool := false
  /-- Tokens accepted in `WARNING`. -/
  warned : List Nat := []
  /-- Tokens accepted in `FORCING`. -/
  forced : List Nat := []

structure BudgetRun where
  ctx : ReasoningBudget
  block : BudgetBlock := {}

namespace BudgetRun

def textComplete (s : BudgetRun) (token : Nat) : Bool :=
  utf8IsComplete ((s.block.accepted ++ [token]).flatMap s.ctx.pieceOf)

/-- A free token from the one on that the budget ends with. -/
def Last (s : BudgetRun) : Prop := s.ctx.budget ≤ (s.block.counted + s.block.waited + 1 : Nat)

instance (s : BudgetRun) : Decidable s.Last := inferInstanceAs (Decidable (_ ≤ _))

/-- The block after a token that brought the sampler to `state`. -/
def record (s : BudgetRun) (token : Nat) (state : ReasoningBudgetState) : BudgetBlock :=
  let accepted := s.block.accepted ++ [token]
  let due := s.block.due || (decide s.Last && s.textComplete token)
  match s.ctx.state with
  | .idle | .done => if state = s.ctx.state then s.block else {}
  | .counting => { s.block with accepted := accepted, counted := s.block.counted + 1, due := due }
  | .waitingUtf8 => { s.block with accepted := accepted, waited := s.block.waited + 1, due := due }
  | .warning => { s.block with accepted := accepted, warned := s.block.warned ++ [token] }
  | .forcing => { s.block with accepted := accepted, forced := s.block.forced ++ [token] }

def step (s : BudgetRun) (token : Nat) : Option BudgetRun :=
  (s.ctx.accept token).map fun ctx => ⟨ctx, s.record token ctx.state⟩

/-- A free token completes no end sequence; in `WARNING` and `FORCING` the token is the forced one. -/
def Permitted (s : BudgetRun) (token : Nat) : Prop :=
  match s.ctx.state with
  | .counting | .waitingUtf8 => ∀ seq ∈ s.ctx.endMatcher.seqs, ¬seq <:+ s.block.accepted ++ [token]
  | .warning | .forcing => s.ctx.forcedToken = none ∨ s.ctx.forcedToken = some token
  | .idle | .done => True

instance (s : BudgetRun) (token : Nat) : Decidable (s.Permitted token) :=
  match h : s.ctx.state with
  | .counting | .waitingUtf8 =>
    decidable_of_iff (∀ seq ∈ s.ctx.endMatcher.seqs, ¬seq <:+ s.block.accepted ++ [token])
      (by simp [Permitted, h])
  | .warning | .forcing =>
    decidable_of_iff (s.ctx.forcedToken = none ∨ s.ctx.forcedToken = some token)
      (by simp [Permitted, h])
  | .idle | .done => .isTrue (by simp [Permitted, h])

/-- The test on the piece says what holds of the text, and there is something to force. -/
def Agrees (s : BudgetRun) (token : Nat) : Prop :=
  s.ctx.state = .counting ∨ s.ctx.state = .waitingUtf8 → s.Last →
    s.ctx.pieceComplete token = s.textComplete token ∧
      (s.textComplete token = true → s.ctx.forcedTokens ≠ [])

instance (s : BudgetRun) (token : Nat) : Decidable (s.Agrees token) :=
  inferInstanceAs (Decidable (_ ∨ _ → _ → _ ∧ (_ → _)))

/-- The budget of the block is kept. -/
structure Enforced (s : BudgetRun) : Prop where
  remaining_eq : s.ctx.remaining = s.ctx.budget - s.block.counted
  counted_le : (s.block.counted : Int) ≤ s.ctx.budget
  counting_iff : s.ctx.state = .counting ∨ s.ctx.state = .warning ↔
    (s.block.counted : Int) < s.ctx.budget
  forcing_iff : s.ctx.state = .forcing ∨ s.ctx.state = .done ↔ s.block.due = true
  warned_prefix : s.block.warned <+: s.ctx.warnTokens
  warned_or : s.ctx.state ≠ .warning → s.block.warned = [] ∨ s.block.warned = s.ctx.warnTokens
  forced_prefix : s.block.forced <+: s.ctx.forcedTokens
  done_iff : s.block.due = true → (s.ctx.state = .done ↔ s.block.forced = s.ctx.forcedTokens)

/-! ## The invariant -/

structure Matchers (s : BudgetRun) : Prop where
  idle : s.ctx.state = .idle → s.block.accepted = []
  starts : ∃ input, s.ctx.startMatcher.Tracks input
  ends : ∃ input, s.ctx.endMatcher.Tracks input ∧
    (s.ctx.state ≠ .warning → input <:+ s.block.accepted)

structure Counts (s : BudgetRun) : Prop where
  remaining_eq : s.ctx.remaining = s.ctx.budget - s.block.counted
  early : s.ctx.state = .idle ∨ s.ctx.state = .counting ∨ s.ctx.state = .warning →
    (s.block.counted : Int) < s.ctx.budget ∧ s.block.waited = 0 ∧ s.block.due = false ∧
      s.block.forced = []
  waiting : s.ctx.state = .waitingUtf8 → (s.block.counted : Int) = s.ctx.budget ∧
    s.block.due = false ∧ s.block.forced = []
  late : s.ctx.state = .forcing ∨ s.ctx.state = .done → (s.block.counted : Int) = s.ctx.budget ∧
    s.block.due = true
  forcing : s.ctx.state = .forcing → s.block.forced = s.ctx.forcedTokens.take s.ctx.forcePos ∧
    s.ctx.forcePos < s.ctx.forcedTokens.length
  done : s.ctx.state = .done → s.block.forced = s.ctx.forcedTokens

structure Warnings (s : BudgetRun) : Prop where
  warning : s.ctx.state = .warning → s.block.warned = s.ctx.warnTokens.take s.ctx.warnPos ∧
    s.ctx.warnPos < s.ctx.warnTokens.length ∧ s.ctx.warnFired = true
  fired : s.ctx.state ≠ .warning → s.ctx.warnFired = true → s.block.warned = s.ctx.warnTokens
  fresh : s.ctx.warnFired = false → s.block.warned = []

structure Inv (s : BudgetRun) : Prop where
  budget_pos : 1 ≤ s.ctx.budget
  matchers : s.Matchers
  counts : s.Counts
  warnings : s.Warnings

variable {s s' : BudgetRun} {token : Nat} {ctx' : ReasoningBudget}

theorem Inv.enforced (h : s.Inv) (hstate : s.ctx.state ≠ .idle) : s.Enforced := by
  have hc := h.counts
  have hw := h.warnings
  have hwarned : s.ctx.state ≠ .warning → s.block.warned = [] ∨ s.block.warned = s.ctx.warnTokens := by
    intro hne
    cases hfired : s.ctx.warnFired with
    | true => exact .inr (hw.fired hne hfired)
    | false => exact .inl (hw.fresh hfired)
  have hprefix : s.block.warned <+: s.ctx.warnTokens := by
    by_cases hwarning : s.ctx.state = .warning
    · rw [(hw.warning hwarning).1]
      exact take_prefix ..
    · rcases hwarned hwarning with heq | heq
      · rw [heq]
        exact nil_prefix
      · rw [heq]
  cases hs : s.ctx.state with
  | idle => exact absurd hs hstate
  | counting | warning =>
    obtain ⟨hlt, -, hdue, hforced⟩ := hc.early (by simp [hs])
    exact ⟨hc.remaining_eq, hlt.le, by simpa [hs] using hlt, by simp [hs, hdue], hprefix, hwarned,
      by simp [hforced], by simp [hdue]⟩
  | waitingUtf8 =>
    obtain ⟨heq, hdue, hforced⟩ := hc.waiting hs
    exact ⟨hc.remaining_eq, heq.le, by simp [hs, heq], by simp [hs, hdue], hprefix, hwarned,
      by simp [hforced], by simp [hdue]⟩
  | forcing =>
    obtain ⟨heq, hdue⟩ := hc.late (by simp [hs])
    obtain ⟨hforced, hlt⟩ := hc.forcing hs
    refine ⟨hc.remaining_eq, heq.le, by simp [hs, heq], by simp [hs, hdue], hprefix, hwarned, ?_, ?_⟩
    · rw [hforced]
      exact take_prefix ..
    · simp only [hs, hforced, take_eq_self_iff]
      simpa [hdue] using hlt
  | done =>
    obtain ⟨heq, hdue⟩ := hc.late (by simp [hs])
    have hforced := hc.done hs
    exact ⟨hc.remaining_eq, heq.le, by simp [hs, heq], by simp [hs, hdue], hprefix, hwarned,
      by simp [hforced], by simp [hs, hforced]⟩

/-- An end sequence is not completed by a permitted token. -/
theorem Matchers.no_match (h : s.Matchers) (hp : s.Permitted token)
    (hstate : s.ctx.state = .counting ∨ s.ctx.state = .waitingUtf8) {p : Int} {m : TokenMatcher}
    (hadvance : s.ctx.endMatcher.advance token = some (p, m)) : p < 0 := by
  obtain ⟨input, htracks, hsuffix⟩ := h.ends
  have hne : s.ctx.state ≠ .warning := by
    rcases hstate with hstate | hstate <;> rw [hstate] <;> decide
  have hno : ∀ seq ∈ s.ctx.endMatcher.seqs, ¬seq <:+ s.block.accepted ++ [token] := by
    unfold Permitted at hp
    rcases hstate with hstate | hstate <;> rw [hstate] at hp <;> exact hp
  refine htracks.no_match hadvance fun seq hseq hend => hno seq hseq (hend.trans ?_)
  exact suffix_append_self_iff.mpr (hsuffix hne)

theorem Matchers.feed (h : s.Matchers) (hne : s.ctx.state ≠ .warning) {p : Int} {m : TokenMatcher}
    (hadvance : s.ctx.endMatcher.advance token = some (p, m)) :
    ∃ input, m.Tracks input ∧ input <:+ s.block.accepted ++ [token] := by
  obtain ⟨input, hends, hsuffix⟩ := h.ends
  obtain ⟨-, input', hafter, hle⟩ := hends.after hadvance
  exact ⟨input', hafter, hle.trans (suffix_append_self_iff.mpr (hsuffix hne))⟩

theorem Matchers.step (h : s.Matchers) (hm : s.ctx.Moves token ctx') :
    Matchers ⟨ctx', s.record token ctx'.state⟩ := by
  obtain ⟨start, hstart⟩ := h.starts
  obtain ⟨input, hends, hsuffix⟩ := h.ends
  cases hm with
  | rest hstate hadvance =>
    obtain ⟨-, start', hstart', -⟩ := hstart.after hadvance
    have hblock : s.record token s.ctx.state = s.block := by
      rcases hstate with hstate | hstate <;> simp [record, hstate]
    exact ⟨fun hidle => by rw [hblock]; exact h.idle hidle, ⟨start', hstart'⟩, input, hends,
      fun hne => by rw [hblock]; exact hsuffix hne⟩
  | wake hstate hadvance =>
    obtain ⟨-, start', hstart', -⟩ := hstart.after hadvance
    have hroot : input <:+ [] := by
      have hle := hsuffix (by simp [hstate])
      rwa [h.idle hstate] at hle
    exact ⟨by simp, ⟨start', hstart'⟩, input, hends, fun _ => by simpa [record, hstate] using hroot⟩
  | rewake hstate hadvance =>
    obtain ⟨-, start', hstart', -⟩ := hstart.after hadvance
    exact ⟨by simp, ⟨start', hstart'⟩, [], hends.reset, fun _ => nil_suffix⟩
  | close hstate hadvance hmatch =>
    obtain ⟨input', hfed, hle⟩ := h.feed (by rcases hstate with hs | hs <;> simp [hs]) hadvance
    exact ⟨by simp, h.starts, input', hfed, fun _ => by
      rcases hstate with hs | hs <;> simpa [record, hs] using hle⟩
  | count hstate hadvance hmatch hleft | waitOn hstate hadvance hmatch hpiece
  | forceOn hstate hadvance hleft =>
    obtain ⟨input', hfed, hle⟩ := h.feed (by simp [hstate]) hadvance
    exact ⟨by simp [hstate], h.starts, input', hfed, fun _ => by simpa [record, hstate] using hle⟩
  | warn hstate hadvance hmatch hleft harmed | wait hstate hadvance hmatch hleft hpiece
  | force hstate hadvance hmatch hleft hpiece | forceLate hstate hadvance hmatch hpiece =>
    obtain ⟨input', hfed, -⟩ := h.feed (by simp [hstate]) hadvance
    exact ⟨by simp, h.starts, [], hfed.reset, fun _ => nil_suffix⟩
  | inject hstate hleft =>
    exact ⟨by simp [hstate], h.starts, input, hends, fun hne => absurd hstate hne⟩
  | injected hstate hleft =>
    exact ⟨by simp, h.starts, [], hends.reset, fun _ => nil_suffix⟩
  | finish hstate hadvance hleft =>
    obtain ⟨input', hfed, hle⟩ := h.feed (by simp [hstate]) hadvance
    exact ⟨by simp, h.starts, input', hfed, fun _ => by simpa [record, hstate] using hle⟩

/-- Away from `WARNING` the warning does not change. -/
theorem Warnings.congr (h : s.Warnings) (hne : s.ctx.state ≠ .warning) (hne' : s'.ctx.state ≠ .warning)
    (hfired : s'.ctx.warnFired = s.ctx.warnFired) (htokens : s'.ctx.warnTokens = s.ctx.warnTokens)
    (hwarned : s'.block.warned = s.block.warned) : s'.Warnings where
  warning := fun hwarning => absurd hwarning hne'
  fired := fun _ hf => by
    rw [hwarned, htokens]
    exact h.fired hne (hfired ▸ hf)
  fresh := fun hf => by
    rw [hwarned]
    exact h.fresh (hfired ▸ hf)

theorem take_concat {tokens : List Nat} {pos : Nat} (hlt : pos < tokens.length)
    (htoken : tokens[pos]? = none ∨ tokens[pos]? = some token) :
    tokens.take pos ++ [token] = tokens.take (pos + 1) := by
  rw [getElem?_eq_getElem hlt] at htoken
  rcases htoken with htoken | htoken
  · cases htoken
  · rw [← some.inj htoken, take_append_getElem]

theorem Warnings.step (h : s.Warnings) (hm : s.ctx.Moves token ctx') (hp : s.Permitted token) :
    Warnings ⟨ctx', s.record token ctx'.state⟩ := by
  cases hm with
  | rest hstate hadvance =>
    rcases hstate with hs | hs <;>
      exact h.congr (by simp [hs]) (by simp [hs]) rfl rfl (by simp [record, hs])
  | wake hstate hadvance | rewake hstate hadvance => exact ⟨by simp, by simp, by simp [record, hstate]⟩
  | close hstate hadvance hmatch =>
    rcases hstate with hs | hs <;>
      exact h.congr (by simp [hs]) (by simp) rfl rfl (by simp [record, hs])
  | count hstate hadvance hmatch hleft | waitOn hstate hadvance hmatch hpiece
  | forceOn hstate hadvance hleft =>
    exact h.congr (by simp [hstate]) (by simp [hstate]) rfl rfl (by simp [record, hstate])
  | warn hstate hadvance hmatch hleft harmed =>
    simp only [ReasoningBudget.warnArmed, Bool.and_eq_true, Bool.not_eq_true', decide_eq_true_eq]
      at harmed
    obtain ⟨⟨hfresh, -⟩, hne⟩ := harmed
    have hwarned := h.fresh hfresh
    exact ⟨fun _ => ⟨by simp [record, hstate, hwarned], length_pos_of_ne_nil hne, rfl⟩, by simp, by simp⟩
  | wait hstate hadvance hmatch hleft hpiece | force hstate hadvance hmatch hleft hpiece
  | forceLate hstate hadvance hmatch hpiece | finish hstate hadvance hleft =>
    exact h.congr (by simp [hstate]) (by simp) rfl rfl (by simp [record, hstate])
  | inject hstate hleft =>
    obtain ⟨hwarned, hlt, hfired⟩ := h.warning hstate
    simp only [Permitted, hstate, ReasoningBudget.forcedToken] at hp
    refine ⟨fun _ => ⟨?_, hleft, hfired⟩, by simp [hstate], by simp [hfired]⟩
    simp only [record, hstate, hwarned]
    exact take_concat hlt hp
  | injected hstate hleft =>
    obtain ⟨hwarned, hlt, hfired⟩ := h.warning hstate
    simp only [Permitted, hstate, ReasoningBudget.forcedToken] at hp
    refine ⟨by simp, fun _ _ => ?_, by simp [hfired]⟩
    simp only [record, hstate, hwarned]
    rw [take_concat hlt hp, take_of_length_le hleft]

/-- What `due` becomes with a free token. -/
theorem Counts.due_text (h : s.Counts) (hstate : s.ctx.state = .counting ∨ s.ctx.state = .waitingUtf8)
    (hlast : s.Last) :
    (s.block.due || (decide s.Last && s.textComplete token)) = s.textComplete token := by
  have hdue : s.block.due = false := by
    rcases hstate with hs | hs
    · exact (h.early (.inr (.inl hs))).2.2.1
    · exact (h.waiting hs).2.1
  rw [hdue, decide_eq_true hlast, Bool.false_or, Bool.true_and]

theorem Counts.due_eq (h : s.Counts) (hstate : s.ctx.state = .counting ∨ s.ctx.state = .waitingUtf8)
    (hagrees : s.Agrees token) (hlast : s.Last) :
    (s.block.due || (decide s.Last && s.textComplete token)) = s.ctx.pieceComplete token := by
  rw [h.due_text hstate hlast, (hagrees hstate hlast).1]

theorem Counts.step (h : s.Counts) (hbudget : 1 ≤ s.ctx.budget) (hm : s.ctx.Moves token ctx')
    (hp : s.Permitted token) (hagrees : s.Agrees token) (hmatchers : s.Matchers) :
    Counts ⟨ctx', s.record token ctx'.state⟩ := by
  have hremaining := h.remaining_eq
  cases hm with
  | rest hstate hadvance =>
    have hblock : s.record token s.ctx.state = s.block := by
      rcases hstate with hs | hs <;> simp [record, hs]
    rw [hblock]
    exact ⟨h.remaining_eq, h.early, h.waiting, h.late, h.forcing, h.done⟩
  | wake hstate hadvance | rewake hstate hadvance =>
    refine ⟨by simp [record, hstate], fun _ => ?_, by simp, by simp, by simp, by simp⟩
    simp [record, hstate]
    omega
  | close hstate hadvance hmatch =>
    have hneg := hmatchers.no_match hp hstate hadvance
    omega
  | count hstate hadvance hmatch hleft =>
    obtain ⟨hlt, hwaited, hdue, hforced⟩ := h.early (.inr (.inl hstate))
    have hlast : ¬s.Last := by
      unfold Last
      omega
    refine ⟨?_, fun _ => ?_, by simp [hstate], by simp [hstate], by simp [hstate], by simp [hstate]⟩
    · simp only [record, hstate]
      push_cast
      omega
    · simp [record, hstate, hwaited, hdue, hforced, hlast]
      omega
  | warn hstate hadvance hmatch hleft harmed =>
    obtain ⟨hlt, hwaited, hdue, hforced⟩ := h.early (.inr (.inl hstate))
    have hlast : ¬s.Last := by
      unfold Last
      omega
    refine ⟨?_, fun _ => ?_, by simp, by simp, by simp, by simp⟩
    · simp only [record, hstate]
      push_cast
      omega
    · simp [record, hstate, hwaited, hdue, hforced, hlast]
      omega
  | wait hstate hadvance hmatch hleft hpiece =>
    obtain ⟨hlt, hwaited, hdue, hforced⟩ := h.early (.inr (.inl hstate))
    have hlast : s.Last := by
      unfold Last
      omega
    have hdue' := h.due_eq (.inl hstate) hagrees hlast
    refine ⟨?_, by simp, fun _ => ?_, by simp, by simp, by simp⟩
    · simp only [record, hstate]
      push_cast
      omega
    · simp only [record, hstate, hforced, hdue', hpiece, and_true]
      push_cast
      omega
  | force hstate hadvance hmatch hleft hpiece =>
    obtain ⟨hlt, hwaited, hdue, hforced⟩ := h.early (.inr (.inl hstate))
    have hlast : s.Last := by
      unfold Last
      omega
    have hdue' := h.due_eq (.inl hstate) hagrees hlast
    have hne := (hagrees (.inl hstate) hlast).2 ((hagrees (.inl hstate) hlast).1 ▸ hpiece)
    refine ⟨?_, by simp, by simp, fun _ => ?_, fun _ => ⟨?_, length_pos_of_ne_nil hne⟩, by simp⟩
    · simp only [record, hstate]
      push_cast
      omega
    · simp only [record, hstate, hdue', hpiece, and_true]
      push_cast
      omega
    · simp [record, hstate, hforced]
  | waitOn hstate hadvance hmatch hpiece =>
    obtain ⟨hcounted, hdue, hforced⟩ := h.waiting hstate
    have hlast : s.Last := by
      unfold Last
      omega
    have hdue' := h.due_eq (.inr hstate) hagrees hlast
    refine ⟨?_, by simp [hstate], fun _ => ?_, by simp [hstate], by simp [hstate], by simp [hstate]⟩
    · simpa [record, hstate] using hremaining
    · simp only [record, hstate, hforced, hdue', hpiece, and_true]
      exact hcounted
  | forceLate hstate hadvance hmatch hpiece =>
    obtain ⟨hcounted, hdue, hforced⟩ := h.waiting hstate
    have hlast : s.Last := by
      unfold Last
      omega
    have hdue' := h.due_eq (.inr hstate) hagrees hlast
    have hne := (hagrees (.inr hstate) hlast).2 ((hagrees (.inr hstate) hlast).1 ▸ hpiece)
    refine ⟨?_, by simp, by simp, fun _ => ?_, fun _ => ⟨?_, length_pos_of_ne_nil hne⟩, by simp⟩
    · simpa [record, hstate] using hremaining
    · simp only [record, hstate, hdue', hpiece, and_true]
      exact hcounted
    · simp [record, hstate, hforced]
  | inject hstate hleft =>
    have hearly := h.early (.inr (.inr hstate))
    refine ⟨?_, fun _ => ?_, by simp [hstate], by simp [hstate], by simp [hstate], by simp [hstate]⟩
    · simpa [record, hstate] using hremaining
    · simpa [record, hstate] using hearly
  | injected hstate hleft =>
    have hearly := h.early (.inr (.inr hstate))
    refine ⟨?_, fun _ => ?_, by simp, by simp, by simp, by simp⟩
    · simpa [record, hstate] using hremaining
    · simpa [record, hstate] using hearly
  | forceOn hstate hadvance hleft =>
    obtain ⟨hforced, hlt⟩ := h.forcing hstate
    have hlate := h.late (.inl hstate)
    simp only [Permitted, hstate, ReasoningBudget.forcedToken] at hp
    refine ⟨?_, by simp [hstate], by simp [hstate], fun _ => ?_, fun _ => ⟨?_, hleft⟩, by simp [hstate]⟩
    · simpa [record, hstate] using hremaining
    · simpa [record, hstate] using hlate
    · simp only [record, hstate, hforced]
      exact take_concat hlt hp
  | finish hstate hadvance hleft =>
    obtain ⟨hforced, hlt⟩ := h.forcing hstate
    have hlate := h.late (.inl hstate)
    simp only [Permitted, hstate, ReasoningBudget.forcedToken] at hp
    refine ⟨?_, by simp, by simp, fun _ => ?_, by simp, fun _ => ?_⟩
    · simpa [record, hstate] using hremaining
    · simpa [record, hstate] using hlate
    · simp only [record, hstate, hforced]
      rw [take_concat hlt hp, take_of_length_le hleft]

theorem Inv.step (h : s.Inv) (hstep : s.step token = some s') (hp : s.Permitted token)
    (hagrees : s.Agrees token) : s'.Inv := by
  obtain ⟨ctx', haccept, rfl⟩ := map_eq_some_iff.mp hstep
  have hm := ReasoningBudget.accept_moves h.budget_pos haccept
  refine ⟨?_, h.matchers.step hm, h.counts.step h.budget_pos hm hp hagrees h.matchers, h.warnings.step hm hp⟩
  have hbudget := h.budget_pos
  cases hm <;> exact hbudget

theorem Inv.progress (h : s.Inv) (token : Nat) : ∃ s', s.step token = some s' := by
  obtain ⟨start, hstart⟩ := h.matchers.starts
  obtain ⟨input, hends, -⟩ := h.matchers.ends
  obtain ⟨p, m, hstart, -⟩ := hstart.advance token
  obtain ⟨q, e, hend, -⟩ := hends.advance token
  have haccept : ∃ ctx, s.ctx.accept token = some ctx := by
    unfold ReasoningBudget.accept
    cases s.ctx.state with
    | idle | done =>
      rw [hstart]
      exact ⟨_, rfl⟩
    | counting | waitingUtf8 | forcing =>
      rw [hend]
      exact ⟨_, rfl⟩
    | warning => exact ⟨_, rfl⟩
  obtain ⟨ctx, haccept⟩ := haccept
  exact ⟨_, by rw [BudgetRun.step, haccept]; rfl⟩

theorem inv_init {vocab : Option (Nat → List UInt8)} {startSeqs endSeqs : List (List Nat)}
    {forcedTokens warnTokens : List Nat} {budget warnAt : Int} {initialState : ReasoningBudgetState}
    {ctx : ReasoningBudget} (hbudget : 1 ≤ budget)
    (hinitial : initialState = .idle ∨ initialState = .counting)
    (hinit : ReasoningBudget.init vocab startSeqs endSeqs forcedTokens budget initialState warnTokens
      warnAt = some ctx) : Inv ⟨ctx, {}⟩ := by
  obtain ⟨start, hstart, hinit⟩ := bind_eq_some_iff.mp hinit
  obtain ⟨stop, hstop, hinit⟩ := bind_eq_some_iff.mp hinit
  obtain rfl := some.inj hinit
  obtain ⟨start', hcreate, -, htracks⟩ := TokenMatcher.create_tracks startSeqs
  obtain ⟨stop', hcreate', -, htracks'⟩ := TokenMatcher.create_tracks endSeqs
  obtain rfl := some.inj (hstart.symm.trans hcreate)
  obtain rfl := some.inj (hstop.symm.trans hcreate')
  have hpromoted : (if initialState = .counting ∧ budget ≤ 0 then ReasoningBudgetState.forcing
      else initialState) = initialState := if_neg (by omega)
  rw [hpromoted]
  refine ⟨hbudget, ⟨fun _ => rfl, ⟨[], htracks⟩, [], htracks', fun _ => nil_suffix⟩, ?_, ?_⟩
  · refine ⟨by simp, fun _ => ⟨?_, rfl, rfl, rfl⟩, ?_, ?_, ?_, ?_⟩
    · exact Int.lt_of_lt_of_le Int.zero_lt_one hbudget
    all_goals rcases hinitial with rfl | rfl <;> simp
  · refine ⟨?_, by simp, fun _ => rfl⟩
    rcases hinitial with rfl | rfl <;> simp

/-- **The budget.**  In every run from `IDLE` or from the start of a block, in which no end sequence
completes, the forced tokens are accepted and the test on the piece agrees with the text, the budget of
the block is kept, and the sampler accepts the next token. -/
theorem reasoning_budget_kept {vocab : Option (Nat → List UInt8)} {startSeqs endSeqs : List (List Nat)}
    {forcedTokens warnTokens : List Nat} {budget warnAt : Int} {initialState : ReasoningBudgetState}
    {ctx : ReasoningBudget} {s : BudgetRun} (hbudget : 1 ≤ budget)
    (hinitial : initialState = .idle ∨ initialState = .counting)
    (hinit : ReasoningBudget.init vocab startSeqs endSeqs forcedTokens budget initialState warnTokens
      warnAt = some ctx)
    (h : Runs.Reaches step (fun s token => s.Permitted token ∧ s.Agrees token) ⟨ctx, {}⟩ s) :
    (s.ctx.state ≠ .idle → s.Enforced) ∧ ∀ token, ∃ s', s.step token = some s' := by
  have hinv : s.Inv := h.inv (fun _ _ _ hs hq hstep => hs.step hstep hq.1 hq.2)
    (inv_init hbudget hinitial hinit)
  exact ⟨hinv.enforced, hinv.progress⟩

/-- Letters, and the three bytes of a character as tokens of their own. -/
def bytePieces (token : Nat) : List UInt8 :=
  match token with
  | 0 => [0xE2]
  | 1 => [0x82]
  | 2 => [0xAC]
  | _ => [0x61]

/-- A budget of three with a warning when one token is left: two tokens, the warning, the third token,
and the forced end. -/
theorem reasoning_budget_kept_three : ∃ (ctx : ReasoningBudget) (s : BudgetRun),
    ReasoningBudget.init (some bytePieces) [[9]] [[8]] [7, 8] 3 .idle [5, 6] 1 = some ctx ∧
      s.ctx.state = .done ∧ s.block.accepted = [3, 3, 5, 6, 3, 7, 8] ∧ s.Enforced := by
  have hrun : ((ReasoningBudget.init (some bytePieces) [[9]] [[8]] [7, 8] 3 .idle [5, 6] 1).bind
      fun ctx => (Runs.permitted step (fun s token => s.Permitted token ∧ s.Agrees token) ⟨ctx, {}⟩
        [9, 3, 3, 5, 6, 3, 7, 8]).map fun s => (s.ctx.state, s.block.accepted)) =
      some (.done, [3, 3, 5, 6, 3, 7, 8]) := by decide +kernel
  obtain ⟨ctx, hinit, hrun⟩ := bind_eq_some_iff.mp hrun
  obtain ⟨s, hs, hval⟩ := map_eq_some_iff.mp hrun
  obtain ⟨hstate, haccepted⟩ := Prod.mk.inj hval
  have hkept := reasoning_budget_kept (by decide) (.inl rfl) hinit (Runs.Reaches.refl.ofPermitted hs)
  exact ⟨ctx, s, hinit, hstate, haccepted, hkept.1 (by simp [hstate])⟩

/-- A budget of one: the character is complete with the third token, and the sampler still waits. -/
theorem bytes_overrun_budget : ∃ (ctx : ReasoningBudget) (s : BudgetRun),
    ReasoningBudget.init (some bytePieces) [[9]] [[8]] [8] 1 .idle [] (-1) = some ctx ∧
      Runs.Reaches step Permitted ⟨ctx, {}⟩ s ∧ s.ctx.state ≠ .idle ∧ ¬s.Enforced := by
  have hrun : ((ReasoningBudget.init (some bytePieces) [[9]] [[8]] [8] 1 .idle [] (-1)).bind
      fun ctx => (Runs.permitted step Permitted ⟨ctx, {}⟩ [9, 0, 1, 2]).map fun s =>
        (s.ctx.state, s.block.due)) = some (.waitingUtf8, true) := by decide +kernel
  obtain ⟨ctx, hinit, hrun⟩ := bind_eq_some_iff.mp hrun
  obtain ⟨s, hs, hval⟩ := map_eq_some_iff.mp hrun
  obtain ⟨hstate, hdue⟩ := Prod.mk.inj hval
  refine ⟨ctx, s, hinit, Runs.Reaches.refl.ofPermitted hs, by simp [hstate], fun h => ?_⟩
  have hforcing := h.forcing_iff.mpr hdue
  simp [hstate] at hforcing

end BudgetRun

end LlamaCpp
