import Mathlib.Computability.ContextFreeGrammar

/-!
# Leftmost derivations

`Leftmost g α w β` says that rewriting always the leftmost nonterminal of the sentential
form `α` gives the terminals `w` followed by `β`.  It composes like a run that reads `w`
from left to right, and it reaches whatever a derivation reaches (`exists_leftmost`): up to
the last terminal that is asked for, the order of the rewriting steps does not matter.
-/

namespace LeftmostDerivation

open List

universe u

variable {T : Type u} (g : ContextFreeGrammar T)

/-- Rewriting the leftmost nonterminals of `α` gives the terminals `w` and then `β`. -/
inductive Leftmost : List (Symbol T g.NT) → List T → List (Symbol T g.NT) → Prop
| done {α : List (Symbol T g.NT)} :
  Leftmost α [] α
| terminal {α β : List (Symbol T g.NT)} {t : T} {w : List T} :
  Leftmost α w β ->
  Leftmost (.terminal t :: α) (t :: w) β
| rule {α β : List (Symbol T g.NT)} {r : ContextFreeRule T g.NT} {w : List T} :
  r ∈ g.rules ->
  Leftmost (r.output ++ α) w β ->
  Leftmost (.nonterminal r.input :: α) w β

variable {g} {w : List T} {α : List (Symbol T g.NT)}

variable {β : List (Symbol T g.NT)}

theorem Leftmost.derives (h : Leftmost g α w β) : g.Derives α (w.map Symbol.terminal ++ β) := by
  induction h with
  | done => exact .refl _
  | terminal _ ih => exact ih.append_left [_]
  | @rule α β r w hr _ ih =>
    have hstep : g.Produces (.nonterminal r.input :: α) (r.output ++ α) :=
      ⟨r, hr, .head α⟩
    exact hstep.trans_derives ih

theorem leftmost_terminals (w : List T) (β : List (Symbol T g.NT)) : Leftmost g (w.map Symbol.terminal ++ β) w β := by
  induction w with
  | nil => exact .done
  | cons t w ih => exact .terminal ih

/-- A leftmost derivation stops at a nonterminal or rewrites it. -/
theorem Leftmost.nonterminal_inv {n : g.NT}
    (h : Leftmost g (.nonterminal n :: α) w β) : (w = [] ∧ β = .nonterminal n :: α) ∨
      ∃ r ∈ g.rules, r.input = n ∧ Leftmost g (r.output ++ α) w β := by
  cases h with
  | done => exact .inl ⟨rfl, rfl⟩
  | rule hr hrest => exact .inr ⟨_, hr, rfl, hrest⟩

/-- A rewriting step before a leftmost derivation, wherever it is made, can be delayed
until its nonterminal is the leftmost one. -/
theorem Leftmost.unrewrite {r : ContextFreeRule T g.NT} (hr : r ∈ g.rules) {γ q : List (Symbol T g.NT)}
    (h : Leftmost g α w γ) : ∀ p, α = p ++ (r.output ++ q) →
      ∃ γ', Leftmost g (p ++ .nonterminal r.input :: q) w γ' ∧ (γ = [] → γ' = []) := by
  induction h with
  | @done α =>
    intro p hp
    cases p with
    | nil =>
      subst hp
      exact ⟨_, .rule hr .done, id⟩
    | cons s p => exact ⟨_, .done, fun h => absurd (hp.symm.trans h) (by simp)⟩
  | @terminal α β t w h ih =>
    intro p hp
    cases p with
    | nil =>
      have hout : r.output ++ q = .terminal t :: α := hp.symm
      exact ⟨β, .rule hr (hout ▸ .terminal h), id⟩
    | cons s p =>
      obtain ⟨rfl, rfl⟩ := List.cons.inj hp
      obtain ⟨γ', hγ', hnil⟩ := ih p rfl
      exact ⟨γ', .terminal hγ', hnil⟩
  | @rule α β r' w hr' h ih =>
    intro p hp
    cases p with
    | nil =>
      have hout : r.output ++ q = .nonterminal r'.input :: α := hp.symm
      exact ⟨β, .rule hr (hout ▸ .rule hr' h), id⟩
    | cons s p =>
      obtain ⟨rfl, rfl⟩ := List.cons.inj hp
      obtain ⟨γ', hγ', hnil⟩ := ih (r'.output ++ p) (append_assoc ..).symm
      refine ⟨γ', .rule hr' ?_, hnil⟩
      rwa [append_assoc] at hγ'

/-- What a derivation puts in front, a leftmost derivation puts in front as well. -/
theorem exists_leftmost (h : g.Derives α (w.map Symbol.terminal ++ β)) :
    ∃ γ, Leftmost g α w γ ∧ (β = [] → γ = []) := by
  induction h using Relation.ReflTransGen.head_induction_on with
  | refl => exact ⟨β, leftmost_terminals w β, id⟩
  | head hstep _ ih =>
    obtain ⟨γ, hγ, hnil⟩ := ih
    obtain ⟨r, hr, hrewrite⟩ := hstep
    obtain ⟨p, q, rfl, rfl⟩ := hrewrite.exists_parts
    rw [append_assoc] at hγ
    obtain ⟨γ', hγ', hnil'⟩ := hγ.unrewrite hr p rfl
    refine ⟨γ', ?_, fun h => hnil' (hnil h)⟩
    rwa [append_assoc]

/-- The words of a sentential form are what its complete leftmost derivations read. -/
theorem derives_iff_leftmost : g.Derives α (w.map Symbol.terminal) ↔ Leftmost g α w [] := by
  constructor
  · intro h
    obtain ⟨γ, hγ, hnil⟩ := exists_leftmost (β := []) (by simpa using h)
    exact hnil rfl ▸ hγ
  · intro h
    have := h.derives
    rwa [append_nil] at this

/-- A sentential form derives a word where each of its nonterminals does. -/
theorem exists_derives_word (hprod : ∀ n : g.NT, .nonterminal n ∈ α →
      ∃ w : List T, g.Derives [.nonterminal n] (w.map Symbol.terminal)) :
    ∃ w : List T, g.Derives α (w.map Symbol.terminal) := by
  induction α with
  | nil => exact ⟨[], .refl _⟩
  | cons s α ih =>
    obtain ⟨w, hw⟩ := ih fun n hn => hprod n (mem_cons_of_mem _ hn)
    have hs : ∃ v : List T, g.Derives [s] (v.map Symbol.terminal) := by
      cases s with
      | terminal t => exact ⟨[t], .refl _⟩
      | nonterminal n => exact hprod n mem_cons_self
    obtain ⟨v, hv⟩ := hs
    refine ⟨v ++ w, ?_⟩
    rw [map_append]
    exact (hv.append_right α).trans (hw.append_left _)

end LeftmostDerivation
