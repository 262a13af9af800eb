import LlamaCpp.Common.RingBuffer
import Mathlib.Algebra.Order.Ring.Int
import Mathlib.Data.List.Induction

/-!
# The penalties sampler

`llama_sampler_penalties` of llama-sampler.cpp counts the tokens of its window.  A clone gets the
window and no counts, so a run that goes on with a clone counts wrong from then on until a reset,
unless the window was empty (`counted_iff`).
-/

namespace LlamaCpp

open List RingBuffer Bool

/-- The sampler, without the strengths of the penalties -/
structure Penalties where
  penaltyLastN : Nat
  prev : RingBuffer Int
  tokenCount : Int → Option Int

namespace Penalties

/-- `token_count[token]++`, which makes the missing entry. -/
def incCount (m : Int → Option Int) (token : Int) : Int → Option Int :=
  Function.update m token (some ((m token).getD 0 + 1))

/-- `token_count[old]--` and the erasure at zero -/
def decCount (m : Int → Option Int) (old : Int) : Int → Option Int :=
  Function.update m old (if (m old).getD 0 - 1 = 0 then none else some ((m old).getD 0 - 1))

def init (penaltyLastN : Nat) : Penalties where
  penaltyLastN := penaltyLastN
  prev := { capacity := penaltyLastN, data := fun _ => 0 }
  tokenCount := fun _ => none

def accept (σ : Penalties) (token : Int) : Option Penalties :=
  if σ.penaltyLastN = 0 then some σ
  else do
    let tokenCount := incCount σ.tokenCount token
    let tokenCount ←
      if σ.penaltyLastN ≤ σ.prev.sz then σ.prev.front.map (decCount tokenCount) else some tokenCount
    let prev ← σ.prev.pushBack token
    return { σ with prev := prev, tokenCount := tokenCount }

def reset (σ : Penalties) : Penalties := { σ with prev := σ.prev.clear, tokenCount := fun _ => none }

/-- A new sampler with the window of the old one -/
def clone (σ : Penalties) : Penalties := { init σ.penaltyLastN with prev := σ.prev }

/-- The candidates; `penalize` is what a count does to a logit. -/
def apply {F : Type} (penalize : Int → F → F) (σ : Penalties) (cur : List (Int × F)) : List (Int × F) :=
  if σ.penaltyLastN = 0 then cur
  else cur.map fun p =>
    match σ.tokenCount p.1 with
    | none => p
    | some count => (p.1, penalize count p.2)

/-- What is done with the sampler; `clone` goes on with the clone, and a clone that is left makes no step. -/
inductive Op where
  | accept (token : Int)
  | reset
  | clone

def step (σ : Penalties) : Op → Option Penalties
  | .accept token => σ.accept token
  | .reset => some σ.reset
  | .clone => some σ.clone

def run (n : Nat) (ops : List Op) : Option Penalties := ops.foldlM step (init n)

/-- The tokens accepted since the last reset, and whether a clone was gone on with behind one of them. -/
structure Past where
  accepted : List Int := []
  stale : Bool := false

def Past.step (p : Past) : Op → Past
  | .accept token => { p with accepted := p.accepted ++ [token] }
  | .reset => {}
  | .clone => { p with stale := p.stale || !p.accepted.isEmpty }

def past (ops : List Op) : Past := ops.foldl Past.step {}

/-- The counts are those of the window. -/
def CountsOf (σ : Penalties) (xs : List Int) : Prop :=
  ∀ t, σ.tokenCount t = if xs.count t = 0 then none else some (xs.count t : Int)

/-! ## Counts -/

/-- What is counted for a token; a missing entry counts nothing. -/
def value (σ : Penalties) (t : Int) : Int := (σ.tokenCount t).getD 0

variable {m : Int → Option Int} {σ : Penalties} {n : Nat} {t k : Int} {p : Past}

theorem getD_incCount : (incCount m k t).getD 0 = (m t).getD 0 + if k = t then 1 else 0 := by
  by_cases h : t = k
  · subst h
    simp [incCount]
  · simp [incCount, h, Ne.symm h]

theorem getD_decCount : (decCount m k t).getD 0 = (m t).getD 0 - if k = t then 1 else 0 := by
  by_cases h : t = k
  · subst h
    by_cases hz : (m t).getD 0 - 1 = 0 <;> simp [decCount, hz]
  · simp [decCount, h, Ne.symm h]

theorem incCount_ne_zero (h : ∀ t, m t ≠ some 0) (hk : 0 ≤ (m k).getD 0) : incCount m k t ≠ some 0 := by
  by_cases ht : t = k
  · subst ht
    simp only [incCount, Function.update_self, ne_eq, Option.some.injEq]
    omega
  · simpa [incCount, ht] using h t

theorem decCount_ne_zero (h : ∀ t, m t ≠ some 0) : decCount m k t ≠ some 0 := by
  by_cases ht : t = k
  · subst ht
    by_cases hz : (m t).getD 0 - 1 = 0 <;> simp [decCount, hz]
  · simpa [decCount, ht] using h t

/-- The window holds the last tokens, and what is counted for a token is wrong by a number that stays the same. -/
structure Inv (n : Nat) (p : Past) (σ : Penalties) (d : Int → Int) : Prop where
  lastN : σ.penaltyLastN = n
  prev : Holds σ.prev n (window n p.accepted)
  value : ∀ t, σ.value t = (window n p.accepted).count t + d t
  stale : p.stale = true → p.accepted ≠ [] ∧ ∃ t, d t ≠ 0
  fresh : p.stale = false → (∀ t, d t = 0) ∧ ∀ t, σ.tokenCount t ≠ some 0

theorem inv_empty (hlast : σ.penaltyLastN = n) (hprev : Holds σ.prev n []) (hcount : σ.tokenCount = fun _ => none) :
    Inv n {} σ 0 := by
  have hwindow : window n ([] : List Int) = [] := drop_nil
  constructor
  · exact hlast
  · exact hwindow.symm ▸ hprev
  · intro t
    rw [value, hcount, hwindow]
    rfl
  · exact fun h => by cases h
  · exact fun _ => ⟨fun _ => rfl, fun t => by rw [hcount]; exact nofun⟩

theorem Inv.accept {d : Int → Int} (h : Inv n p σ d) (hn : 0 < n) (token : Int) :
    ∃ σ', σ.accept token = some σ' ∧ Inv n (p.step (.accept token)) σ' d := by
  obtain ⟨prev, hpush, hprev⟩ := h.prev.pushBack hn token
  rw [← window_concat] at hprev
  have hsz := h.prev.sz
  have hle := h.prev.le
  have hwindow := window_concat p.accepted token (n := n)
  have hpos : p.stale = false → ∀ k, 0 ≤ (σ.tokenCount k).getD 0 := fun hs k => by
    have hv := h.value k
    rw [(h.fresh hs).1 k] at hv
    change (σ.tokenCount k).getD 0 = _ at hv
    omega
  unfold Penalties.accept
  rw [if_neg (by rw [h.lastN]; omega)]
  by_cases hfull : (window n p.accepted).length = n
  · obtain ⟨old, rest, hold⟩ := exists_cons_of_length_pos (hfull ▸ hn)
    have hfront := h.prev.front
    rw [hold, head?_cons] at hfront
    rw [if_pos hfull, hold, cons_append, tail_cons] at hwindow
    rw [if_pos (by rw [h.lastN]; omega), hfront, Option.map_some, Option.bind_eq_bind, Option.bind_some, hpush]
    refine ⟨_, rfl, h.lastN, hprev, fun t => ?_, fun hs => ⟨by simp [Past.step], (h.stale hs).2⟩, fun hs => ⟨(h.fresh hs).1, fun t => ?_⟩⟩
    · have hv := h.value t
      rw [hold, count_cons] at hv
      change (decCount (incCount σ.tokenCount token) old t).getD 0 = _
      change (σ.tokenCount t).getD 0 = _ at hv
      rw [getD_decCount, getD_incCount, hv]
      change _ = ((window n (p.accepted ++ [token])).count t : Int) + d t
      rw [hwindow, count_append, count_singleton]
      simp only [beq_iff_eq]
      split <;> split <;> omega
    · exact decCount_ne_zero fun t => incCount_ne_zero (h.fresh hs).2 (hpos hs token)
  · rw [if_neg hfull] at hwindow
    rw [if_neg (by rw [h.lastN]; omega), Option.bind_eq_bind, Option.bind_some, hpush]
    refine ⟨_, rfl, h.lastN, hprev, fun t => ?_, fun hs => ⟨by simp [Past.step], (h.stale hs).2⟩, fun hs => ⟨(h.fresh hs).1, fun t => ?_⟩⟩
    · have hv := h.value t
      change (incCount σ.tokenCount token t).getD 0 = _
      change (σ.tokenCount t).getD 0 = _ at hv
      rw [getD_incCount, hv]
      change _ = ((window n (p.accepted ++ [token])).count t : Int) + d t
      rw [hwindow, count_append, count_singleton]
      simp only [beq_iff_eq]
      split <;> omega
    · exact incCount_ne_zero (h.fresh hs).2 (hpos hs token)

theorem holds_init (hn : 0 < n) : Holds (init n).prev n [] :=
  ⟨rfl, rfl, Nat.zero_le n, hn, (Nat.zero_mod n).symm, fun i v h => by cases h⟩

theorem Inv.clone {d : Int → Int} (h : Inv n p σ d) (hn : 0 < n) : ∃ d', Inv n (p.step .clone) σ.clone d' := by
  have hcount : ∀ t, σ.clone.value t = 0 := fun _ => rfl
  have hlen := length_window n p.accepted
  refine ⟨fun t => -((window n p.accepted).count t : Int), h.lastN, h.prev, fun t => ?_, fun hs => ?_, fun hs => ?_⟩
  · rw [hcount]
    exact (Int.add_right_neg _).symm
  · have hne : p.accepted ≠ [] := by
      rcases (or_eq_true _ _).mp hs with hs | hs
      · exact (h.stale hs).1
      · simpa using hs
    have hpos := length_pos_iff.mpr hne
    obtain ⟨t, rest, hold⟩ := exists_cons_of_length_pos (show 0 < (window n p.accepted).length by omega)
    refine ⟨hne, t, ?_⟩
    rw [hold, count_cons_self]
    omega
  · have hempty : p.accepted = [] := by
      simpa using (or_eq_false_iff.mp hs).2
    rw [hempty]
    exact ⟨fun t => by rw [window, drop_nil]; rfl, fun t => nofun⟩

theorem run_inv (hn : 0 < n) (ops : List Op) : ∃ σ d, run n ops = some σ ∧ Inv n (past ops) σ d := by
  induction ops using reverseRecOn with
  | nil => exact ⟨_, 0, rfl, inv_empty rfl (holds_init hn) rfl⟩
  | append_singleton ops op ih =>
    obtain ⟨σ, d, hrun, h⟩ := ih
    have hnext : run n (ops ++ [op]) = σ.step op := by
      unfold run at hrun ⊢
      rw [foldlM_append, hrun]
      exact bind_pure (σ.step op)
    have hpast : past (ops ++ [op]) = (past ops).step op := foldl_concat ..
    rw [hnext, hpast]
    cases op with
    | accept token =>
      obtain ⟨σ', hσ', h'⟩ := h.accept hn token
      exact ⟨σ', d, hσ', h'⟩
    | reset => exact ⟨_, 0, rfl, inv_empty h.lastN (h.prev.clear hn) rfl⟩
    | clone =>
      obtain ⟨d', h'⟩ := h.clone hn
      exact ⟨_, d', rfl, h'⟩

/-- The run ends, with the counts of its window. -/
def Counted (n : Nat) (ops : List Op) : Prop := ∃ σ ∈ run n ops, σ.CountsOf (window n (past ops).accepted)

theorem counted_iff_past (hn : 0 < n) (ops : List Op) : Counted n ops ↔ (past ops).stale = false := by
  obtain ⟨σ, d, hrun, h⟩ := run_inv hn ops
  constructor
  · rintro ⟨σ', hrun', hcount⟩
    obtain rfl : σ = σ' := Option.some.inj (hrun.symm.trans hrun')
    by_contra hs
    obtain ⟨-, t, ht⟩ := h.stale (by simpa using hs)
    have hv := h.value t
    rw [value, hcount t] at hv
    split at hv
    · next hzero =>
      rw [hzero] at hv
      exact ht (by simpa using hv.symm)
    · exact ht (by simpa using hv)
  · intro hs
    obtain ⟨hd, hne⟩ := h.fresh hs
    refine ⟨σ, hrun, fun t => ?_⟩
    have hv := h.value t
    rw [hd t, value] at hv
    cases hcount : σ.tokenCount t with
    | none =>
      rw [hcount] at hv
      rw [if_pos]
      exact (by simpa using hv.symm)
    | some v =>
      rw [hcount, Option.getD_some] at hv
      have hv0 : v ≠ 0 := fun h0 => hne t (h0 ▸ hcount)
      rw [if_neg (by omega)]
      exact congrArg some (by omega)

/-- Going on with a clone accepts the same tokens, and leaves less to be fresh. -/
theorem past_clone (ops cont : List Op) : (past (ops ++ .clone :: cont)).accepted = (past (ops ++ cont)).accepted ∧
    ((past (ops ++ .clone :: cont)).stale = false → (past (ops ++ cont)).stale = false) := by
  unfold past
  rw [foldl_append, foldl_append, foldl_cons]
  generalize hp : ops.foldl Past.step {} = p
  have hstart : (p.step .clone).accepted = p.accepted ∧ ((p.step .clone).stale = false → p.stale = false) :=
    ⟨rfl, fun h => (or_eq_false_iff.mp h).1⟩
  generalize p.step .clone = p' at hstart
  clear hp
  induction cont generalizing p p' with
  | nil => exact hstart
  | cons op cont ih =>
    refine ih _ _ ?_
    cases op with
    | accept token => exact ⟨congrArg (· ++ [token]) hstart.1, hstart.2⟩
    | reset => exact ⟨rfl, id⟩
    | clone => exact ⟨hstart.1, fun h => by
        obtain ⟨hs, he⟩ := or_eq_false_iff.mp h
        exact or_eq_false_iff.mpr ⟨hstart.2 hs, hstart.1 ▸ he⟩⟩

/-- Two runs do the same to all candidates. -/
def SamePenalties (n : Nat) (ops ops' : List Op) : Prop :=
  ∀ (F : Type) (penalize : Int → F → F) (cur : List (Int × F)),
    (run n ops).map (apply penalize · cur) = (run n ops').map (apply penalize · cur)

/-- The counts are right unless a clone was gone on with behind a token that still counts; a clone that is not does
what its original does. -/
theorem counted_iff (hn : 0 < n) (ops : List Op) : (Counted n ops ↔ (past ops).stale = false) ∧
    ∀ cont, (past (ops ++ .clone :: cont)).stale = false → SamePenalties n (ops ++ cont) (ops ++ .clone :: cont) := by
  refine ⟨counted_iff_past hn ops, fun cont hs F penalize cur => ?_⟩
  obtain ⟨hsame, hfresh⟩ := past_clone ops cont
  obtain ⟨σ, hrun, hcount⟩ := (counted_iff_past hn _).mpr (hfresh hs)
  obtain ⟨σ', hrun', hcount'⟩ := (counted_iff_past hn _).mpr hs
  obtain ⟨τ, _, hτ, h⟩ := run_inv hn (ops ++ cont)
  obtain ⟨τ', _, hτ', h'⟩ := run_inv hn (ops ++ .clone :: cont)
  obtain rfl : τ = σ := Option.some.inj (hτ.symm.trans hrun)
  obtain rfl : τ' = σ' := Option.some.inj (hτ'.symm.trans hrun')
  rw [hsame] at hcount'
  have hmap : τ.tokenCount = τ'.tokenCount := funext fun t => (hcount t).trans (hcount' t).symm
  rw [hτ, hτ', Option.map_some, Option.map_some, apply, apply, h.lastN, h'.lastN, hmap]

theorem counted_window : Counted 2 [.accept 5, .accept 5, .accept 7] := (counted_iff (by decide) _).1.mpr rfl

/-- The clone has forgotten the token. -/
theorem not_counted_clone : ¬Counted 2 [.accept 5, .clone] := by
  rintro ⟨σ, hrun, hcount⟩
  obtain rfl := Option.some.inj hrun
  have h5 : none = some (1 : Int) := hcount 5
  cases h5

end Penalties

end LlamaCpp
