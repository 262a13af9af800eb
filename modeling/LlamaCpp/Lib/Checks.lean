import Mathlib.Data.List.Forall2

/-!
# Checks that may throw

A check is a computation in `Except`.  The rules say when a sequence, a loop that collects
results and a counted loop return.  `Ends good bad` says what holds of the outcome, for a loop with
what holds in front of every iteration.
-/

namespace Checks

open List

universe u v

variable {ε : Type u} {α β ι : Type v}

variable {f : α → Except ε β}

theorem bind_eq_ok {x : Except ε α} {b : β} : (x >>= f) = .ok b ↔ ∃ a, x = .ok a ∧ f a = .ok b := by
  cases x with
  | error e =>
    constructor
    · intro h
      cases h
    · rintro ⟨a, h, -⟩
      cases h
  | ok a => exact ⟨fun h => ⟨a, rfl, h⟩, fun ⟨_, h, h'⟩ => Except.ok.inj h ▸ h'⟩

theorem bind_ok {x : Except ε α} {a : α} (h : x = .ok a) : (x >>= f) = f a := by
  rw [h]
  rfl

theorem pure_eq_ok {a b : α} : (pure a : Except ε α) = .ok b ↔ a = b :=
  ⟨fun h => Except.ok.inj h, fun h => congrArg Except.ok h⟩

theorem mapError_eq_ok {ε' : Type u} {x : Except ε α} {f : ε → ε'} {a : α} : x.mapError f = .ok a ↔ x = .ok a := by
  cases x with
  | error e =>
    constructor
    · intro h
      cases h
    · intro h
      cases h
  | ok b => exact ⟨fun h => congrArg _ (Except.ok.inj h), fun h => congrArg _ (Except.ok.inj h)⟩

/-- A loop that collects results, in terms of the results. -/
theorem mapM_eq_ok {f : ι → Except ε α} {xs : List ι} {ys : List α} :
    xs.mapM f = .ok ys ↔ List.Forall₂ (fun x y => f x = .ok y) xs ys := by
  induction xs generalizing ys with
  | nil =>
    rw [mapM_nil, forall₂_nil_left_iff, pure_eq_ok]
    exact eq_comm
  | cons x xs ih =>
    rw [mapM_cons, forall₂_cons_left_iff, bind_eq_ok]
    constructor
    · rintro ⟨y, hy, h⟩
      obtain ⟨zs, hzs, h⟩ := bind_eq_ok.mp h
      exact ⟨y, zs, hy, ih.mp hzs, (pure_eq_ok.mp h).symm⟩
    · rintro ⟨y, zs, hy, hzs, rfl⟩
      exact ⟨y, hy, bind_eq_ok.mpr ⟨zs, ih.mpr hzs, rfl⟩⟩

/-- A loop whose iterations return. -/
theorem mapM_ok {f : ι → Except ε α} {g : ι → α} {xs : List ι} (h : ∀ x ∈ xs, f x = .ok (g x)) :
    xs.mapM f = .ok (xs.map g) := by
  rw [mapM_eq_ok, forall₂_map_right_iff, forall₂_same]
  exact h

/-- A counted loop that carries a state. -/
theorem foldlM_range_ok {σ : Type v} {step : σ → Nat → Except ε σ} {s : Nat → σ} {n : Nat}
    (hstep : ∀ i < n, step (s i) i = .ok (s (i + 1))) :
    (List.range n).foldlM step (s 0) = .ok (s n) := by
  induction n with
  | zero => rfl
  | succ n ih =>
    rw [range_succ, foldlM_append,
      bind_ok (ih fun i hi => hstep i (Nat.lt_succ_of_lt hi)), foldlM_cons,
      bind_ok (hstep n (Nat.lt_succ_self n))]
    rfl

/-! ## Outcomes -/

section Ends

variable {good good' : α → Prop} {bad : ε → Prop} {x : Except ε α}

/-- `good` holds where a computation returns, and `bad` where it throws. -/
def Ends (good : α → Prop) (bad : ε → Prop) : Except ε α → Prop
  | .ok a => good a
  | .error e => bad e

theorem Ends.bind {post : β → Prop} (hx : Ends good bad x)
    (hf : ∀ a, good a → Ends post bad (f a)) : Ends post bad (x >>= f) := by
  cases x with
  | error e => exact hx
  | ok a => exact hf a hx

theorem Ends.mono (h : Ends good bad x) (hgood : ∀ a, good a → good' a) : Ends good' bad x := by
  cases x with
  | error e => exact h
  | ok a => exact hgood a h

theorem Ends.of_ok {a : α} (h : Ends good bad x) (hx : x = .ok a) : good a := by
  subst hx
  exact h

theorem Ends.of_error {e : ε} (h : Ends good bad x) (hx : x = .error e) : bad e := by
  subst hx
  exact h

/-- Where nothing may be thrown, the computation returns. -/
theorem Ends.returns (h : Ends good bad x) (hbad : ∀ e, ¬bad e) : ∃ a, x = .ok a ∧ good a := by
  cases x with
  | error e => exact absurd h (hbad e)
  | ok a => exact ⟨a, rfl, h⟩

/-- A loop, with what holds in front of every iteration; `I` may speak of what is left of the list. -/
theorem ends_foldlM {σ : Type v} {step : σ → ι → Except ε σ} {I : List ι → σ → Prop}
    (hstep : ∀ i is s, I (i :: is) s → Ends (I is) bad (step s i)) {is : List ι} {s : σ} (hs : I is s) :
    Ends (I []) bad (is.foldlM step s) := by
  induction is generalizing s with
  | nil => exact hs
  | cons i is ih =>
    rw [foldlM_cons]
    exact (hstep i is s hs).bind fun s' hs' => ih hs'

end Ends

end Checks
