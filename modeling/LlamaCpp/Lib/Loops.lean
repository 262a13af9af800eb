import Mathlib.Data.List.Nodup

/-!
# Loops

`foldl_range_inv` is the invariant rule for `for i in 0..n`: the invariant may mention
how many iterations are done.  `foldlM_inv` is the one for a loop that may stop; with
`foldlM_rest` the invariant may mention what is left to do, with `foldlM_zipIdx` the index, and
`foldlM_ok` shows that it does not stop.
`mapM_eq_some` describes a loop that collects results.

The rest is about loops that rewrite one place per iteration.  A state `σ` is looked
at through `view : σ → κ → α`, which gives the content of every place.
`RewritesAt view k f s s'` says that the step from `s` to `s'` applies `f` to the
content of place `k` and leaves every other place alone.  A loop whose iterations rewrite distinct places rewrites each of them once
(`foldl_view_of_mem`) and no other (`foldl_view_of_notMem`).
-/

namespace Loops

open List Option Function

universe u v w

variable {σ : Type u} {κ : Type v} {α : Type w} {ι : Type*}

/-- The invariant rule for a counted loop. -/
theorem foldl_range_inv {step : σ → Nat → σ} {I : Nat → σ → Prop} {n : Nat} {s : σ} (h0 : I 0 s)
    (hstep : ∀ i < n, ∀ s, I i s → I (i + 1) (step s i)) : I n ((List.range n).foldl step s) := by
  induction n with
  | zero => exact h0
  | succ n ih =>
    rw [range_succ, foldl_append]
    exact hstep n (Nat.lt_succ_self n) _ (ih fun i hi => hstep i (Nat.lt_succ_of_lt hi))

/-- The invariant rule for a loop that may stop without a result. -/
theorem foldlM_inv {step : σ → ι → Option σ} {I : σ → Prop} {xs : List ι} {s s' : σ} (hs : I s)
    (hstep : ∀ x ∈ xs, ∀ s s', I s → step s x = some s' → I s')
    (hrun : xs.foldlM step s = some s') : I s' := by
  induction xs generalizing s with
  | nil =>
    obtain rfl : s = s' := by simpa using hrun
    exact hs
  | cons x xs ih =>
    rw [foldlM_cons] at hrun
    obtain ⟨s₁, hone, hrest⟩ := bind_eq_some_iff.mp hrun
    exact ih (hstep x mem_cons_self s s₁ hs hone)
      (fun y hy => hstep y (mem_cons_of_mem _ hy)) hrest

/-- The invariant rule for a loop that may stop, with the elements that are left. -/
theorem foldlM_rest {step : σ → ι → Option σ} {I : List ι → σ → Prop} {xs : List ι} {s s' : σ}
    (hs : I xs s) (hstep : ∀ x rest s s', I (x :: rest) s → step s x = some s' → I rest s')
    (hrun : xs.foldlM step s = some s') : I [] s' := by
  induction xs generalizing s with
  | nil =>
    obtain rfl : s = s' := by simpa using hrun
    exact hs
  | cons x xs ih =>
    rw [foldlM_cons] at hrun
    obtain ⟨s₁, hone, hrest⟩ := bind_eq_some_iff.mp hrun
    exact ih (hstep x xs s s₁ hs hone) hrest

/-- The invariant rule for a loop over a list with the indices. -/
theorem foldlM_zipIdx {step : σ → ι × Nat → Option σ} {I : Nat → σ → Prop} {xs : List ι} {s s' : σ}
    (h0 : I 0 s)
    (hstep : ∀ i x, xs[i]? = some x → ∀ s s', I i s → step s (x, i) = some s' → I (i + 1) s')
    (hrun : xs.zipIdx.foldlM step s = some s') : I xs.length s' := by
  have hrest : ∃ i ≤ xs.length, ([] : List (ι × Nat)) = (xs.drop i).zipIdx i ∧ I i s' := by
    refine foldlM_rest (I := fun rest s => ∃ i ≤ xs.length, rest = (xs.drop i).zipIdx i ∧ I i s)
      ⟨0, Nat.zero_le _, rfl, h0⟩ ?_ hrun
    rintro x rest s s' ⟨i, -, hrest, hI⟩ hone
    rcases Nat.lt_or_ge i xs.length with hi | hi
    · rw [drop_eq_getElem_cons hi, zipIdx_cons] at hrest
      obtain ⟨rfl, rfl⟩ := List.cons.inj hrest
      exact ⟨i + 1, hi, rfl, hstep i xs[i] (getElem?_eq_getElem hi) s s' hI hone⟩
    · rw [drop_eq_nil_of_le hi] at hrest
      cases hrest
  obtain ⟨i, hle, hnil, hI⟩ := hrest
  have hlen := congrArg List.length hnil
  rw [length_nil, length_zipIdx, length_drop] at hlen
  obtain rfl : i = xs.length := by omega
  exact hI

/-- A loop over a list that may stop does not stop. -/
theorem foldlM_ok (step : σ → ι → Option σ) (xs : List ι) {I : Nat → σ → Prop} {s : σ} (h0 : I 0 s)
    (hstep : ∀ i x, xs[i]? = some x → ∀ s, I i s → ∃ s', step s x = some s' ∧ I (i + 1) s') :
    ∃ s', xs.foldlM step s = some s' ∧ I xs.length s' := by
  induction xs generalizing s I with
  | nil => exact ⟨s, rfl, h0⟩
  | cons x xs ih =>
    obtain ⟨s₁, hone, hI⟩ := hstep 0 x rfl s h0
    obtain ⟨s₂, hrest, hI'⟩ := ih (I := fun i => I (i + 1)) hI fun i y hy => hstep (i + 1) y hy
    refine ⟨s₂, ?_, hI'⟩
    rw [foldlM_cons, hone]
    exact hrest

/-- A loop over a list that leaves the state as it was -/
theorem foldlM_bind_fixed {τ : Type u} {step : σ → ι → Option σ} {xs : List ι} {s : σ} {f : σ → Option τ}
    (hstep : ∀ x ∈ xs, step s x = some s) : (xs.foldlM step s >>= f) = f s := by
  obtain ⟨s', hrun, rfl⟩ := foldlM_ok step xs (I := fun _ t => t = s) rfl fun i x hx t ht =>
    ⟨s, ht ▸ hstep x (mem_of_getElem? hx), rfl⟩
  rw [hrun]
  rfl

/-- A loop that collects results, in terms of the results. -/
theorem mapM_eq_some {f : ι → Option α} {xs : List ι} {ys : List α} :
    xs.mapM f = some ys ↔ List.Forall₂ (fun x y => f x = some y) xs ys := by
  induction xs generalizing ys with
  | nil =>
    rw [mapM_nil, forall₂_nil_left_iff]
    exact ⟨fun h => (some.inj h).symm, fun h => congrArg some h.symm⟩
  | cons x xs ih =>
    rw [mapM_cons, forall₂_cons_left_iff]
    constructor
    · intro h
      obtain ⟨y, hy, h⟩ := bind_eq_some_iff.mp h
      obtain ⟨zs, hzs, h⟩ := bind_eq_some_iff.mp h
      exact ⟨y, zs, hy, ih.mp hzs, (some.inj h).symm⟩
    · rintro ⟨y, zs, hy, hzs, rfl⟩
      rw [hy, ih.mpr hzs]
      rfl

/-- A counted loop that may stop does not stop. -/
theorem foldlM_range_ok {step : σ → Nat → Option σ} {I : Nat → σ → Prop} {n : Nat} {s : σ}
    (h0 : I 0 s) (hstep : ∀ i < n, ∀ s, I i s → ∃ s', step s i = some s' ∧ I (i + 1) s') :
    ∃ s', (List.range n).foldlM step s = some s' ∧ I n s' := by
  induction n with
  | zero => exact ⟨s, rfl, h0⟩
  | succ n ih =>
    obtain ⟨s₁, hrun, hI⟩ := ih fun i hi => hstep i (Nat.lt_succ_of_lt hi)
    obtain ⟨s₂, hone, hI'⟩ := hstep n (Nat.lt_succ_self n) s₁ hI
    refine ⟨s₂, ?_, hI'⟩
    rw [range_succ, foldlM_append, hrun]
    simpa using hone

/-- The step applies `f` to place `k` and leaves the other places alone. -/
structure RewritesAt (view : σ → κ → α) (k : κ) (f : α → α) (s s' : σ) : Prop where
  /-- What happens at the place. -/
  here : view s' k = f (view s k)
  /-- What happens elsewhere. -/
  elsewhere : ∀ k' ≠ k, view s' k' = view s k'

variable (view : σ → κ → α) (key : ι → κ) {f : ι → α → α} {step : σ → ι → σ}

/-- A place that no iteration names keeps its content. -/
theorem foldl_view_of_notMem (hstep : ∀ s x, RewritesAt view (key x) (f x) s (step s x))
    {k : κ} {xs : List ι} (hk : k ∉ xs.map key) (s : σ) :
    view (xs.foldl step s) k = view s k := by
  induction xs generalizing s with
  | nil => rfl
  | cons x xs ih =>
    simp only [map_cons, mem_cons, not_or] at hk
    rw [foldl_cons, ih hk.2, (hstep s x).elsewhere k hk.1]

/-- A place named by one iteration is rewritten by it. -/
theorem foldl_view_of_mem (hstep : ∀ s x, RewritesAt view (key x) (f x) s (step s x))
    {x : ι} {xs : List ι} (hnd : (xs.map key).Nodup) (hx : x ∈ xs) (s : σ) :
    view (xs.foldl step s) (key x) = f x (view s (key x)) := by
  induction xs generalizing s with
  | nil => exact absurd hx not_mem_nil
  | cons y xs ih =>
    rw [map_cons, nodup_cons] at hnd
    rw [foldl_cons]
    rcases mem_cons.mp hx with rfl | hx
    · rw [foldl_view_of_notMem view key hstep hnd.1, (hstep s x).here]
    · have hne : key x ≠ key y := fun h => hnd.1 (h ▸ List.mem_map_of_mem hx)
      rw [ih hnd.2 hx, (hstep s y).elsewhere _ hne]

/-- A function that a loop updates at a different argument in every iteration. -/
theorem foldl_update_of_mem [DecidableEq κ] (key : ι → κ) (value : ι → α) {x : ι} {xs : List ι}
    (hnd : (xs.map key).Nodup) (hx : x ∈ xs) (g : κ → α) :
    xs.foldl (fun g x => Function.update g (key x) (value x)) g (key x) = value x :=
  foldl_view_of_mem (f := fun x _ => value x) (fun g k => g k) key
    (fun _ _ => ⟨update_self .., fun _ hne => update_of_ne hne ..⟩) hnd hx g

theorem foldl_update_of_notMem [DecidableEq κ] (key : ι → κ) (value : ι → α) {k : κ} {xs : List ι}
    (hk : k ∉ xs.map key) (g : κ → α) :
    xs.foldl (fun g x => Function.update g (key x) (value x)) g k = g k :=
  foldl_view_of_notMem (f := fun x _ => value x) (fun g k => g k) key
    (fun _ _ => ⟨update_self .., fun _ hne => update_of_ne hne ..⟩) hk g

/-- A loop over `0, ..., n - 1` that rewrites place `i` in iteration `i`. -/
theorem foldl_range_view_at (view : σ → Nat → α) {g : Nat → α → α} {step : σ → Nat → σ}
    (hstep : ∀ s i, RewritesAt view i (g i) s (step s i)) (n i : Nat) (s : σ) :
    view ((List.range n).foldl step s) i = if i < n then g i (view s i) else view s i := by
  have hid : (List.range n).map id = List.range n := List.map_id _
  by_cases hi : i < n
  · rw [if_pos hi]
    exact foldl_view_of_mem view id (f := g) hstep (hid.symm ▸ nodup_range)
      (mem_range.mpr hi) s
  · rw [if_neg hi]
    exact foldl_view_of_notMem view id (f := g) hstep (hid.symm ▸ fun h => hi (mem_range.mp h)) s

/-- A loop over `0, ..., n - 1` that treats every place alike. -/
theorem foldl_range_view (view : σ → Nat → α) {g : α → α} {step : σ → Nat → σ}
    (hstep : ∀ s i, RewritesAt view i g s (step s i)) (n i : Nat) (s : σ) :
    view ((List.range n).foldl step s) i = if i < n then g (view s i) else view s i :=
  foldl_range_view_at view (g := fun _ => g) hstep n i s

/-- A list read by index. -/
theorem map_getD_range (l : List α) (d : α) : ((List.range l.length).map fun i => l.getD i d) = l :=
  ext_getElem (by simp) fun i _ hi => by simp [hi]

end Loops
