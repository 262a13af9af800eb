import Mathlib

/-!
# Computations with random draws

A `Draw` is given by the expectation of every payoff of its outcome.  Draws from a finite list of weights
and from the unit interval are put together in the monad of expectations.
-/

namespace LlamaCpp

open List

universe u

/-- The expectation of every payoff. -/
def Draw (α : Type u) := (α → ℝ) → ℝ

namespace Draw

instance : Monad Draw where
  pure a := fun f => f a
  bind m k := fun f => m fun a => k a f

variable {α β : Type u} {m : Draw α}

@[simp] theorem bind_apply (m : Draw α) (k : α → Draw β) (f : β → ℝ) : (m >>= k) f = m fun a => k a f := rfl

@[simp] theorem map_apply (g : α → β) (m : Draw α) (f : β → ℝ) : (g <$> m) f = m fun a => f (g a) := rfl

/-- A draw from finitely many weights; an outcome may be there more than once. -/
noncomputable def weighted (atoms : List (α × ℚ)) : Draw α := fun f => (atoms.map fun e => (e.2 : ℝ) * f e.1).sum

/-- A draw from the unit interval without its end. -/
noncomputable def uniform : Draw ℝ := fun f => ∫ u in Set.Ico (0 : ℝ) 1, f u

open Classical in
noncomputable def prob (m : Draw α) (event : α → Prop) : ℝ := m fun a => if event a then 1 else 0

/-! ## Constant factors and summands -/

/-- A finite draw of weight one. -/
def Affine (m : Draw α) : Prop := ∀ (x y : ℝ) (f : α → ℝ), m (fun a => x * f a + y) = x * m f + y

theorem affine_pure (a : α) : Affine (pure a : Draw α) := fun _ _ _ => rfl

theorem Affine.bind {k : α → Draw β} (hm : Affine m) (hk : ∀ a, Affine (k a)) : Affine (m >>= k) := by
  intro x y f
  rw [bind_apply, funext fun a => hk a x y f]
  exact hm x y _

theorem Affine.map (hm : Affine m) (g : α → β) : Affine (g <$> m) := fun x y f => hm x y fun a => f (g a)

theorem affine_weighted {atoms : List (α × ℚ)} (htotal : (atoms.map Prod.snd).sum = 1) : Affine (weighted atoms) := by
  intro x y f
  have hsum : (weighted atoms fun a => x * f a + y) = x * weighted atoms f + ((atoms.map Prod.snd).sum : ℚ) * y := by
    clear htotal
    induction atoms with
    | nil => simp [weighted]
    | cons e atoms ih =>
      unfold weighted at ih ⊢
      rw [map_cons, sum_cons, ih, map_cons, sum_cons, map_cons, sum_cons]
      push_cast
      ring
  rw [hsum, htotal, Rat.cast_one, one_mul]

theorem Affine.const (hm : Affine m) (y : ℝ) : (m fun _ => y) = y := by
  have h := hm 0 y fun _ => 0
  simpa only [zero_mul, zero_add] using h

theorem Affine.mul (hm : Affine m) (x : ℝ) (f : α → ℝ) : (m fun a => x * f a) = x * m f := by
  have h := hm x 0 f
  simpa only [add_zero] using h

/-! ## The weights as a function -/

section Mass

variable [DecidableEq α] {atoms : List (α × ℚ)}

/-- The weight of an outcome. -/
def mass (atoms : List (α × ℚ)) (a : α) : ℚ := (atoms.map fun e => if e.1 = a then e.2 else 0).sum

theorem mass_cons (e : α × ℚ) (atoms : List (α × ℚ)) (a : α) :
    mass (e :: atoms) a = (if e.1 = a then e.2 else 0) + mass atoms a := sum_cons

theorem mass_nonneg (h : ∀ e ∈ atoms, 0 ≤ e.2) (a : α) : 0 ≤ mass atoms a := by
  refine sum_nonneg fun w hw => ?_
  obtain ⟨e, he, rfl⟩ := List.mem_map.mp hw
  show 0 ≤ if e.1 = a then e.2 else 0
  split
  · exact h e he
  · exact le_rfl

theorem mass_eq_zero {a : α} (h : a ∉ atoms.map Prod.fst) : mass atoms a = 0 := by
  refine sum_eq_zero fun w hw => ?_
  obtain ⟨e, he, rfl⟩ := List.mem_map.mp hw
  refine if_neg fun heq => h ?_
  rw [← heq]
  exact List.mem_map_of_mem he

theorem weighted_eq_sum {s : Finset α} (hs : ∀ e ∈ atoms, e.1 ∈ s) (f : α → ℝ) :
    weighted atoms f = ∑ a ∈ s, (mass atoms a : ℝ) * f a := by
  induction atoms with
  | nil => simp [weighted, mass]
  | cons e atoms ih =>
    have hhead : ∑ a ∈ s, ((if e.1 = a then e.2 else 0 : ℚ) : ℝ) * f a = (e.2 : ℝ) * f e.1 := by
      rw [Finset.sum_eq_single e.1]
      · rw [if_pos rfl]
      · intro a _ hne
        rw [if_neg (Ne.symm hne), Rat.cast_zero, zero_mul]
      · exact fun hout => absurd (hs e mem_cons_self) hout
    have htail : weighted (e :: atoms) f = (e.2 : ℝ) * f e.1 + weighted atoms f := sum_cons
    rw [htail, ih fun e' he' => hs e' (mem_cons_of_mem e he'), ← hhead, ← Finset.sum_add_distrib]
    refine Finset.sum_congr rfl fun a _ => ?_
    rw [mass_cons, Rat.cast_add, add_mul]

end Mass

/-! ## A comparison with a uniform draw -/

/-- How often a uniform draw, scaled to one weight, is within another. -/
noncomputable def chance (q p : ℝ) : ℝ := if 0 < q then min 1 (p / q) else 0

open Classical in
theorem uniform_le (r x y : ℝ) (hr : 0 ≤ r) :
    (uniform fun u => if u ≤ r then x else y) = min 1 r * x + (1 - min 1 r) * y := by
  have hsplit (u : ℝ) : (if u ≤ r then x else y) = y + (Set.Iic r).indicator (fun _ => x - y) u := by
    rw [Set.indicator_apply]
    by_cases hu : u ≤ r
    · rw [if_pos hu, if_pos (Set.mem_Iic.mpr hu)]
      ring
    · rw [if_neg hu, if_neg (mt Set.mem_Iic.mp hu), add_zero]
  have hlength : MeasureTheory.volume.real (Set.Iic r ∩ Set.Ico (0 : ℝ) 1) = min 1 r := by
    rcases lt_or_ge r 1 with hlt | hge
    · have hset : Set.Iic r ∩ Set.Ico (0 : ℝ) 1 = Set.Icc 0 r := by
        ext u
        simp only [Set.mem_inter_iff, Set.mem_Iic, Set.mem_Ico, Set.mem_Icc]
        exact ⟨fun h => ⟨h.2.1, h.1⟩, fun h => ⟨h.2, h.1, h.2.trans_lt hlt⟩⟩
      rw [hset, Real.volume_real_Icc_of_le hr, sub_zero, min_eq_right hlt.le]
    · have hset : Set.Iic r ∩ Set.Ico (0 : ℝ) 1 = Set.Ico 0 1 :=
        Set.inter_eq_right.mpr fun u hu => hu.2.le.trans hge
      rw [hset, Real.volume_real_Ico_of_le zero_le_one, sub_zero, min_eq_left hge]
  unfold uniform
  rw [funext hsplit, MeasureTheory.integral_add, MeasureTheory.integral_indicator measurableSet_Iic,
    MeasureTheory.setIntegral_const, MeasureTheory.setIntegral_const, MeasureTheory.measureReal_restrict_apply measurableSet_Iic]
  · rw [hlength, Real.volume_real_Ico_of_le zero_le_one]
    simp only [smul_eq_mul]
    ring
  · exact MeasureTheory.integrable_const y
  · exact (MeasureTheory.integrable_const (x - y)).indicator measurableSet_Iic

open Classical in
theorem uniform_accept {q p : ℝ} (hp : 0 ≤ p) (x y : ℝ) :
    (uniform fun u => if 0 < q ∧ u * q ≤ p then x else y) = chance q p * x + (1 - chance q p) * y := by
  unfold chance
  by_cases hq : 0 < q
  · rw [if_pos hq, ← uniform_le (p / q) x y (div_nonneg hp hq.le)]
    simp only [hq, true_and, le_div_iff₀ hq]
  · rw [if_neg hq]
    simp only [hq, false_and, if_false, zero_mul, zero_add, sub_zero, one_mul]
    simp [uniform]

theorem mul_chance {q p : ℝ} (hq : 0 ≤ q) (hp : 0 ≤ p) : q * chance q p = min q p := by
  unfold chance
  split
  · next hpos => rw [mul_min_of_nonneg _ _ hq, mul_one, mul_div_cancel₀ p hpos.ne']
  · next hzero =>
      obtain rfl := le_antisymm (not_lt.mp hzero) hq
      rw [zero_mul, min_eq_left hp]

/-! ## Maximal coupling -/

/-- A proposal that is kept as often as the target allows, and is replaced by what the target has left over, gives the
target.  `rest` is the replacement, scaled to the weight that is left over. -/
theorem sum_coupling {s : Finset α} {q p f : α → ℝ} {rest : ℝ} (hq : ∀ a, 0 ≤ q a) (hp : ∀ a, 0 ≤ p a)
    (hsum : ∑ a ∈ s, q a = ∑ a ∈ s, p a)
    (hrest : (∑ a ∈ s, max 0 (p a - q a)) * rest = ∑ a ∈ s, max 0 (p a - q a) * f a) :
    ∑ a ∈ s, q a * (chance (q a) (p a) * f a + (1 - chance (q a) (p a)) * rest) = ∑ a ∈ s, p a * f a := by
  have hover (a : α) : p a - min (q a) (p a) = max 0 (p a - q a) := by
    rcases le_total (q a) (p a) with hle | hle
    · rw [min_eq_left hle, max_eq_right (sub_nonneg.mpr hle)]
    · rw [min_eq_right hle, max_eq_left (sub_nonpos.mpr hle), sub_self]
  have hleft : ∑ a ∈ s, (q a - min (q a) (p a)) = ∑ a ∈ s, max 0 (p a - q a) := by
    rw [Finset.sum_sub_distrib, hsum, ← Finset.sum_sub_distrib]
    exact Finset.sum_congr rfl fun a _ => hover a
  calc
    _ = ∑ a ∈ s, (min (q a) (p a) * f a + (q a - min (q a) (p a)) * rest) := by
        refine Finset.sum_congr rfl fun a _ => ?_
        rw [← mul_chance (hq a) (hp a)]
        ring
    _ = ∑ a ∈ s, min (q a) (p a) * f a + ∑ a ∈ s, max 0 (p a - q a) * f a := by
        rw [Finset.sum_add_distrib, ← Finset.sum_mul, hleft, hrest]
    _ = _ := by
        rw [← Finset.sum_add_distrib]
        refine Finset.sum_congr rfl fun a _ => ?_
        rw [← hover]
        ring

end Draw

end LlamaCpp
