import Mathlib.Data.List.Infix

/-!
# The longest suffix

The suffixes of a word are a chain, so at most one of them is the longest that has a property
`P` (`IsLongest`).  For a property that passes to prefixes, the longest suffix of `w ++ [a]` is
found from the one of `w` by falling back from a suffix `f` to the longest suffix of `f.tail`,
until `f ++ [a]` has the property (`Fallback`).
-/

namespace Suffixes

open List

universe u

variable {α : Type u} {P Q : List α → Prop} {w s f g x : List α} {a : α}

/-- `s` is the longest suffix of `w` that has the property. -/
structure IsLongest (P : List α → Prop) (w s : List α) : Prop where
  suffix : s <:+ w
  holds : P s
  longest : ∀ x, x <:+ w → P x → x.length ≤ s.length

/-- The property of a word passes to its prefixes. -/
structure PrefixClosed (P : List α → Prop) : Prop where
  nil : P []
  init : ∀ w a, P (w ++ [a]) → P w

theorem IsLongest.suffix_of (h : IsLongest P w s) (hx : x <:+ w) (hP : P x) : x <:+ s :=
  suffix_of_suffix_length_le hx h.suffix (h.longest x hx hP)

theorem IsLongest.unique (h : IsLongest P w s) (h' : IsLongest P w f) : s = f :=
  (h'.suffix_of h.suffix h.holds).eq_of_length
    (Nat.le_antisymm (h'.longest s h.suffix h.holds) (h.longest f h'.suffix h'.holds))

theorem isLongest_nil (h : P []) : IsLongest P [] [] :=
  ⟨suffix_rfl, h, fun x hx _ => by rw [suffix_nil.mp hx]⟩

theorem isLongest_self (h : P s) : IsLongest P s s :=
  ⟨suffix_rfl, h, fun _ hx _ => hx.length_le⟩

theorem suffix_tail_iff (hw : w ≠ []) : x <:+ w.tail ↔ x <:+ w ∧ x ≠ w := by
  cases w with
  | nil => exact absurd rfl hw
  | cons b w =>
    rw [tail_cons, suffix_cons_iff]
    constructor
    · intro hx
      refine ⟨.inr hx, ?_⟩
      rintro rfl
      have hle := hx.length_le
      rw [length_cons] at hle
      omega
    · rintro ⟨rfl | hx, hne⟩
      · exact absurd rfl hne
      · exact hx

/-! ## One more symbol -/

/-- No suffix of `w` that goes on with `a` is longer than `f`. -/
structure Fallback (P : List α → Prop) (w : List α) (a : α) (f : List α) : Prop where
  suffix : f <:+ w
  holds : P f
  longest : ∀ x, x <:+ w → P (x ++ [a]) → x.length ≤ f.length

theorem Fallback.start (hP : PrefixClosed P) (h : IsLongest P w s) (a : α) : Fallback P w a s :=
  ⟨h.suffix, h.holds, fun x hx hxa => h.longest x hx (hP.init x a hxa)⟩

/-- The longest suffix of the rest is the next to try. -/
theorem Fallback.fall (hP : PrefixClosed P) (h : Fallback P w a f) (hf : f ≠ [])
    (hno : ¬P (f ++ [a])) (hg : IsLongest P f.tail g) : Fallback P w a g := by
  have hgf : g <:+ f := ((suffix_tail_iff hf).mp hg.suffix).1
  refine ⟨hgf.trans h.suffix, hg.holds, fun x hx hxa => ?_⟩
  have hxf : x <:+ f := suffix_of_suffix_length_le hx h.suffix (h.longest x hx hxa)
  have hne : x ≠ f := by
    rintro rfl
    exact hno hxa
  exact hg.longest x ((suffix_tail_iff hf).mpr ⟨hxf, hne⟩) (hP.init x a hxa)

theorem Fallback.found (h : Fallback P w a f) (hyes : P (f ++ [a])) : IsLongest P (w ++ [a]) (f ++ [a]) := by
  refine ⟨suffix_concat_iff.mpr (.inr ⟨f, rfl, h.suffix⟩), hyes, fun x hx hPx => ?_⟩
  rcases suffix_concat_iff.mp hx with rfl | ⟨y, rfl, hy⟩
  · exact Nat.zero_le _
  · have hle := h.longest y hy hPx
    simpa using hle

theorem Fallback.root (hP : PrefixClosed P) (h : Fallback P w a []) (hno : ¬P [a]) : IsLongest P (w ++ [a]) [] := by
  refine ⟨nil_suffix, hP.nil, fun x hx hPx => ?_⟩
  rcases suffix_concat_iff.mp hx with rfl | ⟨y, rfl, hy⟩
  · exact Nat.le_refl _
  · have hle := h.longest y hy hPx
    rw [eq_nil_of_length_eq_zero (Nat.le_zero.mp hle)] at hPx
    exact absurd hPx hno

/-! ## Words of a smaller set -/

/-- A property that implies `P` is looked for in the longest suffix with `P`. -/
theorem IsLongest.isLongest_iff (h : IsLongest P w s) (hQ : ∀ x, Q x → P x) : IsLongest Q w x ↔ IsLongest Q s x := by
  constructor
  · intro hx
    exact ⟨h.suffix_of hx.suffix (hQ x hx.holds), hx.holds, fun y hy hQy => hx.longest y (hy.trans h.suffix) hQy⟩
  · intro hx
    exact ⟨hx.suffix.trans h.suffix, hx.holds, fun y hy hQy => hx.longest y (h.suffix_of hy (hQ y hQy)) hQy⟩

theorem IsLongest.forall_not_iff (h : IsLongest P w s) (hQ : ∀ x, Q x → P x) :
    (∀ x, x <:+ w → ¬Q x) ↔ ∀ x, x <:+ s → ¬Q x := by
  constructor
  · exact fun hno x hx => hno x (hx.trans h.suffix)
  · exact fun hno x hx hQx => hno x (h.suffix_of hx (hQ x hQx)) hQx

theorem isLongest_tail_iff (hs : s ≠ []) (hno : ¬Q s) : IsLongest Q s x ↔ IsLongest Q s.tail x := by
  have hother : ∀ {y}, Q y → (y <:+ s ↔ y <:+ s.tail) := by
    intro y hy
    rw [suffix_tail_iff hs]
    refine ⟨fun h => ⟨h, ?_⟩, And.left⟩
    rintro rfl
    exact hno hy
  constructor
  · intro h
    exact ⟨(hother h.holds).mp h.suffix, h.holds, fun y hy hQy => h.longest y ((hother hQy).mpr hy) hQy⟩
  · intro h
    exact ⟨(hother h.holds).mpr h.suffix, h.holds, fun y hy hQy => h.longest y ((hother hQy).mp hy) hQy⟩

theorem forall_not_tail_iff (hs : s ≠ []) (hno : ¬Q s) : (∀ x, x <:+ s → ¬Q x) ↔ ∀ x, x <:+ s.tail → ¬Q x := by
  constructor
  · exact fun h x hx => h x ((suffix_tail_iff hs).mp hx).1
  · intro h x hx hQx
    refine h x ((suffix_tail_iff hs).mpr ⟨hx, ?_⟩) hQx
    rintro rfl
    exact hno hQx

end Suffixes
