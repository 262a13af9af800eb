import Mathlib.Order.Interval.Set.OrdConnected

/-!
# Sets without gaps

A subset of a linear order has no gaps if it is order connected.  A set without gaps
stays so when its lower part is cut off (`ordConnected_above`) and when a set without
gaps is attached right behind its greatest element (`ordConnected_attach`).
-/

namespace Intervals

universe u

variable {α : Type u} [LinearOrder α] {S T : Set α} {a b : α}

/-- Cut off everything up to `a`. -/
theorem ordConnected_above (hS : S.OrdConnected) (a : α) : {x ∈ S | a < x}.OrdConnected :=
  hS.inter Set.ordConnected_Ioi

/-- Attach `T` behind `S`: the least element of `T` covers the greatest of `S`. -/
theorem ordConnected_attach (hS : S.OrdConnected) (hT : T.OrdConnected) (ha : IsGreatest S a)
    (hb : IsLeast T b) (hab : a ⋖ b) : (S ∪ T).OrdConnected := by
  refine ⟨?_⟩
  rintro x (hx | hx) y (hy | hy) z ⟨hxz, hzy⟩
  · exact .inl (hS.out hx hy ⟨hxz, hzy⟩)
  · rcases le_or_gt z a with hza | hza
    · exact .inl (hS.out hx ha.1 ⟨hxz, hza⟩)
    · exact .inr (hT.out hb.1 hy ⟨not_lt.mp (hab.2 hza), hzy⟩)
  · have hba : b ≤ a := ((hb.2 hx).trans hxz).trans (hzy.trans (ha.2 hy))
    exact absurd hab.1 (not_lt.mpr hba)
  · exact .inr (hT.out hx hy ⟨hxz, hzy⟩)

/-- Cut off the lower part of a set and attach another behind it.  If the cut removes
everything, or if nothing is attached, there is nothing to join. -/
theorem ordConnected_slide (hS : S.OrdConnected) (hT : T.OrdConnected) (m : α)
    (hjoin : ∀ x ∈ S, T.Nonempty → ∃ a b, IsGreatest S a ∧ IsLeast T b ∧ a ⋖ b) :
    ({x ∈ S | m < x} ∪ T).OrdConnected := by
  rcases Set.eq_empty_or_nonempty {x ∈ S | m < x} with hempty | ⟨x, hx, hmx⟩
  · rw [hempty, Set.empty_union]
    exact hT
  rcases Set.eq_empty_or_nonempty T with rfl | hne
  · rw [Set.union_empty]
    exact ordConnected_above hS m
  obtain ⟨a, b, ha, hb, hab⟩ := hjoin x hx hne
  refine ordConnected_attach (ordConnected_above hS m) hT ⟨⟨ha.1, hmx.trans_le (ha.2 hx)⟩, ?_⟩ hb hab
  exact fun y hy => ha.2 hy.1

end Intervals
