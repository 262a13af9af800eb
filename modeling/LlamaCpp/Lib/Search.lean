import Mathlib.Data.List.Infix

/-!
# Occurrences of a word in a text

`OccursAt w s i` says that the word `w` stands in the text `s` at place `i`, `findFrom` looks for the first such
place from a given one on, and `Overhangs w s i` says that the text ends in the middle of an occurrence at `i`.

An occurrence in a text that is appended to is old, or starts where the old text overhangs, or is behind it
(`OccursAt.of_append`).
-/

namespace Search

open List

universe u

variable {α : Type u} {w s t : List α} {i j n : Nat}

/-- The word stands in the text at place `i`. -/
def OccursAt (w s : List α) (i : Nat) : Prop := i ≤ s.length ∧ w <+: s.drop i

/-- From place `i` on the text is a beginning of the word. -/
def Overhangs (w s : List α) (i : Nat) : Prop := i < s.length ∧ s.drop i <+: w

instance [DecidableEq α] (w s : List α) (i : Nat) : Decidable (OccursAt w s i) := inferInstanceAs (Decidable (_ ∧ _))

/-- The first place from `i` on at which the word stands. -/
def findFrom [DecidableEq α] (w s : List α) (i : Nat) : Option Nat :=
  (List.range' i (s.length + 1 - i)).find? fun j => OccursAt w s j

theorem mem_places : j ∈ List.range' i (s.length + 1 - i) ↔ i ≤ j ∧ j ≤ s.length := by
  rw [mem_range'_1]
  omega

section Find

variable [DecidableEq α]

theorem findFrom_eq_none : findFrom w s i = none ↔ ∀ j, i ≤ j → ¬OccursAt w s j := by
  unfold findFrom
  rw [find?_eq_none]
  constructor
  · intro h j hij hocc
    exact h j (mem_places.mpr ⟨hij, hocc.1⟩) (decide_eq_true hocc)
  · intro h j hj hocc
    exact h j (mem_places.mp hj).1 (of_decide_eq_true hocc)

/-- What is found is the first occurrence from `i` on. -/
theorem findFrom_spec (h : findFrom w s i = some j) : i ≤ j ∧ OccursAt w s j ∧ ∀ k, i ≤ k → OccursAt w s k → j ≤ k := by
  unfold findFrom at h
  have hmem := mem_of_find?_eq_some h
  have hocc := find?_some h
  refine ⟨(mem_places.mp hmem).1, of_decide_eq_true hocc, fun k hik hk => Nat.not_lt.mp fun hkj => ?_⟩
  obtain ⟨-, before, after, hsplit, hnone⟩ := find?_eq_some_iff_append.mp h
  have hkmem : k ∈ before := by
    have hall : k ∈ before ++ j :: after := hsplit ▸ mem_places.mpr ⟨hik, hk.1⟩
    rcases List.mem_append.mp hall with hbefore | hafter
    · exact hbefore
    · have hsorted : (before ++ j :: after).Pairwise (· < ·) := hsplit ▸ pairwise_lt_range'
      rcases mem_cons.mp hafter with rfl | hafter
      · exact absurd hkj (Nat.lt_irrefl _)
      · exact absurd ((pairwise_cons.mp (pairwise_append.mp hsorted).2.1).1 k hafter) (Nat.lt_asymm hkj)
  have hnot := hnone k hkmem
  simp only [hk, decide_true] at hnot
  exact absurd hnot (by decide)

theorem findFrom_isSome (hij : i ≤ j) (h : OccursAt w s j) : ∃ k ∈ findFrom w s i, k ≤ j := by
  cases hfind : findFrom w s i with
  | none => exact absurd h (findFrom_eq_none.mp hfind j hij)
  | some k => exact ⟨k, rfl, (findFrom_spec hfind).2.2 j hij h⟩

end Find

theorem OccursAt.end_le (h : OccursAt w s i) : i + w.length ≤ s.length := by
  have hle := h.2.length_le
  rw [length_drop] at hle
  have hi := h.1
  omega

theorem OccursAt.append (h : OccursAt w s i) (t : List α) : OccursAt w (s ++ t) i := by
  refine ⟨h.1.trans (length_append ▸ Nat.le_add_right _ _), ?_⟩
  rw [drop_append_of_le_length h.1]
  exact h.2.trans (prefix_append _ _)

theorem Overhangs.of_append (h : Overhangs w (s ++ t) i) (hi : i < s.length) : Overhangs w s i := by
  refine ⟨hi, ?_⟩
  have hpre := h.2
  rw [drop_append_of_le_length hi.le] at hpre
  exact (prefix_append _ _).trans hpre

/-- An occurrence in a longer text is old, or the old text overhangs at it, or it is behind the old text. -/
theorem OccursAt.of_append (h : OccursAt w (s ++ t) i) : OccursAt w s i ∨ Overhangs w s i ∨ s.length ≤ i := by
  rcases Nat.lt_or_ge i s.length with hlt | hge
  · have hpre := h.2
    rw [drop_append_of_le_length hlt.le] at hpre
    rcases prefix_or_prefix_of_prefix hpre (prefix_append _ _) with hshort | hlong
    · exact Or.inl ⟨hlt.le, hshort⟩
    · exact Or.inr (Or.inl ⟨hlt, hlong⟩)
  · exact Or.inr (Or.inr hge)

theorem OccursAt.drop (h : OccursAt w s i) (hn : n ≤ i) : OccursAt w (s.drop n) (i - n) := by
  refine ⟨?_, ?_⟩
  · rw [length_drop]
    exact Nat.sub_le_sub_right h.1 n
  · rw [drop_drop, Nat.add_sub_cancel' hn]
    exact h.2

theorem OccursAt.of_drop (h : OccursAt w (s.drop n) i) (hn : n ≤ s.length) : OccursAt w s (n + i) := by
  have hle := h.1
  rw [length_drop] at hle
  refine ⟨by omega, ?_⟩
  rw [← drop_drop]
  exact h.2

theorem Overhangs.drop (h : Overhangs w s i) (hn : n ≤ i) : Overhangs w (s.drop n) (i - n) := by
  have hlt := h.1
  refine ⟨?_, ?_⟩
  · rw [length_drop]
    omega
  · rw [drop_drop, Nat.add_sub_cancel' hn]
    exact h.2

/-- A word that stands in front of `n` stands in the text up to `n`. -/
theorem OccursAt.of_take (h : OccursAt w (s.take n) i) : OccursAt w s i := by
  have happ := h.append (s.drop n)
  rwa [take_append_drop] at happ

end Search
