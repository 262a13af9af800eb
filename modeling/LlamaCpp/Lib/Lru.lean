import Mathlib.Data.List.Dedup
import Mathlib.Data.List.Induction

/-!
# Least recently used

A cache of at most `cap` elements keeps them in the order of their last use.  `touch` uses an
element: it goes to the back, and if it is new to a full cache the front is dropped.

After a history of uses the cache has the last `cap` elements of `recent`, the elements of
the history in the order of their last use.  So an element is in the cache if and only if
fewer than `cap` different ones were used after it: `mem_cached_iff`.
-/

namespace Lru

open List

universe u

variable {α : Type u} [DecidableEq α]

/-- Use an element of a cache of `cap` elements. -/
def touch (cap : Nat) (l : List α) (x : α) : List α :=
  if x ∈ l then l.erase x ++ [x] else l.drop (l.length + 1 - cap) ++ [x]

/-- The elements of a history in the order of their last use. -/
def recent (h : List α) : List α := h.foldl (fun l x => l.erase x ++ [x]) []

/-- The cache after a history. -/
def cached (cap : Nat) (h : List α) : List α := h.foldl (touch cap) []

variable {cap : Nat} {h h' l : List α} {x y : α}

theorem recent_concat (h : List α) (x : α) : recent (h ++ [x]) = (recent h).erase x ++ [x] := by
  rw [recent, foldl_append]
  rfl

theorem cached_concat (cap : Nat) (h : List α) (x : α) : cached cap (h ++ [x]) = touch cap (cached cap h) x := by
  rw [cached, foldl_append]
  rfl

theorem mem_recent : y ∈ recent h ↔ y ∈ h := by
  induction h using List.reverseRecOn with
  | nil => exact Iff.rfl
  | append_singleton h x ih =>
    rw [recent_concat, List.mem_append, List.mem_append, mem_singleton]
    by_cases hy : y = x
    · simp [hy]
    · rw [mem_erase_of_ne hy, ih]

theorem recent_nodup (h : List α) : (recent h).Nodup := by
  induction h using List.reverseRecOn with
  | nil => exact List.Pairwise.nil
  | append_singleton h x ih =>
    rw [recent_concat]
    refine nodup_append.mpr ⟨ih.erase x, pairwise_singleton _ _, ?_⟩
    intro y hy z hz heq
    rw [mem_singleton.mp hz] at heq
    exact ih.not_mem_erase (heq ▸ hy)

theorem recent_concat_filter (h : List α) (x : α) : recent (h ++ [x]) = (recent h).filter (· != x) ++ [x] := by
  rw [recent_concat, (recent_nodup h).erase_eq_filter]

theorem recent_append (h h' : List α) : recent (h ++ h') = (recent h).filter (· ∉ h') ++ recent h' := by
  induction h' using List.reverseRecOn with
  | nil => simp [recent]
  | append_singleton h' x ih =>
    have hfilter : ((recent h).filter (· ∉ h')).filter (· != x) = (recent h).filter (· ∉ h' ++ [x]) := by
      rw [List.filter_filter]
      refine filter_congr fun y _ => ?_
      by_cases hy : y = x
      · simp [hy]
      · simp [hy]
    rw [← append_assoc, recent_concat_filter, recent_concat_filter, ih, filter_append, hfilter, append_assoc]

/-- As many elements as are different -/
theorem recent_length (h : List α) : (recent h).length = h.dedup.length := by
  refine ((perm_ext_iff_of_nodup (recent_nodup h) h.nodup_dedup).mpr fun y => ?_).length_eq
  rw [mem_recent, mem_dedup]

omit [DecidableEq α] in
theorem drop_append_succ {n : Nat} (l' : List α) (h : l.length + 1 = n) : (l ++ l').drop n = l'.drop 1 := by
  rw [← h, ← drop_drop, drop_left]

/-- The cache is the end of the elements in the order of their last use. -/
theorem cached_eq (cap : Nat) (hcap : 0 < cap) (h : List α) :
    cached cap h = (recent h).drop ((recent h).length - cap) := by
  induction h using List.reverseRecOn with
  | nil => simp [cached, recent]
  | append_singleton h x ih =>
    rw [cached_concat, recent_concat, ih]
    have hnodup := recent_nodup h
    generalize recent h = l at hnodup
    obtain ⟨k, hk⟩ : ∃ k, k = l.length - cap := ⟨_, rfl⟩
    rw [← hk]
    have hsplit : l.take k ++ l.drop k = l := take_append_drop k l
    have htake : (l.take k).length = k := by
      rw [length_take]
      omega
    by_cases hx : x ∈ l.drop k
    · -- It moves to the back, and nothing before the cache changes.
      have hnot : x ∉ l.take k := by
        rw [← hsplit, nodup_append] at hnodup
        exact fun h => hnodup.2.2 x h x hx rfl
      have hlen : (l.erase x ++ [x]).length - cap = k := by
        rw [length_append, length_erase_of_mem (mem_of_mem_drop hx), length_singleton]
        have : 0 < l.length := length_pos_of_mem (mem_of_mem_drop hx)
        omega
      rw [touch, if_pos hx, hlen]
      conv_rhs => rw [← hsplit, erase_append_right _ hnot, append_assoc]
      rw [drop_left' htake]
    · rw [touch, if_neg hx]
      have hlen : (l.drop k).length = l.length - k := length_drop
      rw [hlen]
      by_cases hsmall : l.length < cap
      · -- The cache is not full, so it has all elements and `x` is new.
        have hk0 : k = 0 := by omega
        subst hk0
        rw [drop_zero] at hx
        rw [erase_of_not_mem hx, length_append, length_singleton]
        have h₁ : l.length - 0 + 1 - cap = 0 := by omega
        have h₂ : l.length + 1 - cap = 0 := by omega
        rw [h₁, h₂, drop_zero, drop_zero, drop_zero]
      · have hone : l.length - k + 1 - cap = 1 := by omega
        rw [hone, drop_drop]
        by_cases hin : x ∈ l
        · -- It was dropped before.
          have hold : x ∈ l.take k := by
            rw [← hsplit, List.mem_append] at hin
            exact hin.resolve_right hx
          have hlen' : (l.erase x ++ [x]).length - cap = k := by
            rw [length_append, length_erase_of_mem hin, length_singleton]
            omega
          have herase : ((l.take k).erase x).length = k - 1 := by
            rw [length_erase_of_mem hold, htake]
          have hk1 : ((l.take k).erase x).length + 1 = k := by
            have := length_pos_of_mem hold
            omega
          have hpos : 1 ≤ (l.drop k).length := by omega
          rw [hlen']
          conv_rhs => rw [← hsplit, erase_append_left _ hold, append_assoc]
          rw [drop_append_succ _ hk1, drop_append_of_le_length hpos, drop_drop]
        · rw [erase_of_not_mem hin, length_append, length_singleton]
          have hlen' : l.length + 1 - cap = k + 1 := by omega
          rw [hlen', drop_append_of_le_length (by omega)]

omit [DecidableEq α] in
theorem mem_drop_iff {n : Nat} (hx : x ∉ l) {pre : List α} : x ∈ (pre ++ x :: l).drop n ↔ n ≤ pre.length := by
  constructor
  · intro hmem
    by_contra hlt
    obtain ⟨m, rfl⟩ : ∃ m, n = pre.length + (m + 1) := ⟨n - pre.length - 1, by omega⟩
    rw [← drop_drop, drop_left, drop_succ_cons] at hmem
    exact hx (mem_of_mem_drop hmem)
  · intro hle
    rw [drop_append_of_le_length hle]
    exact mem_append_right _ mem_cons_self

/-- An element is in the cache if and only if fewer than `cap` different ones were used after it. -/
theorem mem_cached_iff (hcap : 0 < cap) {pre post : List α} (hx : x ∉ post) :
    x ∈ cached cap (pre ++ x :: post) ↔ post.dedup.length < cap := by
  have hrecent : recent (pre ++ x :: post) =
      ((recent pre).filter (· != x)).filter (· ∉ post) ++ x :: recent post := by
    have hsingle : [x].filter (· ∉ post) = [x] := by simp [hx]
    rw [append_cons, recent_append, recent_concat_filter, filter_append, hsingle, append_assoc]
    rfl
  rw [cached_eq cap hcap, hrecent, mem_drop_iff (mem_recent.not.mpr hx), length_append, length_cons, ← recent_length]
  omega

theorem cached_nodup (hcap : 0 < cap) (h : List α) : (cached cap h).Nodup := by
  rw [cached_eq cap hcap]
  exact (recent_nodup h).sublist (drop_sublist _ _)

end Lru
