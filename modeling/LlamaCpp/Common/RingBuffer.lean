import Mathlib.Data.List.Basic

/-!
# The ring buffer

`ring_buffer` of llama-sampler.cpp: the last values, as many as its capacity allows.  `Holds` says
which list it stands for; that list is the `window` of what was pushed.
-/

namespace LlamaCpp

open List

/-- `ring_buffer`; `data` has `capacity` slots. -/
structure RingBuffer (α : Type) where
  capacity : Nat
  sz : Nat := 0
  first : Nat := 0
  pos : Nat := 0
  data : Nat → α

namespace RingBuffer

variable {α : Type}

/-- There is nothing at the front of an empty buffer: the source throws. -/
def front (r : RingBuffer α) : Option α := if r.sz = 0 then none else some (r.data r.first)

def pushBack (r : RingBuffer α) (value : α) : Option (RingBuffer α) :=
  if r.capacity = 0 then none
  else some
    { r with
      first := if r.sz = r.capacity then (r.first + 1) % r.capacity else r.first
      sz := if r.sz = r.capacity then r.sz else r.sz + 1
      data := Function.update r.data r.pos value
      pos := (r.pos + 1) % r.capacity }

/-- The value `i` places in front of the last one -/
def rat (r : RingBuffer α) (i : Nat) : Option α :=
  if r.sz ≤ i then none else some (r.data ((r.first + r.sz - i - 1) % r.capacity))

def clear (r : RingBuffer α) : RingBuffer α := { r with sz := 0, first := 0, pos := 0 }

/-- The last `n` values -/
def window (n : Nat) (xs : List α) : List α := xs.drop (xs.length - n)

/-- The buffer of capacity `n` stands for the list. -/
structure Holds (r : RingBuffer α) (n : Nat) (xs : List α) : Prop where
  capacity : r.capacity = n
  sz : r.sz = xs.length
  le : xs.length ≤ n
  first : r.first < n
  pos : r.pos = (r.first + r.sz) % n
  data : ∀ i v, xs[i]? = some v → r.data ((r.first + i) % n) = v

variable {r : RingBuffer α} {n i : Nat} {xs : List α} {v : α}

/-- A place behind the first one comes around the end at most once. -/
theorem slot_eq {first : Nat} (hfirst : first < n) (hi : i ≤ n) :
    (first + i) % n = if first + i < n then first + i else first + i - n := by
  split
  · next hlt => exact Nat.mod_eq_of_lt hlt
  · next hge =>
    rw [Nat.mod_eq_sub_mod (Nat.not_lt.mp hge)]
    exact Nat.mod_eq_of_lt (by omega)

theorem length_window (n : Nat) (xs : List α) : (window n xs).length = min n xs.length := by
  rw [window, length_drop]
  omega

theorem window_concat (xs : List α) (v : α) : window n (xs ++ [v]) =
    if (window n xs).length = n then (window n xs ++ [v]).tail else window n xs ++ [v] := by
  have hlen := length_window n xs
  rw [window, length_append, length_singleton]
  split
  · have hdrop : xs.length + 1 - n = xs.length - n + 1 := by omega
    rw [hdrop, window, ← drop_append_of_le_length (Nat.sub_le _ _), tail_drop]
  · have hdrop : xs.length + 1 - n = xs.length - n := by omega
    rw [hdrop, window, drop_append_of_le_length (Nat.sub_le _ _)]

theorem Holds.clear (h : Holds r n xs) (hn : 0 < n) : Holds r.clear n [] where
  capacity := h.capacity
  sz := rfl
  le := Nat.zero_le n
  first := hn
  pos := (Nat.zero_mod n).symm
  data := fun i v hi => by cases hi

theorem Holds.front (h : Holds r n xs) : r.front = xs.head? := by
  have hsz := h.sz
  unfold RingBuffer.front
  cases xs with
  | nil => exact if_pos hsz
  | cons v xs =>
    rw [if_neg (by rw [hsz]; exact Nat.succ_ne_zero _), head?_cons]
    have hdata := h.data 0 v rfl
    rwa [Nat.add_zero, Nat.mod_eq_of_lt h.first, ← Option.some_inj] at hdata

theorem Holds.rat (h : Holds r n xs) (i : Nat) : r.rat i = xs.reverse[i]? := by
  have hsz := h.sz
  have hle := h.le
  unfold RingBuffer.rat
  split
  · next hi => exact (getElem?_eq_none (by rw [length_reverse]; omega)).symm
  · next hi =>
    have hlt : i < xs.length := by omega
    have hplace : r.first + r.sz - i - 1 = r.first + (xs.length - 1 - i) := by omega
    have hget := getElem?_eq_getElem (show xs.length - 1 - i < xs.length by omega)
    rw [getElem?_reverse hlt, hget, h.capacity, hplace, h.data _ _ hget]

theorem Holds.pushBack (h : Holds r n xs) (hn : 0 < n) (v : α) : ∃ r', r.pushBack v = some r' ∧
    Holds r' n (if xs.length = n then (xs ++ [v]).tail else xs ++ [v]) := by
  have hcap := h.capacity
  have hsz := h.sz
  have hle := h.le
  have hfirst := h.first
  have hpos := h.pos
  rw [slot_eq hfirst (hsz ▸ hle)] at hpos
  -- what stands in the slots behind the first one, or from it on if there was room
  have hslots : ∀ k u, (xs ++ [v])[k]? = some u → (k = 0 → xs.length ≠ n) →
      Function.update r.data r.pos v ((r.first + k) % n) = u := by
    intro k u hu hk
    have hkle : k ≤ xs.length := by
      have hlt := (List.getElem?_eq_some_iff.mp hu).1
      rw [length_append, length_singleton] at hlt
      omega
    rcases Nat.lt_or_eq_of_le hkle with hlt | rfl
    · have hne : (r.first + k) % n ≠ r.pos := by
        rw [hpos, slot_eq hfirst (Nat.le_trans hkle hle), hsz]
        split <;> split <;> omega
      rw [getElem?_append_left hlt] at hu
      rw [Function.update_of_ne hne, h.data k u hu]
    · rw [getElem?_append_right (Nat.le_refl _), Nat.sub_self, getElem?_cons_zero, Option.some.injEq] at hu
      rw [slot_eq hfirst hle, ← hsz, ← hpos, Function.update_self, hu]
  have hnext : (r.pos + 1) % n = if r.pos + 1 = n then 0 else r.pos + 1 := by
    have hlt : r.pos < n := by
      rw [hpos]
      split <;> omega
    rw [slot_eq hlt hn]
    split <;> split <;> omega
  -- a full buffer loses its first value
  obtain ⟨d, hd, hfirst', hsz', hlist⟩ : ∃ d, (d = 0 ∧ xs.length ≠ n ∨ d = 1 ∧ xs.length = n) ∧
      (if r.sz = r.capacity then (r.first + 1) % r.capacity else r.first) = (r.first + d) % n ∧
      (if r.sz = r.capacity then r.sz else r.sz + 1) = xs.length + 1 - d ∧
      (if xs.length = n then (xs ++ [v]).tail else xs ++ [v]) = (xs ++ [v]).drop d := by
    rw [hcap, hsz]
    by_cases hfull : xs.length = n
    · exact ⟨1, .inr ⟨rfl, hfull⟩, by simp [hfull]⟩
    · exact ⟨0, .inl ⟨rfl, hfull⟩, by simp [hfull, Nat.mod_eq_of_lt hfirst]⟩
  rw [hlist]
  refine ⟨_, if_neg (by omega), hcap, ?_, ?_, ?_, ?_, fun i u hu => ?_⟩
  · rw [length_drop, length_append, length_singleton]
    exact hsz'
  · rw [length_drop, length_append, length_singleton]
    omega
  · exact hfirst' ▸ Nat.mod_lt _ hn
  · dsimp only
    rw [hfirst', hsz', hcap, hnext, Nat.mod_add_mod, Nat.add_assoc, Nat.add_sub_cancel' (by omega), ← Nat.add_assoc,
      ← Nat.mod_add_mod, slot_eq hfirst hle, ← hsz, ← hpos, hnext]
  · dsimp only
    rw [getElem?_drop] at hu
    rw [hfirst', Nat.mod_add_mod, Nat.add_assoc]
    exact hslots (d + i) u hu (by omega)

end RingBuffer

end LlamaCpp
