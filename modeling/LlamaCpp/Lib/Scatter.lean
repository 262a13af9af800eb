import Mathlib.Data.List.Nodup

/-!
# Scattered writes

`scatter key val ks t` writes `val k` to the place `key k` of `t`, for every `k` of `ks` in
turn.  Where the places are distinct a place holds what was written to it
(`scatter_getElem?_mem`), and a place that no `k` names is as before
(`scatter_getElem?_other`).
-/

universe u v

variable {κ : Type u} {α : Type v}

/-- Write `val k` to the place `key k`, for every `k`. -/
def scatter (key : κ → Nat) (val : κ → α) (ks : List κ) (t : List α) : List α :=
  ks.foldl (fun t k => t.set (key k) (val k)) t

namespace Scatter

open List

variable {key : κ → Nat} {val : κ → α} {ks : List κ} {t : List α}

@[simp] theorem scatter_cons (k : κ) : scatter key val (k :: ks) t = scatter key val ks (t.set (key k) (val k)) := rfl

@[simp] theorem scatter_length : (scatter key val ks t).length = t.length := by
  induction ks generalizing t with
  | nil => rfl
  | cons k ks ih => rw [scatter_cons, ih, length_set]

theorem scatter_map {ι : Type u} (f : ι → κ) (is : List ι) :
    scatter key val (is.map f) t = scatter (fun i => key (f i)) (fun i => val (f i)) is t := by
  induction is generalizing t with
  | nil => rfl
  | cons i is ih => exact ih

theorem scatter_congr {key' : κ → Nat} (h : ∀ k ∈ ks, key' k = key k) :
    scatter key' val ks t = scatter key val ks t := by
  induction ks generalizing t with
  | nil => rfl
  | cons k ks ih =>
    rw [scatter_cons, scatter_cons, h k mem_cons_self, ih fun x hx => h x (mem_cons_of_mem _ hx)]

theorem scatter_getElem?_other {e : Nat} (h : ∀ k ∈ ks, key k ≠ e) : (scatter key val ks t)[e]? = t[e]? := by
  induction ks generalizing t with
  | nil => rfl
  | cons k ks ih =>
    rw [scatter_cons, ih fun x hx => h x (mem_cons_of_mem _ hx), getElem?_set_ne (h k mem_cons_self)]

/-- A place that is written to once. -/
theorem scatter_getElem?_mem {k : κ} (hk : k ∈ ks) (hone : ∀ x ∈ ks, key x = key k → x = k)
    (hlt : key k < t.length) : (scatter key val ks t)[key k]? = some (val k) := by
  induction ks generalizing t with
  | nil => exact absurd hk not_mem_nil
  | cons x ks ih =>
    rw [scatter_cons]
    by_cases hin : k ∈ ks
    · exact ih hin (fun y hy => hone y (mem_cons_of_mem _ hy)) (by rwa [length_set])
    · -- `k` is the first one, and the others write elsewhere
      obtain rfl : k = x := (mem_cons.mp hk).resolve_right hin
      have hother : ∀ y ∈ ks, key y ≠ key k := by
        intro y hy heq
        exact hin (hone y (mem_cons_of_mem _ hy) heq ▸ hy)
      rw [scatter_getElem?_other hother, getElem?_set_self hlt]

end Scatter
