import LlamaCpp.Lib.Readers

/-!
# Packed structures

A packed structure is a row of fields, each a number in some bytes.  `takeAll` reads what
`putAll` wrote, and `takeEach` reads an array of rows of one size.
-/

namespace Packed

open Readers List

universe u

/-- Fields of a width and a value, one behind the other. -/
def putAll (fs : List (Nat × Nat)) : List UInt8 := fs.flatMap fun f => putLE f.1 f.2

/-- The values of fields of the given widths. -/
def takeAll : List Nat → List UInt8 → List Nat
  | [], _ => []
  | w :: ws, bytes => getLE (bytes.take w) :: takeAll ws (bytes.drop w)

theorem putAll_length (fs : List (Nat × Nat)) : (putAll fs).length = (fs.map Prod.fst).sum := by
  induction fs with
  | nil => rfl
  | cons f fs ih =>
    simp only [putAll, flatMap_cons, length_append, map_cons, sum_cons] at ih ⊢
    rw [ih, putLE_length]

theorem takeAll_putAll {fs : List (Nat × Nat)} (h : ∀ f ∈ fs, f.2 < 256 ^ f.1) (rest : List UInt8) :
    takeAll (fs.map Prod.fst) (putAll fs ++ rest) = fs.map Prod.snd := by
  induction fs with
  | nil => rfl
  | cons f fs ih =>
    have hput : putAll (f :: fs) ++ rest = putLE f.1 f.2 ++ (putAll fs ++ rest) := by
      rw [putAll, flatMap_cons, append_assoc]
      rfl
    have htake : (putLE f.1 f.2 ++ (putAll fs ++ rest)).take f.1 = putLE f.1 f.2 :=
      take_left' (putLE_length f.1 f.2)
    have hdrop : (putLE f.1 f.2 ++ (putAll fs ++ rest)).drop f.1 = putAll fs ++ rest :=
      drop_left' (putLE_length f.1 f.2)
    rw [map_cons, map_cons, takeAll, hput, htake, hdrop, getLE_putLE (h f mem_cons_self),
      ih fun g hg => h g (mem_cons_of_mem f hg)]

/-- A value of a row of them, `k` values behind the first one. -/
theorem getD_block {n k : Nat} (pre post : List Nat) (f : Fin n → Nat) (i : Fin n) (hk : pre.length = k) :
    (pre ++ (List.ofFn f ++ post)).getD (k + i) 0 = f i := by
  subst hk
  have hright : (pre ++ (List.ofFn f ++ post)).getD (pre.length + i) 0 = (List.ofFn f ++ post).getD i 0 := by
    rw [getD_eq_getElem?_getD, getElem?_append_right (Nat.le_add_right _ _), Nat.add_sub_cancel_left,
      getD_eq_getElem?_getD]
  have hi : i.val < (List.ofFn f).length := by
    rw [length_ofFn]
    exact i.isLt
  rw [hright, getD_eq_getElem?_getD, getElem?_append_left hi, getElem?_eq_getElem hi, List.getElem_ofFn]
  rfl

def takeEach {α : Type u} (k n : Nat) (get : List UInt8 → α) (bytes : List UInt8) : List α :=
  (List.range n).map fun i => get (bytes.drop (i * k))

variable {α β : Type u} {k : Nat} {put : α → List UInt8}

theorem flatMap_length (hput : ∀ x, (put x).length = k) (xs : List α) : (xs.flatMap put).length = xs.length * k := by
  rw [length_flatMap, funext hput, map_const', sum_replicate_nat]

theorem takeEach_flatMap {get : List UInt8 → β} {f : α → β} (hput : ∀ x, (put x).length = k)
    (hget : ∀ x rest, get (put x ++ rest) = f x) (xs : List α) (rest : List UInt8) :
    takeEach k xs.length get (xs.flatMap put ++ rest) = xs.map f := by
  induction xs with
  | nil => rfl
  | cons x xs ih =>
    have hbytes : (x :: xs).flatMap put ++ rest = put x ++ (xs.flatMap put ++ rest) := by
      rw [flatMap_cons, append_assoc]
    have hrest : (List.range xs.length).map (fun i => get ((put x ++ (xs.flatMap put ++ rest)).drop ((i + 1) * k))) =
        takeEach k xs.length get (xs.flatMap put ++ rest) := by
      refine map_congr_left fun i _ => ?_
      have hdrop : (put x ++ (xs.flatMap put ++ rest)).drop ((i + 1) * k) = (xs.flatMap put ++ rest).drop (i * k) := by
        have hk : (i + 1) * k = (put x).length + i * k := by rw [hput, Nat.succ_mul, Nat.add_comm]
        rw [hk, ← drop_drop, drop_left]
      rw [hdrop]
    rw [takeEach, length_cons, range_succ_eq_map, map_cons, List.map_map, hbytes, Nat.zero_mul,
      drop_zero, hget, map_cons, ← ih, ← hrest]
    rfl

end Packed
