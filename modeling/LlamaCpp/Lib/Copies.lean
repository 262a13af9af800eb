import Mathlib.Logic.Function.Basic

/-!
# Copies that are put off

A store has a value for every place.  `copies Q D` makes the copies of the queue `Q` in
order, each from a source to a destination.  Whatever the values are, a place ends up
with that of its origin: `copies Q D u = D (origin Q u)`.

`blank` writes `z` to a set of places.  If the copies of `Q` are put off, a blank that is
written now comes before them, and where nothing is put off it comes behind them.
`copies_blank_iff` says when that is the same.

A `Store` has a table of values for every key and a queue.  `Made K S S'` relates a store
that puts its copies off to one that makes them at once; `Made.after` keeps that over a
step, under the condition of `copies_blank_iff` on the keys `K`.
-/

namespace Copies

universe u v

variable {ι : Type u} {α : Type v} [DecidableEq ι]

/-- Make the copies of a queue, in order. -/
def copies (Q : List (ι × ι)) (D : ι → α) : ι → α :=
  Q.foldl (fun D x => Function.update D x.2 (D x.1)) D

/-- Where the value of a place comes from. -/
def origin (Q : List (ι × ι)) : ι → ι := copies Q id

def blank (z : α) (T : ι → Prop) [DecidablePred T] (D : ι → α) (u : ι) : α := if T u then z else D u

variable {Q : List (ι × ι)} {D : ι → α} {z : α} {T : ι → Prop} [DecidablePred T]

theorem copies_append (Q Q' : List (ι × ι)) (D : ι → α) : copies (Q ++ Q') D = copies Q' (copies Q D) :=
  List.foldl_append

theorem copies_comp (Q : List (ι × ι)) (D : ι → α) (f : ι → ι) : copies Q (D ∘ f) = D ∘ copies Q f := by
  induction Q generalizing f with
  | nil => rfl
  | cons x Q ih =>
    have hstep : Function.update (D ∘ f) x.2 ((D ∘ f) x.1) = D ∘ Function.update f x.2 (f x.1) := by
      rw [Function.comp_update]
      rfl
    change copies Q (Function.update (D ∘ f) x.2 ((D ∘ f) x.1)) = _
    rw [hstep, ih]
    rfl

/-- A place ends up with the value of its origin. -/
theorem copies_apply (Q : List (ι × ι)) (D : ι → α) (u : ι) : copies Q D u = D (origin Q u) :=
  congrFun (copies_comp Q D id) u

/-- A blank commutes with the copies if it covers a place exactly when it covers the
origin, unless the value is blank anyway. -/
theorem copies_blank_iff :
    copies Q (blank z T D) = blank z T (copies Q D) ↔ ∀ u, D (origin Q u) = z ∨ (T u ↔ T (origin Q u)) := by
  rw [funext_iff]
  refine forall_congr' fun u => ?_
  rw [copies_apply]
  unfold blank
  rw [copies_apply]
  by_cases hu : T u <;> by_cases ho : T (origin Q u) <;> simp [hu, ho, eq_comm]

/-! ## Stores -/

variable {κ : Type*}

/-- Tables of values, and the copies that are put off. -/
structure Store (κ : Type*) (ι : Type u) (α : Type v) where
  data : κ → ι → α
  queue : List (ι × ι)

namespace Store

/-- The places with `T` are blanked, and the copies `new` are put off. -/
def after (z : α) (T : ι → Prop) [DecidablePred T] (new : List (ι × ι)) (S : Store κ ι α) : Store κ ι α where
  data := fun k => blank z T (S.data k)
  queue := S.queue ++ new

def settle (S : Store κ ι α) : Store κ ι α where
  data := fun k => copies S.queue (S.data k)
  queue := []

end Store

/-- `S'` is `S` with its copies made, on the keys `K`. -/
structure Made (K : κ → Prop) (S S' : Store κ ι α) : Prop where
  data : ∀ k, K k → S'.data k = copies S.queue (S.data k)
  queue : S'.queue = []

/-- A blank of the places with `T` does not get between a copy that is put off and its
source. -/
def Safe (z : α) (T : ι → Prop) (K : κ → Prop) (S : Store κ ι α) : Prop :=
  ∀ k, K k → ∀ u, S.data k (origin S.queue u) = z ∨ (T u ↔ T (origin S.queue u))

variable {K : κ → Prop} {S S' : Store κ ι α} {new : List (ι × ι)}

theorem Made.settle (S : Store κ ι α) : Made K S S.settle := ⟨fun _ _ => rfl, rfl⟩

/-- A step, with the copies put off and with the copies made at once. -/
theorem Made.after (h : Made K S S') (hsafe : Safe z T K S) : Made K (S.after z T new) (S'.after z T new).settle where
  data := by
    intro k hk
    have hcomm : copies S.queue (blank z T (S.data k)) = blank z T (copies S.queue (S.data k)) :=
      copies_blank_iff.mpr (hsafe k hk)
    change copies (S'.queue ++ new) (blank z T (S'.data k)) = copies (S.queue ++ new) (blank z T (S.data k))
    rw [h.data k hk, h.queue, List.nil_append, copies_append, hcomm]
  queue := rfl

omit [DecidablePred T] in
/-- A blank that covers everything or nothing is safe. -/
theorem safe_of_const {p : Prop} (hT : ∀ u, T u ↔ p) : Safe z T K S := fun _ _ u =>
  .inr ((hT u).trans (hT _).symm)

end Copies
