import Mathlib.Data.Set.Finite.Basic

/-!
# Worklist exploration

`explore` is the loop that pops a node, skips it when it was seen before, and otherwise
visits it: it folds the node into an accumulator and pushes the nodes `next` names.  The
loop may run for ever, so it takes fuel, and a visit may stop it with a `Halt`.

A computation with fuel `Settles` on what it gives with enough of it.

`explore_ok` says what a finished loop has done: it folded over a list that holds exactly
the nodes reached from the start.  Hence the loop finishes exactly when finitely many
nodes are reached (`finite_of_explore_ok`, `explore_terminates`), and a finite closed set
around the start bounds it (`finite_reaches`).
-/

namespace Worklist

open List

open Relation (ReflTransGen)

/-- Why a computation gives no value. -/
inductive Halt where
  /-- The fuel is used up. -/
  | outOfFuel
  /-- A failed assertion. -/
  | abort
  /-- An exception. -/
  | thrown
deriving DecidableEq

universe u v

/-! ## Enough fuel -/

section Fuel

variable {α β : Type u} {ι : Type v}

/-- With enough fuel the computation gives `a`. -/
def Settles (f : Nat → Except Halt α) (a : α) : Prop := ∃ n, ∀ m, n ≤ m → f m = .ok a

theorem settles_pure (a : α) : Settles (fun _ => .ok a) a := ⟨0, fun _ _ => rfl⟩

theorem Settles.bind {f : Nat → Except Halt α} {g : Nat → α → Except Halt β} {a : α} {b : β}
    (hf : Settles f a) (hg : Settles (fun n => g n a) b) : Settles (fun n => f n >>= g n) b := by
  obtain ⟨n, hf⟩ := hf
  obtain ⟨m, hg⟩ := hg
  refine ⟨max n m, fun k hk => ?_⟩
  have hfk := hf k (Nat.le_trans (Nat.le_max_left n m) hk)
  have hgk := hg k (Nat.le_trans (Nat.le_max_right n m) hk)
  simp only [hfk]
  exact hgk

/-- A loop has enough fuel when each of its iterations has. -/
theorem settles_foldlM {step : Nat → α → ι → Except Halt α} {I : α → Prop} {xs : List ι}
    (hstep : ∀ x ∈ xs, ∀ a, I a → ∃ b, Settles (fun n => step n a x) b ∧ I b) {a : α} (ha : I a) :
    ∃ b, Settles (fun n => xs.foldlM (step n) a) b ∧ I b := by
  induction xs generalizing a with
  | nil => exact ⟨a, settles_pure a, ha⟩
  | cons x xs ih =>
    obtain ⟨b, hb, hIb⟩ := hstep x mem_cons_self a ha
    obtain ⟨c, hc, hIc⟩ := ih (fun y hy => hstep y (mem_cons_of_mem _ hy)) hIb
    refine ⟨c, ?_, hIc⟩
    simp only [foldlM_cons]
    exact hb.bind hc

end Fuel

/-! ## Exploration -/

variable {σ : Type u} {α : Type v} (next : σ → Except Halt (List σ)) (emit : α → σ → α)

/-- The visit of `x` pushes `y`. -/
def Step (x y : σ) : Prop := ∃ ys, next x = .ok ys ∧ y ∈ ys

/-- Some visits lead from `x` to `y`. -/
def Reaches : σ → σ → Prop := ReflTransGen (Step next)

/-- Pop, skip what was seen, visit the rest.  `todo` and `seen` have their newest node
first; the nodes of one visit are pushed in order, so the last is popped first. -/
def explore [DecidableEq σ] : Nat → List σ → List σ → α → Except Halt α
  | 0, _, _, _ => .error .outOfFuel
  | _ + 1, [], _, a => .ok a
  | n + 1, x :: todo, seen, a =>
    if x ∈ seen then explore n todo seen a
    else
      match next x with
      | .error e => .error e
      | .ok ys => explore n (ys.reverse ++ todo) (x :: seen) (emit a x)

variable {next emit}

theorem Reaches.refl (x : σ) : Reaches next x x := ReflTransGen.refl

theorem Reaches.head {x y z : σ} (hxy : Step next x y) (hyz : Reaches next y z) : Reaches next x z :=
  ReflTransGen.head hxy hyz

theorem Reaches.trans {x y z : σ} (hxy : Reaches next x y) (hyz : Reaches next y z) : Reaches next x z :=
  ReflTransGen.trans hxy hyz

/-- What is reached stays in a set that no step leaves. -/
theorem Reaches.mem_of_closed {S : Set σ} (hS : ∀ x ∈ S, ∀ y, Step next x y → y ∈ S) {x y : σ}
    (hx : x ∈ S) (hxy : Reaches next x y) : y ∈ S := by
  induction hxy with
  | refl => exact hx
  | tail _ hstep ih => exact hS _ ih _ hstep

section Loop

variable [DecidableEq σ] {seen todo : List σ} {a : α} {n : Nat}

theorem explore_cons_of_mem {x : σ} (hx : x ∈ seen) (n : Nat) (a : α) :
    explore next emit (n + 1) (x :: todo) seen a = explore next emit n todo seen a := by
  rw [explore, if_pos hx]

theorem explore_cons_of_ok {x : σ} {ys : List σ} (hx : x ∉ seen) (hnext : next x = .ok ys) (n : Nat)
    (a : α) : explore next emit (n + 1) (x :: todo) seen a =
      explore next emit n (ys.reverse ++ todo) (x :: seen) (emit a x) := by
  rw [explore, if_neg hx, hnext]

/-- More fuel does not change a result. -/
theorem explore_mono {m : Nat} {b : α} (h : explore next emit n todo seen a = .ok b) (hnm : n ≤ m) :
    explore next emit m todo seen a = .ok b := by
  induction n generalizing m todo seen a with
  | zero => exact absurd h (by simp [explore])
  | succ n ih =>
    obtain ⟨m, rfl⟩ := Nat.exists_eq_add_of_le' (Nat.lt_of_lt_of_le (Nat.succ_pos n) hnm)
    have hnm : n ≤ m := Nat.le_of_succ_le_succ hnm
    cases todo with
    | nil => exact h
    | cons x todo =>
      by_cases hx : x ∈ seen
      · rw [explore_cons_of_mem hx] at h ⊢
        exact ih h hnm
      · rw [explore, if_neg hx] at h ⊢
        cases hnext : next x with
        | error e =>
          rw [hnext] at h
          exact absurd h (by simp)
        | ok ys =>
          rw [hnext] at h
          exact ih h hnm

/-- The nodes `order` that the loop visits after those in `seen`: all are reached, they
take in the waiting ones, and no step leaves them. -/
structure Visited (next : σ → Except Halt (List σ)) (todo seen order : List σ) : Prop where
  reached : ∀ x ∈ order, ∃ t ∈ todo, Reaches next t x
  waiting : ∀ t ∈ todo, t ∈ seen ∨ t ∈ order
  closed : ∀ x ∈ order, ∃ ys, next x = .ok ys ∧ ∀ y ∈ ys, y ∈ seen ∨ y ∈ order

/-- A finished loop has folded over the nodes it visited. -/
theorem explore_visited {b : α} (h : explore next emit n todo seen a = .ok b) :
    ∃ order, Visited next todo seen order ∧ b = order.foldl emit a := by
  induction n generalizing todo seen a with
  | zero => exact absurd h (by simp [explore])
  | succ n ih =>
    cases todo with
    | nil =>
      obtain rfl : a = b := by simpa [explore] using h
      exact ⟨[], ⟨by simp, by simp, by simp⟩, rfl⟩
    | cons x todo =>
      by_cases hx : x ∈ seen
      · rw [explore_cons_of_mem hx] at h
        obtain ⟨order, hv, hb⟩ := ih h
        refine ⟨order, ⟨fun y hy => ?_, fun t ht => ?_, hv.closed⟩, hb⟩
        · obtain ⟨t, ht, hty⟩ := hv.reached y hy
          exact ⟨t, mem_cons_of_mem _ ht, hty⟩
        · rcases mem_cons.mp ht with rfl | ht
          · exact .inl hx
          · exact hv.waiting t ht
      · rw [explore, if_neg hx] at h
        cases hnext : next x with
        | error e =>
          rw [hnext] at h
          exact absurd h (by simp)
        | ok ys =>
          rw [hnext] at h
          obtain ⟨order, hv, hb⟩ := ih h
          have hseen : ∀ y, y ∈ x :: seen ∨ y ∈ order → y ∈ seen ∨ y ∈ x :: order := by
            intro y hy
            simp only [mem_cons] at hy ⊢
            tauto
          refine ⟨x :: order, ⟨fun y hy => ?_, fun t ht => ?_, fun y hy => ?_⟩, hb⟩
          · rcases mem_cons.mp hy with rfl | hy
            · exact ⟨y, mem_cons_self, .refl y⟩
            · obtain ⟨t, ht, hty⟩ := hv.reached y hy
              rcases List.mem_append.mp ht with ht | ht
              · exact ⟨x, mem_cons_self, .head ⟨ys, hnext, mem_reverse.mp ht⟩ hty⟩
              · exact ⟨t, mem_cons_of_mem _ ht, hty⟩
          · rcases mem_cons.mp ht with rfl | ht
            · exact .inr mem_cons_self
            · exact hseen t (hv.waiting t (mem_append_right _ ht))
          · rcases mem_cons.mp hy with rfl | hy
            · exact ⟨ys, hnext, fun z hz => hseen z
                (hv.waiting z (mem_append_left _ (mem_reverse.mpr hz)))⟩
            · obtain ⟨zs, hz, hzs⟩ := hv.closed y hy
              exact ⟨zs, hz, fun z hz => hseen z (hzs z hz)⟩

/-- A finished loop has folded over exactly the nodes reached from its start. -/
theorem explore_ok {s : σ} {b : α} (h : explore next emit n [s] [] a = .ok b) :
    ∃ order : List σ, (∀ x, x ∈ order ↔ Reaches next s x) ∧ b = order.foldl emit a ∧
      ∀ x ∈ order, ∃ ys, next x = .ok ys := by
  obtain ⟨order, hv, hb⟩ := explore_visited h
  have hs : s ∈ order := (hv.waiting s mem_cons_self).resolve_left not_mem_nil
  refine ⟨order, fun x => ⟨fun hx => ?_, fun hx => ?_⟩, hb, fun x hx => ?_⟩
  · obtain ⟨t, ht, htx⟩ := hv.reached x hx
    obtain rfl : t = s := by simpa using ht
    exact htx
  · refine Reaches.mem_of_closed (S := {x | x ∈ order}) (fun y hy z hyz => ?_) hs hx
    obtain ⟨ys, hys, hclosed⟩ := hv.closed y hy
    obtain ⟨zs, hzs, hz⟩ := hyz
    obtain rfl : ys = zs := by
      rw [hys] at hzs
      exact Except.ok.inj hzs
    exact (hclosed z hz).resolve_left not_mem_nil
  · obtain ⟨ys, hys, -⟩ := hv.closed x hx
    exact ⟨ys, hys⟩

theorem finite_of_explore_ok {s : σ} {b : α} (h : explore next emit n [s] [] a = .ok b) :
    {x | Reaches next s x}.Finite := by
  obtain ⟨order, hmem, -, -⟩ := explore_ok h
  exact (finite_toSet order).subset fun x hx => (hmem x).mpr hx

/-- Inside a finite set that no visit leaves, the loop finishes: every visit takes one node
of the set off the unseen ones, and between visits the waiting list gets shorter. -/
theorem explore_of_closed {R : Finset σ}
    (hR : ∀ x ∈ R, ∃ ys, next x = .ok ys ∧ ∀ y ∈ ys, y ∈ R) :
    ∀ (k : Nat) (todo seen : List σ) (a : α), (R.filter (· ∉ seen)).card = k → (∀ t ∈ todo, t ∈ R) →
      ∃ n b, explore next emit n todo seen a = .ok b := by
  intro k
  induction k using Nat.strong_induction_on with
  | _ k ihk =>
    intro todo
    induction todo with
    | nil => exact fun seen a _ _ => ⟨1, a, rfl⟩
    | cons x todo ih =>
      intro seen a hcard hsub
      have hx : x ∈ R := hsub x mem_cons_self
      have htodo : ∀ t ∈ todo, t ∈ R := fun t ht => hsub t (mem_cons_of_mem _ ht)
      by_cases hseen : x ∈ seen
      · obtain ⟨n, b, h⟩ := ih seen a hcard htodo
        exact ⟨n + 1, b, by rw [explore_cons_of_mem hseen, h]⟩
      · obtain ⟨ys, hys, hysR⟩ := hR x hx
        have hlt : (R.filter (· ∉ x :: seen)).card < k := by
          rw [← hcard]
          refine Finset.card_lt_card (Finset.ssubset_iff_of_subset ?_ |>.mpr ⟨x, ?_, ?_⟩)
          · intro y hy
            simp only [Finset.mem_filter, mem_cons, not_or] at hy ⊢
            exact ⟨hy.1, hy.2.2⟩
          · exact Finset.mem_filter.mpr ⟨hx, hseen⟩
          · simp
        have hsub' : ∀ t ∈ ys.reverse ++ todo, t ∈ R := by
          intro t ht
          rcases List.mem_append.mp ht with ht | ht
          · exact hysR t (mem_reverse.mp ht)
          · exact htodo t ht
        obtain ⟨n, b, h⟩ := ihk _ hlt _ _ (emit a x) rfl hsub'
        exact ⟨n + 1, b, by rw [explore_cons_of_ok hseen hys, h]⟩

theorem explore_terminates {s : σ} (hfin : {x | Reaches next s x}.Finite)
    (hok : ∀ x, Reaches next s x → ∃ ys, next x = .ok ys) (a : α) :
    ∃ b, Settles (fun n => explore next emit n [s] [] a) b := by
  have hR : ∀ x ∈ hfin.toFinset, ∃ ys, next x = .ok ys ∧ ∀ y ∈ ys, y ∈ hfin.toFinset := by
    intro x hx
    have hx : Reaches next s x := hfin.mem_toFinset.mp hx
    obtain ⟨ys, hys⟩ := hok x hx
    exact ⟨ys, hys, fun y hy => hfin.mem_toFinset.mpr
      (show Reaches next s y from hx.trans (ReflTransGen.single ⟨ys, hys, hy⟩))⟩
  have hs : ∀ t ∈ [s], t ∈ hfin.toFinset := by
    intro t ht
    obtain rfl : t = s := by simpa using ht
    exact hfin.mem_toFinset.mpr (Reaches.refl t)
  obtain ⟨n, b, hrun⟩ := explore_of_closed hR _ [s] [] a rfl hs
  exact ⟨b, n, fun m hm => explore_mono hrun hm⟩

/-- Inside a set on which no visit stops the loop, only the fuel can run out. -/
theorem explore_ok_or_outOfFuel {S : Set σ} (hS : ∀ x ∈ S, ∃ ys, next x = .ok ys ∧ ∀ y ∈ ys, y ∈ S)
    (htodo : ∀ t ∈ todo, t ∈ S) : (∃ b, explore next emit n todo seen a = .ok b) ∨
      explore next emit n todo seen a = .error .outOfFuel := by
  induction n generalizing todo seen a with
  | zero => exact .inr rfl
  | succ n ih =>
    cases todo with
    | nil => exact .inl ⟨a, rfl⟩
    | cons x todo =>
      have hrest : ∀ t ∈ todo, t ∈ S := fun t ht => htodo t (mem_cons_of_mem _ ht)
      by_cases hx : x ∈ seen
      · rw [explore_cons_of_mem hx]
        exact ih hrest
      · obtain ⟨ys, hys, hysS⟩ := hS x (htodo x mem_cons_self)
        rw [explore_cons_of_ok hx hys]
        refine ih fun t ht => ?_
        rcases List.mem_append.mp ht with ht | ht
        · exact hysS t (mem_reverse.mp ht)
        · exact hrest t ht

end Loop

end Worklist
