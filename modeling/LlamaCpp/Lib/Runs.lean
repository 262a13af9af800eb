/-!
# Runs of a deterministic system

A system is a step function `step : σ → ι → σ` that applies an operation to a
state.  A run is a list of operations.  `exec` is the state it ends in, `Along P`
says that `P` holds in every state the run passes through, the first and the last
included, and `EachStep Q` says that `Q` holds of every operation in the state it
is applied to.

Where an operation can fail, `step : σ → ι → Option σ`, and `Reaches Q` relates a state to
the states that operations with `Q` lead to.

The rules turn one fact about a single step into a fact about every run:
`exec_of_step` for an invariant, `along_iff_eachStep` for a property that a step
keeps exactly when a condition on the step holds, `Reaches.inv` for an invariant of the
states that can be reached.
-/

namespace Runs

universe u v

variable {σ : Type u} {ι : Type v} (step : σ → ι → σ)

def exec : σ → List ι → σ
  | s, [] => s
  | s, a :: as => exec (step s a) as

/-- `P` holds in every state of the run. -/
def Along (P : σ → Prop) : σ → List ι → Prop
  | s, [] => P s
  | s, a :: as => P s ∧ Along P (step s a) as

/-- `Q` holds of every operation in the state it is applied to. -/
def EachStep (Q : σ → ι → Prop) : σ → List ι → Prop
  | _, [] => True
  | s, a :: as => Q s a ∧ EachStep Q (step s a) as

instance decidableEachStep (Q : σ → ι → Prop) [∀ s a, Decidable (Q s a)] :
    ∀ s as, Decidable (EachStep step Q s as)
  | _, [] => .isTrue trivial
  | s, a :: as =>
    have := decidableEachStep Q (step s a) as
    inferInstanceAs (Decidable (Q s a ∧ EachStep step Q (step s a) as))

variable {step} {Inv P : σ → Prop} {Ok Q : σ → ι → Prop} {as : List ι}

theorem Along.head {s : σ} (h : Along step P s as) : P s := by
  cases as with
  | nil => exact h
  | cons a as => exact h.1

theorem Along.exec {s : σ} {as : List ι} (h : Along step P s as) : P (exec step s as) := by
  induction as generalizing s with
  | nil => exact h
  | cons a as ih => exact ih h.2

/-- An invariant kept by every permitted step holds at the end of every permitted
run. -/
theorem exec_of_step (hstep : ∀ s a, Inv s → Ok s a → Inv (step s a)) {s : σ} (hs : Inv s)
    (hok : EachStep step Ok s as) : Inv (exec step s as) := by
  induction as generalizing s with
  | nil => exact hs
  | cons a as ih => exact ih (hstep s a hs hok.1) hok.2

/-- When every permitted step out of a `P`-state keeps `P` exactly if it satisfies
`Q`, a run stays in `P` exactly if all its steps satisfy `Q`.  The invariant `Inv`
is what the permitted steps keep in any case. -/
theorem along_iff_eachStep (hinv : ∀ s a, Inv s → Ok s a → Inv (step s a))
    (hstep : ∀ s a, Inv s → P s → Ok s a → (P (step s a) ↔ Q s a)) {s : σ} (hi : Inv s) (hs : P s)
    (hok : EachStep step Ok s as) : Along step P s as ↔ EachStep step Q s as := by
  induction as generalizing s with
  | nil => exact ⟨fun _ => trivial, fun _ => hs⟩
  | cons a as ih =>
    have hi' := hinv s a hi hok.1
    have hiff := hstep s a hi hs hok.1
    constructor
    · intro h
      exact ⟨hiff.mp h.2.head, (ih hi' h.2.head hok.2).mp h.2⟩
    · intro h
      have hP := hiff.mpr h.1
      exact ⟨hs, (ih hi' hP hok.2).mpr h.2⟩

/-! ## Operations that can fail -/

section Partial

variable {σ : Type u} {ι : Type v} (step : σ → ι → Option σ) (Q : σ → ι → Prop)

/-- `s'` is reached from `s` by operations that satisfy `Q`. -/
inductive Reaches (s : σ) : σ → Prop
  | refl : Reaches s s
  | step {s' s'' : σ} {a : ι} (h : Reaches s s') (hq : Q s' a) (ha : step s' a = some s'') :
      Reaches s s''

variable {step Q} {Inv : σ → Prop}

/-- An invariant kept by every permitted operation holds in every state that is reached. -/
theorem Reaches.inv (hstep : ∀ s a s', Inv s → Q s a → step s a = some s' → Inv s') {s s' : σ}
    (hs : Inv s) (h : Reaches step Q s s') : Inv s' := by
  induction h with
  | refl => exact hs
  | step _ hq ha ih => exact hstep _ _ _ ih hq ha

theorem Reaches.mono {Q' : σ → ι → Prop} (hQ : ∀ s a, Q s a → Q' s a) {s s' : σ} (h : Reaches step Q s s') :
    Reaches step Q' s s' := by
  induction h with
  | refl => exact .refl
  | step _ hq ha ih => exact ih.step (hQ _ _ hq) ha

/-- A list of operations that are permitted in every state. -/
theorem Reaches.ofList {s s' s'' : σ} {as : List ι} (h : Reaches step Q s s')
    (hq : ∀ a ∈ as, ∀ s, Q s a) (ha : as.foldlM step s' = some s'') : Reaches step Q s s'' := by
  induction as generalizing s' with
  | nil =>
    obtain rfl := Option.some.inj ha
    exact h
  | cons a as ih =>
    obtain ⟨r, hr, hrest⟩ := Option.bind_eq_some_iff.mp ha
    exact ih (h.step (hq a List.mem_cons_self s') hr) (fun b hb => hq b (List.mem_cons_of_mem _ hb))
      hrest

section Decide

variable (step Q) [∀ s a, Decidable (Q s a)]

/-- The state that operations lead to, if all of them are permitted. -/
def permitted : σ → List ι → Option σ
  | s, [] => some s
  | s, a :: as => if Q s a then (step s a).bind fun s' => permitted s' as else none

variable {step Q}

theorem Reaches.ofPermitted {s s' s'' : σ} {as : List ι} (h : Reaches step Q s s') (ha : permitted step Q s' as = some s'') :
    Reaches step Q s s'' := by
  induction as generalizing s' with
  | nil =>
    obtain rfl := Option.some.inj ha
    exact h
  | cons a as ih =>
    obtain ⟨hq, hrest⟩ := Option.ite_none_right_eq_some.mp ha
    obtain ⟨r, hr, hrest⟩ := Option.bind_eq_some_iff.mp hrest
    exact ih (h.step hq hr) hrest

end Decide

end Partial

end Runs
