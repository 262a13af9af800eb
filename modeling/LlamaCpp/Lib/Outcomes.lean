/-!
# Outcomes of computations that can fail

A computation in `EStateM` returns or throws, and leaves a state either way.  `Ends good bad` says what holds of the outcome.
The rules follow the ways in which computations are put together.
-/

namespace Outcomes

universe u

variable {ε σ α β : Type u}

/-- `good` holds where a computation returns, and `bad` where it throws. -/
def Ends (good : α → σ → Prop) (bad : ε → σ → Prop) : EStateM.Result ε σ α → Prop
  | .ok a s => good a s
  | .error e s => bad e s

variable {good good' : α → σ → Prop} {bad bad' : ε → σ → Prop} {x : EStateM ε σ α} {f : α → EStateM ε σ β} {s s' : σ}

theorem bind_ok {a : α} (h : x s = .ok a s') : (x >>= f) s = f a s' := by
  show EStateM.bind x f s = f a s'
  rw [EStateM.bind, h]

theorem bind_error {e : ε} (h : x s = .error e s') : (x >>= f) s = .error e s' := by
  show EStateM.bind x f s = .error e s'
  rw [EStateM.bind, h]

theorem Ends.bind {post : β → σ → Prop} (hx : Ends good bad (x s))
    (hf : ∀ a s', good a s' → Ends post bad (f a s')) : Ends post bad ((x >>= f) s) := by
  cases h : x s with
  | ok a s' =>
    rw [h] at hx
    rw [bind_ok h]
    exact hf a s' hx
  | error e s' =>
    rw [h] at hx
    rw [bind_error h]
    exact hx

theorem Ends.mono {r : EStateM.Result ε σ α} (h : Ends good bad r) (hgood : ∀ a s, good a s → good' a s)
    (hbad : ∀ e s, bad e s → bad' e s) : Ends good' bad' r := by
  cases r with
  | ok a s => exact hgood a s h
  | error e s => exact hbad e s h

end Outcomes
