import Mathlib.Algebra.Order.Group.Nat
import Mathlib.Data.Nat.ModEq

/-!
# Reading and writing bytes

`putLE k n` is the number `n` in `k` bytes, the low byte first, and `getLE` reads it
back.

A reader takes bytes from an `Input` and fills a state beside it.  It may stop with a
`Fault`, an exception or a failed assertion, and the state it leaves then is part of
the result.  The rules `bind_ok`, `bind_error`, `bind_eq_ok` and `bind_eq_error` step
through a reader, and `Accepts x bs` says that the reader `x` of a check takes the
bytes `bs` and succeeds: it composes along the shape of the format
(`Accepts.both`, `Accepts.allM`).  `Alongside R` compares two readers of one input,
`Keeps P` says that a reader keeps a property of the state, and `Settles P rest` that it
does so on one input and leaves `rest` if it returns.  `Follows x y` says that `y` takes
the way of `x` where that returns, whatever they do to their states.
-/

namespace Readers

/-! ## Numbers -/

/-- The `k` low bytes of `n`, the lowest first. -/
def putLE : Nat → Nat → List UInt8
  | 0, _ => []
  | k + 1, n => UInt8.ofNat n :: putLE k (n / 256)

def getLE (bytes : List UInt8) : Nat := bytes.foldr (fun b n => b.toNat + 256 * n) 0

@[simp] theorem putLE_length (k n : Nat) : (putLE k n).length = k := by
  induction k generalizing n with
  | zero => rfl
  | succ k ih => rw [putLE, List.length_cons, ih]

theorem getLE_putLE {k n : Nat} (hn : n < 256 ^ k) : getLE (putLE k n) = n := by
  induction k generalizing n with
  | zero =>
    have : n = 0 := by simpa using hn
    exact this.symm
  | succ k ih =>
    have hdiv : n / 256 < 256 ^ k := Nat.div_lt_of_lt_mul (by rwa [pow_succ'] at hn)
    have hstep : getLE (putLE (k + 1) n) = n % 256 + 256 * getLE (putLE k (n / 256)) := by
      simp [getLE, putLE]
    rw [hstep, ih hdiv]
    exact Nat.mod_add_div n 256

theorem getLE_lt (bytes : List UInt8) : getLE bytes < 256 ^ bytes.length := by
  induction bytes with
  | nil => simp [getLE]
  | cons b bytes ih =>
    have hb : b.toNat < 256 := b.toNat_lt
    have hcons : getLE (b :: bytes) = b.toNat + 256 * getLE bytes := rfl
    rw [hcons, List.length_cons, pow_succ']
    omega

/-! ## Readers -/

/-- Why a reader stops. -/
inductive Fault where
  /-- An exception, which a caller may catch. -/
  | thrown
  /-- A failed assertion, which ends the process. -/
  | abort

/-- The bytes in front of a reader, and the state it fills. -/
structure Input (σ : Type) where
  bytes : List UInt8
  st : σ

/-- A reader that fills a state `σ`. -/
abbrev Reader (σ α : Type) : Type := EStateM Fault (Input σ) α

section Rules

variable {ε ρ σ α β : Type} {x : EStateM ε ρ α} {f : α → EStateM ε ρ β} {s s' s'' : ρ} {a : α} {b : β}
  {e : ε}

theorem bind_ok (h : x s = .ok a s') : (x >>= f) s = f a s' := by
  change EStateM.bind x f s = _
  simp only [EStateM.bind, h]

theorem bind_error (h : x s = .error e s') : (x >>= f) s = .error e s' := by
  change EStateM.bind x f s = _
  simp only [EStateM.bind, h]

theorem bind_eq_ok : (x >>= f) s = .ok b s'' ↔ ∃ a s', x s = .ok a s' ∧ f a s' = .ok b s'' := by
  cases h : x s with
  | ok a s' => rw [bind_ok h]; simp
  | error e s' => rw [bind_error h]; simp

theorem bind_eq_error : (x >>= f) s = .error e s'' ↔
    x s = .error e s'' ∨ ∃ a s', x s = .ok a s' ∧ f a s' = .error e s'' := by
  cases h : x s with
  | ok a s' => rw [bind_ok h]; simp
  | error e s' => rw [bind_error h]; simp

@[simp] theorem pure_run (a : α) (s : Input σ) : (pure a : Reader σ α) s = .ok a s := rfl

end Rules

section Readers

variable {σ τ α : Type} {e : Fault} {s' : Input σ} {x : Reader σ Bool}

/-- Stop with an exception. -/
def throwing : Reader σ α := fun s => .error .thrown s

/-- Stop with a failed assertion. -/
def aborting : Reader σ α := fun s => .error .abort s

def getSt : Reader σ σ := fun s => .ok s.st s

def setSt (st : σ) : Reader σ Unit := fun s => .ok () ⟨s.bytes, st⟩

def modifySt (f : σ → σ) : Reader σ Unit := fun s => .ok () ⟨s.bytes, f s.st⟩

/-- The next `n` bytes; if there are fewer, an exception. -/
def take (n : Nat) : Reader σ (List UInt8) := fun s =>
  if n ≤ s.bytes.length then .ok (s.bytes.take n) ⟨s.bytes.drop n, s.st⟩ else .error .thrown s

/-- The next number of `k` bytes. -/
def takeLE (k : Nat) : Reader σ Nat := do return getLE (← take k)

/-- Read a number of `k` bytes, and go on if it is `v`. -/
def expectLE (k v : Nat) (x : Reader σ Bool) : Reader σ Bool := do
  if (← takeLE k) ≠ v then pure false else x

/-- `x && y`: the second check runs if the first succeeds. -/
def both (x y : Reader σ Bool) : Reader σ Bool := do
  if ← x then y else pure false

/-- Run a reader of a part of the state. -/
def zoom (get : σ → τ) (put : σ → τ → σ) (x : Reader τ α) : Reader σ α := fun s =>
  match x ⟨s.bytes, get s.st⟩ with
  | .ok a s' => .ok a ⟨s'.bytes, put s.st s'.st⟩
  | .error e s' => .error e ⟨s'.bytes, put s.st s'.st⟩

def aside (x : Reader Unit α) : Reader σ α := zoom (fun _ => ()) (fun s _ => s) x

/-- `try x catch (...) false`. -/
def orFalse (x : Reader σ Bool) : Reader σ Bool := fun s =>
  match x s with
  | .error .thrown s' => .ok false s'
  | r => r

/-- The input at which a reader has thrown -/
def thrownAt (r : EStateM.Result Fault (Input σ) α) : Option (Input σ) :=
  match r with
  | .error .thrown s => some s
  | _ => none

@[simp] theorem throwing_run (s : Input σ) : (throwing : Reader σ α) s = .error .thrown s := rfl

@[simp] theorem aborting_run (s : Input σ) : (aborting : Reader σ α) s = .error .abort s := rfl

@[simp] theorem getSt_run (s : Input σ) : getSt s = .ok s.st s := rfl

@[simp] theorem setSt_run (st : σ) (s : Input σ) : setSt st s = .ok () ⟨s.bytes, st⟩ := rfl

@[simp] theorem modifySt_run (f : σ → σ) (s : Input σ) : modifySt f s = .ok () ⟨s.bytes, f s.st⟩ := rfl

theorem take_append (bs rest : List UInt8) (st : σ) : take bs.length ⟨bs ++ rest, st⟩ = .ok bs ⟨rest, st⟩ := by
  simp [take]

theorem takeLE_putLE {k n : Nat} (hn : n < 256 ^ k) (rest : List UInt8) (st : σ) :
    takeLE k ⟨putLE k n ++ rest, st⟩ = .ok n ⟨rest, st⟩ := by
  have h := take_append (putLE k n) rest st
  rw [putLE_length] at h
  unfold takeLE
  rw [bind_ok h, getLE_putLE hn]
  rfl

/-- A number is read or the input is too short. -/
theorem takeLE_cases (k : Nat) (s : Input σ) :
    (∃ n, takeLE k s = .ok n ⟨s.bytes.drop k, s.st⟩ ∧ n = getLE (s.bytes.take k) ∧ k ≤ s.bytes.length) ∨
      (takeLE k s = .error .thrown s ∧ s.bytes.length < k) := by
  unfold takeLE
  by_cases hk : k ≤ s.bytes.length
  · have h : take k s = .ok (s.bytes.take k) ⟨s.bytes.drop k, s.st⟩ := if_pos hk
    exact .inl ⟨_, bind_ok h, rfl, hk⟩
  · have h : take k s = .error .thrown s := if_neg hk
    exact .inr ⟨bind_error h, Nat.lt_of_not_le hk⟩

/-- The state behind a reader that does not end the process. -/
def state? (x : Reader σ α) (s : Input σ) : Option σ :=
  match x s with
  | .ok _ s' => some s'.st
  | .error .thrown s' => some s'.st
  | .error .abort _ => none

/-- The state behind a reader that returns. -/
def final? (x : Reader σ α) (s : Input σ) : Option σ :=
  match x s with
  | .ok _ s' => some s'.st
  | .error _ _ => none

theorem final?_eq_some {x : Reader σ α} {s : Input σ} {st : σ} :
    final? x s = some st ↔ ∃ a rest, x s = .ok a ⟨rest, st⟩ := by
  unfold final?
  cases h : x s with
  | ok a s' =>
    simp only [Option.some.injEq, EStateM.Result.ok.injEq]
    constructor
    · rintro rfl
      exact ⟨a, s'.bytes, rfl, rfl⟩
    · rintro ⟨_, _, -, rfl⟩
      rfl
  | error e s' => simp

section State?

variable {β : Type} {x : Reader σ α} {f : α → Reader σ β} {s s' : Input σ} {a : α}

theorem state?_ok (h : x s = .ok a s') : state? x s = some s'.st := by
  simp only [state?, h]

theorem state?_thrown (h : x s = .error .thrown s') : state? x s = some s'.st := by
  simp only [state?, h]

theorem state?_abort (h : x s = .error .abort s') : state? x s = none := by
  simp only [state?, h]

theorem state?_bind_ok (h : x s = .ok a s') : state? (x >>= f) s = state? (f a) s' := by
  simp only [state?, bind_ok h]

theorem state?_bind_thrown (h : x s = .error .thrown s') : state? (x >>= f) s = some s'.st :=
  state?_thrown (bind_error h)

theorem state?_bind_abort (h : x s = .error .abort s') : state? (x >>= f) s = none :=
  state?_abort (bind_error h)

end State?

theorem zoom_ok {get : σ → τ} {put : σ → τ → σ} {x : Reader τ α} {s : Input σ} {a : α}
    {s' : Input τ} (h : x ⟨s.bytes, get s.st⟩ = .ok a s') :
    zoom get put x s = .ok a ⟨s'.bytes, put s.st s'.st⟩ := by
  simp only [zoom, h]

theorem zoom_error {get : σ → τ} {put : σ → τ → σ} {x : Reader τ α} {s : Input σ} {s' : Input τ}
    (h : x ⟨s.bytes, get s.st⟩ = .error e s') :
    zoom get put x s = .error e ⟨s'.bytes, put s.st s'.st⟩ := by
  simp only [zoom, h]

theorem aside_ok {x : Reader Unit α} {s : Input σ} {a : α} {rest : List UInt8}
    (h : x ⟨s.bytes, ()⟩ = .ok a ⟨rest, ()⟩) : aside x s = .ok a ⟨rest, s.st⟩ := by
  simp only [aside, zoom, h]

theorem aside_error {x : Reader Unit α} {s : Input σ} {rest : List UInt8}
    (h : x ⟨s.bytes, ()⟩ = .error e ⟨rest, ()⟩) : aside x s = .error e ⟨rest, s.st⟩ := by
  simp only [aside, zoom, h]

theorem both_true {y : Reader σ Bool} {s : Input σ} (h : x s = .ok true s') : both x y s = y s' := bind_ok h

theorem both_false {y : Reader σ Bool} {s : Input σ} (h : x s = .ok false s') : both x y s = .ok false s' := bind_ok h

theorem both_error {y : Reader σ Bool} {s : Input σ} (h : x s = .error e s') :
    both x y s = .error e s' := bind_error h

theorem eq_thrown_of_thrownAt {r : EStateM.Result Fault (Input σ) α} {s : Input σ}
    (h : thrownAt r = some s) : r = .error .thrown s := by
  cases r with
  | ok a s' => cases h
  | error e s' =>
    cases e with
    | thrown =>
      cases h
      rfl
    | abort => cases h

theorem orFalse_ok {s : Input σ} {b : Bool} (h : x s = .ok b s') : orFalse x s = .ok b s' := by
  simp only [orFalse, h]

theorem orFalse_thrown {s : Input σ} (h : x s = .error .thrown s') : orFalse x s = .ok false s' := by
  simp only [orFalse, h]

theorem orFalse_abort {s : Input σ} (h : x s = .error .abort s') : orFalse x s = .error .abort s' := by
  simp only [orFalse, h]

end Readers

/-! ## Readers that leave the state alone -/

section Quiet

variable {σ α β : Type}

/-- The reader does not change the state, and stops only with an exception. -/
structure Quiet (x : Reader σ α) : Prop where
  ok : ∀ {s a s'}, x s = .ok a s' → s'.st = s.st
  error : ∀ {s e s'}, x s = .error e s' → e = .thrown ∧ s'.st = s.st

theorem quiet_pure (a : α) : Quiet (pure a : Reader σ α) where
  ok := by
    intro s b s' h
    obtain ⟨-, rfl⟩ : a = b ∧ s = s' := by simpa using h
    rfl
  error := by
    intro s e s' h
    simp at h

theorem quiet_takeLE (k : Nat) : Quiet (takeLE k : Reader σ Nat) where
  ok := by
    intro s a s' h
    rcases takeLE_cases k s with ⟨n, hrun, -⟩ | ⟨hrun, -⟩ <;> rw [hrun] at h
    · obtain ⟨-, rfl⟩ : n = a ∧ _ = s' := by simpa using h
      rfl
    · simp at h
  error := by
    intro s e s' h
    rcases takeLE_cases k s with ⟨n, hrun, -⟩ | ⟨hrun, -⟩ <;> rw [hrun] at h
    · simp at h
    · obtain ⟨rfl, rfl⟩ : Fault.thrown = e ∧ s = s' := by simpa using h
      exact ⟨rfl, rfl⟩

theorem Quiet.bind {x : Reader σ α} {f : α → Reader σ β} (hx : Quiet x) (hf : ∀ a, Quiet (f a)) :
    Quiet (x >>= f) where
  ok := by
    intro s b s'' h
    obtain ⟨a, s', hone, htwo⟩ := bind_eq_ok.mp h
    exact ((hf a).ok htwo).trans (hx.ok hone)
  error := by
    intro s e s'' h
    rcases bind_eq_error.mp h with hone | ⟨a, s', hone, htwo⟩
    · exact hx.error hone
    · obtain ⟨he, hst⟩ := (hf a).error htwo
      exact ⟨he, hst.trans (hx.ok hone)⟩

theorem Quiet.ite {P : Prop} [Decidable P] {x y : Reader σ α} (hx : Quiet x) (hy : Quiet y) :
    Quiet (if P then x else y) := by
  split
  · exact hx
  · exact hy

end Quiet

/-! ## Readers that keep a property of the state -/

section Keeps

variable {σ α β ι : Type} {P : σ → Prop} {x : Reader σ α}

/-- The state at the end has the property, however the reader ends. -/
def Ends (P : σ → Prop) : EStateM.Result Fault (Input σ) α → Prop
  | .ok _ s => P s.st
  | .error _ s => P s.st

def Keeps (P : σ → Prop) (x : Reader σ α) : Prop := ∀ s, P s.st → Ends P (x s)

theorem Ends.state? {s : Input σ} (h : Ends P (x s)) {st : σ} (hst : Readers.state? x s = some st) : P st := by
  unfold Readers.state? at hst
  cases hx : x s with
  | ok a s' =>
    rw [hx] at h hst
    obtain rfl := Option.some.inj hst
    exact h
  | error e s' =>
    rw [hx] at h hst
    cases e with
    | thrown =>
      obtain rfl := Option.some.inj hst
      exact h
    | abort => exact absurd hst (by simp)

theorem keeps_pure (a : α) : Keeps P (pure a : Reader σ α) := fun _ h => h

theorem keeps_throwing : Keeps P (throwing : Reader σ α) := fun _ h => h

theorem keeps_aborting : Keeps P (aborting : Reader σ α) := fun _ h => h

theorem keeps_modifySt {f : σ → σ} (hf : ∀ s, P s → P (f s)) : Keeps P (modifySt f) :=
  fun s h => hf s.st h

theorem keeps_takeLE (k : Nat) : Keeps P (takeLE k : Reader σ Nat) := by
  intro s h
  rcases takeLE_cases k s with ⟨n, hrun, -⟩ | ⟨hrun, -⟩
  · rw [hrun]
    exact h
  · rw [hrun]
    exact h

theorem keeps_aside (x : Reader Unit α) : Keeps P (aside x : Reader σ α) := by
  intro s h
  cases hx : x ⟨s.bytes, ()⟩ with
  | ok a s' =>
    rw [aside_ok hx]
    exact h
  | error e s' =>
    rw [aside_error hx]
    exact h

theorem Keeps.bind {f : α → Reader σ β} (hx : Keeps P x)
    (hf : ∀ s a s', P s.st → x s = .ok a s' → P s'.st → Ends P (f a s')) : Keeps P (x >>= f) := by
  intro s h
  have hend := hx s h
  cases hrun : x s with
  | ok a s' =>
    rw [hrun] at hend
    rw [bind_ok hrun]
    exact hf s a s' h hrun hend
  | error e s' =>
    rw [hrun] at hend
    rw [bind_error hrun]
    exact hend

theorem Keeps.seq {f : α → Reader σ β} (hx : Keeps P x) (hf : ∀ a, Keeps P (f a)) : Keeps P (x >>= f) :=
  hx.bind fun _ a s' _ _ h => hf a s' h

theorem Keeps.ite {p : Prop} [Decidable p] {y : Reader σ α} (hx : Keeps P x) (hy : Keeps P y) :
    Keeps P (if p then x else y) := by
  split
  · exact hx
  · exact hy

theorem Keeps.both {x y : Reader σ Bool} (hx : Keeps P x) (hy : Keeps P y) : Keeps P (Readers.both x y) :=
  hx.seq fun _ => hy.ite (keeps_pure false)

theorem Keeps.orFalse {x : Reader σ Bool} (hx : Keeps P x) : Keeps P (Readers.orFalse x) := by
  intro s h
  have hend := hx s h
  unfold Readers.orFalse
  cases hrun : x s with
  | ok a s' =>
    rw [hrun] at hend
    exact hend
  | error e s' =>
    rw [hrun] at hend
    cases e <;> exact hend

theorem Keeps.allM {f : ι → Reader σ Bool} (xs : List ι) (hf : ∀ x ∈ xs, Keeps P (f x)) : Keeps P (xs.allM f) := by
  induction xs with
  | nil => exact keeps_pure true
  | cons x xs ih =>
    have hrest := ih fun y hy => hf y (List.mem_cons_of_mem _ hy)
    refine (hf x List.mem_cons_self).seq fun a => ?_
    cases a with
    | false => exact keeps_pure false
    | true => exact hrest

theorem Keeps.forM {f : ι → Reader σ Unit} (xs : List ι) (hf : ∀ x ∈ xs, Keeps P (f x)) : Keeps P (xs.forM f) := by
  induction xs with
  | nil => exact keeps_pure ()
  | cons x xs ih =>
    exact (hf x List.mem_cons_self).seq fun _ => ih fun y hy => hf y (List.mem_cons_of_mem _ hy)

theorem keeps_getSt : Keeps P (getSt : Reader σ σ) := fun _ h => h

theorem keeps_setSt {st : σ} (h : P st) : Keeps P (setSt st) := fun _ _ => h

theorem keeps_take (n : Nat) : Keeps P (take n : Reader σ (List UInt8)) := by
  intro s h
  unfold take
  split
  · exact h
  · exact h

theorem Quiet.keeps (hx : Quiet x) : Keeps P x := by
  intro s h
  cases hrun : x s with
  | ok a s' => exact (congrArg P (hx.ok hrun)).mpr h
  | error e s' => exact (congrArg P (hx.error hrun).2).mpr h

/-- A reader of a part of the state keeps what follows from a property of the part. -/
theorem Keeps.zoom {τ : Type} {get : σ → τ} {put : σ → τ → σ} {Q : τ → Prop} {x : Reader τ α}
    (hx : Keeps Q x) (hget : ∀ s, P s → Q (get s)) (hput : ∀ s t, P s → Q t → P (put s t)) :
    Keeps P (Readers.zoom get put x) := by
  intro s h
  have hend := hx ⟨s.bytes, get s.st⟩ (hget s.st h)
  cases hrun : x ⟨s.bytes, get s.st⟩ with
  | ok a s' =>
    rw [hrun] at hend
    rw [zoom_ok hrun]
    exact hput s.st s'.st h hend
  | error e s' =>
    rw [hrun] at hend
    rw [zoom_error hrun]
    exact hput s.st s'.st h hend

end Keeps

/-! ## Readers of one section of the input -/

section Settles

variable {σ τ α β : Type} {P : σ → Prop} {s : Input σ} {rest : List UInt8}

/-- The reader has taken the bytes in front of `rest` if it returns, and the state has the
property unless the process ends. -/
def Settles (P : σ → Prop) (rest : List UInt8) : EStateM.Result Fault (Input σ) α → Prop
  | .ok _ s => s.bytes = rest ∧ P s.st
  | .error .thrown s => P s.st
  | .error .abort _ => True

theorem Settles.bind {x : Reader σ α} {f : α → Reader σ β} {mid : List UInt8} (hx : Settles P mid (x s))
    (hf : ∀ a st, P st → Settles P rest (f a ⟨mid, st⟩)) : Settles P rest ((x >>= f) s) := by
  cases hrun : x s with
  | ok a s' =>
    rw [hrun] at hx
    rw [bind_ok hrun]
    obtain ⟨rfl, hP⟩ := hx
    exact hf a s'.st hP
  | error e s' =>
    rw [hrun] at hx
    rw [bind_error hrun]
    cases e with
    | thrown => exact hx
    | abort => trivial

theorem Settles.zoom {get : σ → τ} {put : σ → τ → σ} {Q : τ → Prop} {x : Reader τ α}
    (hx : Settles Q rest (x ⟨s.bytes, get s.st⟩)) (hput : ∀ t, Q t → P (put s.st t)) :
    Settles P rest (Readers.zoom get put x s) := by
  cases hrun : x ⟨s.bytes, get s.st⟩ with
  | ok a s' =>
    rw [hrun] at hx
    rw [zoom_ok hrun]
    exact ⟨hx.1, hput _ hx.2⟩
  | error e s' =>
    rw [hrun] at hx
    rw [zoom_error hrun]
    cases e with
    | thrown => exact hput _ hx
    | abort => trivial

/-- What follows keeps the property. -/
theorem Settles.state?_bind {x : Reader σ α} {f : α → Reader σ β} (hx : Settles P rest (x s))
    (hf : ∀ a, Keeps P (f a)) {st : σ} (hst : Readers.state? (x >>= f) s = some st) : P st := by
  cases hrun : x s with
  | ok a s' =>
    rw [hrun] at hx
    rw [state?_bind_ok hrun] at hst
    exact (hf a s' hx.2).state? hst
  | error e s' =>
    rw [hrun] at hx
    cases e with
    | thrown =>
      obtain rfl : s'.st = st := by simpa [state?_bind_thrown hrun] using hst
      exact hx
    | abort => exact absurd hst (by simp [state?_bind_abort hrun])

end Settles

/-! ## Two readers side by side -/

section Alongside

variable {σ τ ι : Type}

/-- Two checks of the same input take the same way and keep a relation `R` between their
states; when they refuse the input, all that is known is `P`. -/
inductive Alongside (R : σ → τ → Prop) (P : σ → Prop) :
    EStateM.Result Fault (Input σ) Bool → EStateM.Result Fault (Input τ) Bool → Prop
  | done {bytes : List UInt8} {s : σ} {t : τ} (h : R s t) :
      Alongside R P (.ok true ⟨bytes, s⟩) (.ok true ⟨bytes, t⟩)
  | refused {s : Input σ} (t : Input τ) (h : P s.st) : Alongside R P (.ok false s) (.ok false t)
  | cut {bytes : List UInt8} {s : σ} {t : τ} (h : R s t) :
      Alongside R P (.error .thrown ⟨bytes, s⟩) (.error .thrown ⟨bytes, t⟩)

theorem Alongside.allM {R : σ → τ → Prop} {P : σ → Prop} {f : ι → Reader σ Bool} {g : ι → Reader τ Bool}
    (xs : List ι)
    (h : ∀ x ∈ xs, ∀ bytes s t, R s t → Alongside R P (f x ⟨bytes, s⟩) (g x ⟨bytes, t⟩))
    {bytes : List UInt8} {s : σ} {t : τ} (hst : R s t) :
    Alongside R P (xs.allM f ⟨bytes, s⟩) (xs.allM g ⟨bytes, t⟩) := by
  induction xs generalizing bytes s t with
  | nil => exact .done hst
  | cons x xs ih =>
    have hhead := h x List.mem_cons_self bytes s t hst
    simp only [List.allM]
    generalize hf : f x ⟨bytes, s⟩ = r at hhead
    generalize hg : g x ⟨bytes, t⟩ = r' at hhead
    cases hhead with
    | done hst' =>
      rw [bind_ok hf, bind_ok hg]
      exact ih (fun y hy => h y (List.mem_cons_of_mem _ hy)) hst'
    | refused t' hP =>
      rw [bind_ok hf, bind_ok hg]
      exact .refused t' hP
    | cut hst' =>
      rw [bind_error hf, bind_error hg]
      exact .cut hst'

end Alongside

/-! ## Checks that accept -/

section Accepts

variable {σ ι : Type} {x y : Reader σ Bool} {bs bs' : List UInt8}

/-- The check takes the bytes `bs`, whatever follows them, and succeeds. -/
def Accepts (x : Reader σ Bool) (bs : List UInt8) : Prop :=
  ∀ rest st, ∃ st', x ⟨bs ++ rest, st⟩ = .ok true ⟨rest, st'⟩

theorem accepts_pure : Accepts (pure true : Reader σ Bool) [] := fun _ st => ⟨st, rfl⟩

theorem Accepts.both (hx : Accepts x bs) (hy : Accepts y bs') : Accepts (Readers.both x y) (bs ++ bs') := by
  intro rest st
  obtain ⟨st₁, h₁⟩ := hx (bs' ++ rest) st
  obtain ⟨st₂, h₂⟩ := hy rest st₁
  refine ⟨st₂, ?_⟩
  unfold Readers.both
  rw [List.append_assoc, bind_ok h₁, if_pos rfl, h₂]

theorem Accepts.allM {p : ι → Reader σ Bool} {put : ι → List UInt8} {xs : List ι}
    (h : ∀ x ∈ xs, Accepts (p x) (put x)) : Accepts (xs.allM p) (xs.flatMap put) := by
  induction xs with
  | nil => exact accepts_pure
  | cons x xs ih =>
    have hrest := ih fun y hy => h y (List.mem_cons_of_mem _ hy)
    intro rest st
    obtain ⟨st₁, h₁⟩ := h x List.mem_cons_self (xs.flatMap put ++ rest) st
    obtain ⟨st₂, h₂⟩ := hrest rest st₁
    refine ⟨st₂, ?_⟩
    rw [List.flatMap_cons, List.append_assoc, List.allM, bind_ok h₁]
    exact h₂

/-- A number that is read first. -/
theorem accepts_takeLE {k n : Nat} (hn : n < 256 ^ k) {f : Nat → Reader σ Bool}
    (h : Accepts (f n) bs) : Accepts (takeLE k >>= f) (putLE k n ++ bs) := by
  intro rest st
  obtain ⟨st', hf⟩ := h rest st
  refine ⟨st', ?_⟩
  rw [List.append_assoc, bind_ok (takeLE_putLE hn _ st), hf]

theorem Accepts.expectLE {k n : Nat} (hn : n < 256 ^ k) (h : Accepts x bs) :
    Accepts (Readers.expectLE k n x) (putLE k n ++ bs) :=
  accepts_takeLE hn (by simpa using h)

/-- A loop that reads one piece for each element. -/
theorem forM_pieces {ι : Type} {f : ι → Reader σ Unit} {piece : ι → List UInt8}
    {I : List ι → σ → Prop} (xs done : List ι)
    (hf : ∀ x ∈ xs, ∀ done rest st, I done st →
      ∃ st', f x ⟨piece x ++ rest, st⟩ = .ok () ⟨rest, st'⟩ ∧ I (done ++ [x]) st')
    (rest : List UInt8) {st : σ} (h : I done st) :
    ∃ st', xs.forM f ⟨xs.flatMap piece ++ rest, st⟩ = .ok () ⟨rest, st'⟩ ∧ I (done ++ xs) st' := by
  induction xs generalizing done st with
  | nil => exact ⟨st, rfl, by simpa using h⟩
  | cons x xs ih =>
    obtain ⟨st₁, h₁, hinv₁⟩ := hf x List.mem_cons_self done (xs.flatMap piece ++ rest) st h
    obtain ⟨st₂, h₂, hinv₂⟩ := ih (done ++ [x])
      (fun y hy => hf y (List.mem_cons_of_mem _ hy)) hinv₁
    refine ⟨st₂, ?_, by simpa using hinv₂⟩
    change (f x >>= fun _ => xs.forM f) _ = _
    rw [List.flatMap_cons, List.append_assoc, bind_ok h₁, h₂]

def Takes (x : Reader σ Unit) (n : Nat) : Prop :=
  ∀ (bs rest : List UInt8) (st : σ), bs.length = n → ∃ st', x ⟨bs ++ rest, st⟩ = .ok () ⟨rest, st'⟩

theorem Takes.forM {f : ι → Reader σ Unit} {n : Nat} (xs : List ι) (h : ∀ x ∈ xs, Takes (f x) n) :
    Takes (xs.forM f) (xs.length * n) := by
  induction xs with
  | nil =>
    intro bs rest st hbs
    obtain rfl : bs = [] := List.length_eq_zero_iff.mp (by simpa using hbs)
    exact ⟨st, rfl⟩
  | cons x xs ih =>
    intro bs rest st hbs
    rw [List.length_cons, Nat.add_mul, Nat.one_mul] at hbs
    -- the first iteration takes the first `n` bytes
    obtain ⟨st₁, h₁⟩ := h x List.mem_cons_self (bs.take n) (bs.drop n ++ rest) st (by simp; omega)
    obtain ⟨st₂, h₂⟩ := ih (fun y hy => h y (List.mem_cons_of_mem _ hy)) (bs.drop n) rest st₁
      (by simp; omega)
    refine ⟨st₂, ?_⟩
    rw [← List.append_assoc, List.take_append_drop] at h₁
    change (f x >>= fun _ => xs.forM f) _ = _
    rw [bind_ok h₁, h₂]

theorem Takes.accepts {x : Reader σ Unit} (h : Takes x bs.length) : Accepts (do x; pure true) bs := by
  intro rest st
  obtain ⟨st', hx⟩ := h bs rest st rfl
  exact ⟨st', bind_ok hx⟩

end Accepts

/-! ## Readers that take the same way -/

section Follows

variable {σ τ α β ι : Type}

/-- Where `x` returns, `y` returns the same and leaves the same bytes. -/
def Follows (x : Reader σ α) (y : Reader τ α) : Prop :=
  ∀ bytes st st' a s, x ⟨bytes, st⟩ = .ok a s → ∃ st'', y ⟨bytes, st'⟩ = .ok a ⟨s.bytes, st''⟩

theorem follows_pure (a : α) : Follows (pure a : Reader σ α) (pure a : Reader τ α) := by
  intro bytes st st' b s h
  obtain ⟨rfl, rfl⟩ : a = b ∧ _ = s := by simpa using h
  exact ⟨st', rfl⟩

theorem follows_takeLE (k : Nat) : Follows (takeLE k : Reader σ Nat) (takeLE k : Reader τ Nat) := by
  intro bytes st st' n s h
  rcases takeLE_cases k ⟨bytes, st⟩ with ⟨m, hrun, rfl, hle⟩ | ⟨hrun, -⟩ <;> rw [hrun] at h
  · obtain ⟨rfl, rfl⟩ : getLE (bytes.take k) = n ∧ _ = s := by simpa using h
    rcases takeLE_cases k ⟨bytes, st'⟩ with ⟨m, hrun', rfl, -⟩ | ⟨-, hlt⟩
    · exact ⟨st', hrun'⟩
    · exact absurd hlt (Nat.not_lt_of_le hle)
  · simp at h

theorem Follows.bind {x : Reader σ α} {y : Reader τ α} {f : α → Reader σ β} {g : α → Reader τ β}
    (h : Follows x y) (hf : ∀ a, Follows (f a) (g a)) : Follows (x >>= f) (y >>= g) := by
  intro bytes st st' b s hrun
  obtain ⟨a, s₁, hx, hfa⟩ := bind_eq_ok.mp hrun
  obtain ⟨st₁, hy⟩ := h bytes st st' a s₁ hx
  obtain ⟨st₂, hga⟩ := hf a s₁.bytes s₁.st st₁ b s hfa
  exact ⟨st₂, bind_eq_ok.mpr ⟨a, _, hy, hga⟩⟩

theorem Follows.ite {P : Prop} [Decidable P] {x x' : Reader σ α} {y y' : Reader τ α}
    (h : Follows x y) (h' : Follows x' y') : Follows (if P then x else x') (if P then y else y') := by
  split
  · exact h
  · exact h'

theorem Follows.both {x x' : Reader σ Bool} {y y' : Reader τ Bool} (h : Follows x y)
    (h' : Follows x' y') : Follows (Readers.both x x') (Readers.both y y') :=
  h.bind fun _ => h'.ite (follows_pure false)

theorem Follows.expectLE (k v : Nat) {x : Reader σ Bool} {y : Reader τ Bool} (h : Follows x y) :
    Follows (Readers.expectLE k v x) (Readers.expectLE k v y) :=
  (follows_takeLE k).bind fun _ => (follows_pure false).ite h

theorem Follows.allM {f : ι → Reader σ Bool} {g : ι → Reader τ Bool} (xs : List ι)
    (h : ∀ x ∈ xs, Follows (f x) (g x)) : Follows (xs.allM f) (xs.allM g) := by
  induction xs with
  | nil => exact follows_pure true
  | cons x xs ih =>
    have hrest := ih fun y hy => h y (List.mem_cons_of_mem _ hy)
    refine (h x List.mem_cons_self).bind fun a => ?_
    cases a with
    | false => exact follows_pure false
    | true => exact hrest

theorem Follows.forM {f : ι → Reader σ Unit} {g : ι → Reader τ Unit} (xs : List ι)
    (h : ∀ x ∈ xs, Follows (f x) (g x)) : Follows (xs.forM f) (xs.forM g) := by
  induction xs with
  | nil => exact follows_pure ()
  | cons x xs ih =>
    exact (h x List.mem_cons_self).bind fun _ => ih fun y hy => h y (List.mem_cons_of_mem _ hy)

/-- The reader returns only if there are `n` bytes. -/
def Needs (x : Reader σ Unit) (n : Nat) : Prop := ∀ s s', x s = .ok () s' → n ≤ s.bytes.length

theorem Needs.forM {f : ι → Reader σ Unit} {n : Nat} (xs : List ι) (hneed : ∀ x ∈ xs, Needs (f x) n)
    (htake : ∀ x ∈ xs, Takes (f x) n) : Needs (xs.forM f) (xs.length * n) := by
  induction xs with
  | nil => simp [Needs]
  | cons x xs ih =>
    intro s s' hrun
    obtain ⟨⟨⟩, s₁, hone, hrest⟩ := bind_eq_ok.mp hrun
    have hle := hneed x List.mem_cons_self s s₁ hone
    -- the first reader leaves all but the first `n` bytes
    obtain ⟨st', hrun'⟩ := htake x List.mem_cons_self (s.bytes.take n) (s.bytes.drop n) s.st (by simp [hle])
    rw [List.take_append_drop, hone] at hrun'
    obtain rfl : s₁ = ⟨s.bytes.drop n, st'⟩ := by simpa using hrun'
    have hmore := ih (fun y hy => hneed y (List.mem_cons_of_mem _ hy))
      (fun y hy => htake y (List.mem_cons_of_mem _ hy)) _ s' hrest
    rw [List.length_drop] at hmore
    rw [List.length_cons, Nat.add_mul, Nat.one_mul]
    omega

/-- Two readers of the same number of bytes. -/
theorem Takes.follows {x : Reader σ Unit} {y : Reader τ Unit} {n : Nat} (hneed : Needs x n)
    (hx : Takes x n) (hy : Takes y n) : Follows x y := by
  intro bytes st st' _ s hrun
  have hle := hneed ⟨bytes, st⟩ s hrun
  obtain ⟨st₁, hx'⟩ := hx (bytes.take n) (bytes.drop n) st (by simp [hle])
  obtain ⟨st₂, hy'⟩ := hy (bytes.take n) (bytes.drop n) st' (by simp [hle])
  rw [List.take_append_drop] at hx' hy'
  rw [hx'] at hrun
  obtain rfl : _ = s := by simpa using hrun
  exact ⟨st₂, hy'⟩

end Follows

end Readers
