import Mathlib

/-!
# Decimal strings

Strings of digits and their values.  Strings of one length are ordered digit by digit, as their
values are; without leading zeros a longer string has the greater value.
-/

namespace Decimal

open List

def AllDigits (s : List Char) : Prop := ∀ c ∈ s, c.isDigit = true

/-- The number that a string of digits stands for. -/
def value (s : List Char) : Nat := Nat.ofDigitChars 10 s 0

def zeros (n : Nat) : List Char := List.replicate n '0'

def nines (n : Nat) : List Char := List.replicate n '9'

/-- Digits without a leading zero. -/
structure Canonical (s : List Char) : Prop where
  digits : AllDigits s
  ne_nil : s ≠ []
  leading : s.head? = some '0' → s.length = 1

/-- By length first, then digit by digit. -/
def Below (a b : List Char) : Prop := a.length < b.length ∨ a.length = b.length ∧ a ≤ b

variable {c : Char} {s a b : List Char}

theorem allDigits_cons : AllDigits (c :: s) ↔ c.isDigit = true ∧ AllDigits s := forall_mem_cons

theorem allDigits_replicate (hc : c.isDigit = true) (n : Nat) :
    AllDigits (List.replicate n c) := fun d hd => eq_of_mem_replicate hd ▸ hc

/-- The digits are the characters from `0` to `9`. -/
theorem isDigit_iff : c.isDigit = true ↔ 48 ≤ c.toNat ∧ c.toNat ≤ 57 := by
  rw [Char.isDigit, Bool.and_eq_true, decide_eq_true_eq, decide_eq_true_eq]
  exact Iff.rfl

theorem char_le_iff {d : Char} : c ≤ d ↔ c.toNat ≤ d.toNat := by
  rw [Char.le_def, UInt32.le_iff_toNat_le]
  rfl

theorem char_lt_iff {d : Char} : c < d ↔ c.toNat < d.toNat := by
  rw [Char.lt_def, UInt32.lt_iff_toNat_lt]
  rfl

theorem cons_le_cons_iff {d : Char} : c :: a ≤ d :: b ↔ c < d ∨ c = d ∧ a ≤ b := by
  rw [le_iff_lt_or_eq, le_iff_lt_or_eq, cons_lt_cons_iff, List.cons.injEq, and_or_left, or_assoc]

theorem value_cons (c : Char) (s : List Char) : value (c :: s) = (c.toNat - 48) * 10 ^ s.length + value s := by
  unfold value
  rw [Nat.ofDigitChars_cons, Nat.ofDigitChars_eq_ofDigitChars_zero]
  simp [Nat.mul_comm]

theorem value_lt (h : AllDigits s) : value s < 10 ^ s.length := by
  induction s with
  | nil => exact Nat.one_pos
  | cons c s ih =>
    obtain ⟨hc, hs⟩ := allDigits_cons.mp h
    have hlt := ih hs
    have hdigit := isDigit_iff.mp hc
    have hmul : (c.toNat - 48) * 10 ^ s.length ≤ 9 * 10 ^ s.length :=
      Nat.mul_le_mul_right _ (by omega)
    rw [value_cons, length_cons, pow_succ]
    omega

theorem value_le_iff (ha : AllDigits a) (hb : AllDigits b) (hlen : a.length = b.length) :
    value a ≤ value b ↔ a ≤ b := by
  induction a generalizing b with
  | nil =>
    cases b with
    | nil => simp
    | cons d b => cases hlen
  | cons c a ih =>
    cases b with
    | nil => cases hlen
    | cons d b =>
      obtain ⟨hc, ha⟩ := allDigits_cons.mp ha
      obtain ⟨hd, hb⟩ := allDigits_cons.mp hb
      have hlen : a.length = b.length := Nat.succ.inj hlen
      have hc := isDigit_iff.mp hc
      have hd := isDigit_iff.mp hd
      have hlta := value_lt ha
      have hltb := value_lt hb
      rw [value_cons, value_cons, cons_le_cons_iff, ← ih ha hb hlen, hlen, char_lt_iff]
      rw [hlen] at hlta
      rcases Nat.lt_trichotomy c.toNat d.toNat with hlt | heq | hgt
      · have hmul : (c.toNat - 48 + 1) * 10 ^ b.length ≤ (d.toNat - 48) * 10 ^ b.length :=
          Nat.mul_le_mul_right _ (by omega)
        rw [Nat.add_mul, Nat.one_mul] at hmul
        simp only [hlt, true_or, iff_true]
        omega
      · have heq : c = d := Char.toNat_inj.mp heq
        subst heq
        simp
      · have hmul : (d.toNat - 48 + 1) * 10 ^ b.length ≤ (c.toNat - 48) * 10 ^ b.length :=
          Nat.mul_le_mul_right _ (by omega)
        rw [Nat.add_mul, Nat.one_mul] at hmul
        have hne : c ≠ d := by
          rintro rfl
          exact lt_irrefl _ hgt
        simp only [hne, false_and, or_false]
        omega

theorem pow_le_value {n : Nat} (h : Canonical s) (hlen : s.length = n + 2) : 10 ^ (n + 1) ≤ value s := by
  cases s with
  | nil => cases hlen
  | cons c s =>
    have hdigit := isDigit_iff.mp (allDigits_cons.mp h.digits).1
    have hne : c ≠ '0' := by
      rintro rfl
      have hone := h.leading rfl
      omega
    have hne : c.toNat ≠ 48 := fun heq => hne (Char.toNat_inj.mp heq)
    have hs : s.length = n + 1 := Nat.succ.inj hlen
    have hmul : 1 * 10 ^ s.length ≤ (c.toNat - 48) * 10 ^ s.length :=
      Nat.mul_le_mul_right _ (by omega)
    rw [value_cons, ← hs]
    omega

theorem ten_le_value (h : Canonical (c :: s)) (hs : s ≠ []) : 10 ≤ value (c :: s) := by
  obtain ⟨n, hn⟩ := Nat.exists_eq_succ_of_ne_zero (length_pos_of_ne_nil hs).ne'
  have hpow := pow_le_value h (n := n) (by simp [hn])
  exact le_trans (Nat.le_self_pow (Nat.succ_ne_zero n) 10) hpow

theorem Below.length_le (h : Below a b) : a.length ≤ b.length :=
  h.elim Nat.le_of_lt fun h => h.1.le

/-- Without leading zeros the order is that of the values. -/
theorem below_iff (ha : Canonical a) (hb : Canonical b) : Below a b ↔ value a ≤ value b := by
  have hless : ∀ {a b : List Char}, Canonical a → Canonical b → a.length < b.length → value a < value b := by
    intro a b ha hb hlt
    have hpos : 0 < a.length := length_pos_of_ne_nil ha.ne_nil
    obtain ⟨n, hn⟩ : ∃ n, b.length = n + 2 := ⟨b.length - 2, by omega⟩
    calc value a < 10 ^ a.length := value_lt ha.digits
      _ ≤ 10 ^ (n + 1) := Nat.pow_le_pow_right (by decide) (by omega)
      _ ≤ value b := pow_le_value hb hn
  unfold Below
  rcases Nat.lt_trichotomy a.length b.length with hlt | heq | hgt
  · simp [hlt, (hless ha hb hlt).le]
  · simp [heq, value_le_iff ha.digits hb.digits heq]
  · have hvalue := hless hb ha hgt
    simp only [hgt.not_gt, hgt.ne', false_and, or_self, false_iff]
    omega

theorem value_toDigits (n : Nat) : value (Nat.toDigits 10 n) = n :=
  Nat.ofDigitChars_toDigits (by decide) (by decide)

theorem canonical_toDigits (n : Nat) : Canonical (Nat.toDigits 10 n) := by
  refine ⟨fun c hc => Nat.isDigit_of_mem_toDigits (by decide) (by decide) hc, Nat.toDigits_ne_nil, ?_⟩
  induction n using Nat.strongRecOn with
  | _ n ih =>
    by_cases hn : n < 10
    · rw [Nat.toDigits_of_lt_base hn]
      exact fun _ => rfl
    · have hdiv : n / 10 < n := by omega
      have hrec := Nat.toDigits_append_toDigits (b := 10) (n := n / 10) (d := n % 10) (by decide)
        (by omega) (Nat.mod_lt n (by decide))
      rw [Nat.div_add_mod n 10] at hrec
      rw [← hrec]
      intro hhead
      exfalso
      have hne : Nat.toDigits 10 (n / 10) ≠ [] := Nat.toDigits_ne_nil
      rw [head?_append_of_ne_nil _ hne] at hhead
      have hone := ih (n / 10) hdiv hhead
      obtain ⟨c, hc⟩ := length_eq_one_iff.mp hone
      rw [hc] at hhead
      obtain rfl : c = '0' := Option.some.inj hhead
      have hvalue := value_toDigits (n / 10)
      rw [hc] at hvalue
      have hzero : value ['0'] = 0 := by decide
      omega

theorem value_injective (ha : Canonical a) (hb : Canonical b) (h : value a = value b) : a = b := by
  have hab := (below_iff ha hb).mpr h.le
  have hba := (below_iff hb ha).mpr h.ge
  rcases hab with hlt | ⟨hlen, hab⟩
  · rcases hba with hgt | ⟨heq, -⟩
    · omega
    · omega
  · rcases hba with hgt | ⟨-, hba⟩
    · omega
    · exact le_antisymm hab hba

theorem toDigits_value (h : Canonical s) : Nat.toDigits 10 (value s) = s :=
  value_injective (canonical_toDigits _) h (value_toDigits _)

end Decimal
