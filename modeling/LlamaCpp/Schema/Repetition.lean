import LlamaCpp.Lib.RuleText

/-!
# Repetitions in rules made from schemas

`build_repetition` of json-schema-to-grammar.cpp.  With a separator the items behind the first
one are repeated together with it, so the bounds go down by one; a minimum of zero makes the
whole optional.
-/

namespace LlamaCpp

open RuleText
open FormLanguage (repeated)

/-- `std::numeric_limits<int>::max()` -/
def intMax : Nat := 2 ^ 31 - 1

/-- `build_repetition` without a separator. -/
def buildRepetitionOf (itemRule : List Char) (minItems maxItems : Nat) : List Char :=
  if maxItems = 0 then []
  else if minItems = 0 ∧ maxItems = 1 then itemRule ++ ['?']
  else if minItems = 1 ∧ maxItems = intMax then itemRule ++ ['+']
  else if minItems = 0 ∧ maxItems = intMax then itemRule ++ ['*']
  else
    itemRule ++ ('{' :: (Nat.toDigits 10 minItems ++
      ',' :: (if maxItems ≠ intMax then Nat.toDigits 10 maxItems else [])) ++ ['}'])

/-- `build_repetition`; `separatorRule` is empty if there is none. -/
def buildRepetition (itemRule : List Char) (minItems maxItems : Nat) (separatorRule : List Char) :
    List Char :=
  if separatorRule = [] then buildRepetitionOf itemRule minItems maxItems
  else if maxItems = 0 then []
  else if minItems = 0 ∧ maxItems = 1 then itemRule ++ ['?']
  else
    let result := itemRule ++ ' ' :: buildRepetitionOf ('(' :: (separatorRule ++ ' ' :: itemRule) ++ [')'])
      (if minItems = 0 then 0 else minItems - 1) (if maxItems ≠ intMax then maxItems - 1 else maxItems)
    if minItems = 0 then '(' :: result ++ [')', '?'] else result

/-- The bound that a maximum stands for. -/
def boundOf (maxItems : Nat) : Option Nat := if maxItems = intMax then none else some maxItems

theorem boundOf_of_lt {n : Nat} (h : n < intMax) : boundOf n = some n := if_neg (Nat.ne_of_lt h)

section Meaning

universe u

variable {α : Type u} {letter : Char → α} {env : List Char → Language α} {L M : Language α}
  {itemRule separatorRule : List Char} {minItems maxItems : Nat}

/-- `k` items with separators between them. -/
def separated (L M : Language α) : Nat → Language α
  | 0 => 1
  | k + 1 => L * (M * L) ^ k

/-- At least `m` items with separators between them, and at most `n` if there is a bound. -/
def separatedRange (L M : Language α) (m : Nat) (n : Option Nat) : Language α :=
  {w | ∃ k, m ≤ k ∧ (∀ b ∈ n, k ≤ b) ∧ w ∈ separated L M k}

theorem separated_one (L : Language α) (k : Nat) : separated L 1 k = L ^ k := by
  cases k with
  | zero => rfl
  | succ k => rw [separated, one_mul, pow_succ']

theorem separatedRange_one (L : Language α) (m : Nat) (n : Option Nat) : separatedRange L 1 m n = repeated L m n := by
  ext w
  simp only [separatedRange, separated_one]
  rfl

/-- The first item, and the others with the separators in front of them. -/
theorem separatedRange_succ (L M : Language α) (m : Nat) {n : Option Nat} (hn : ∀ b ∈ n, 1 ≤ b) :
    separatedRange L M (m + 1) n = L * repeated (M * L) m (n.map (· - 1)) := by
  ext w
  rw [Language.mem_mul]
  constructor
  · rintro ⟨k, hm, hk, hw⟩
    cases k with
    | zero => omega
    | succ k =>
      obtain ⟨u, hu, v, hv, rfl⟩ := Language.mem_mul.mp hw
      refine ⟨u, hu, v, ⟨k, by omega, fun b hb => ?_, hv⟩, rfl⟩
      obtain ⟨d, hd, rfl⟩ := Option.mem_map.mp hb
      have hle := hk d hd
      omega
  · rintro ⟨u, hu, v, ⟨k, hm, hk, hv⟩, rfl⟩
    refine ⟨k + 1, by omega, fun b hb => ?_, Language.append_mem_mul hu hv⟩
    have hle := hk (b - 1) (Option.mem_map_of_mem _ hb)
    have hpos := hn b hb
    omega

/-- With a minimum of zero there may be no item at all. -/
theorem separatedRange_zero (L M : Language α) {n : Option Nat} :
    separatedRange L M 0 n = repeated (separatedRange L M 1 n) 0 (some 1) := by
  ext w
  have hrep : w ∈ repeated (separatedRange L M 1 n) 0 (some 1) ↔ w ∈ separatedRange L M 1 n ∨ w = [] := by
    rw [FormLanguage.repeated_succ, FormLanguage.repeated_zero, mul_one, Language.mem_add, Language.mem_one]
  rw [hrep]
  constructor
  · rintro ⟨k, -, hk, hw⟩
    cases k with
    | zero => exact .inr hw
    | succ k => exact .inl ⟨k + 1, by omega, hk, hw⟩
  · rintro (⟨k, -, hk, hw⟩ | rfl)
    · exact ⟨k, Nat.zero_le k, hk, hw⟩
    · exact ⟨0, Nat.le_refl 0, fun b _ => Nat.zero_le b, rfl⟩

theorem seqText_buildRepetitionOf (h : ItemText letter env itemRule L) (hle : minItems ≤ maxItems) :
    SeqText letter env (buildRepetitionOf itemRule minItems maxItems)
      (repeated L minItems (boundOf maxItems)) := by
  unfold buildRepetitionOf
  split
  · next hmax =>
    obtain rfl : minItems = 0 := by omega
    rw [hmax, boundOf_of_lt (by decide), FormLanguage.repeated_zero]
    exact seqText_nil letter env
  · split
    · next hopt =>
      rw [hopt.1, hopt.2, boundOf_of_lt (by decide)]
      exact h.opt.seq
    · split
      · next hplus =>
        rw [hplus.1, boundOf, if_pos hplus.2]
        exact h.plus.seq
      · split
        · next hstar =>
          rw [hstar.1, boundOf, if_pos hstar.2]
          exact h.star.seq
        · unfold boundOf
          by_cases hmax : maxItems = intMax
          · rw [if_neg (not_not.mpr hmax), if_pos hmax]
            exact (h.atLeast minItems).seq
          · rw [if_pos hmax, if_neg hmax]
            exact (h.between minItems maxItems).seq

theorem seqText_buildRepetition (hitem : ItemText letter env itemRule L)
    (hseparator : SeqText letter env separatorRule M) (hle : minItems ≤ maxItems)
    (hmax : maxItems ≤ intMax) :
    SeqText letter env (buildRepetition itemRule minItems maxItems separatorRule)
      (separatedRange L M minItems (boundOf maxItems)) := by
  unfold buildRepetition
  split
  · next hnone =>
    subst hnone
    obtain rfl : M = 1 := hseparator.alts.denotes.unique (seqText_nil letter env).alts.denotes
    rw [separatedRange_one]
    exact seqText_buildRepetitionOf hitem hle
  · split
    · next hzero =>
      obtain rfl : minItems = 0 := by omega
      have hempty : separatedRange L M 0 (some 0) = 1 := by
        ext w
        constructor
        · rintro ⟨k, -, hk, hw⟩
          obtain rfl : k = 0 := Nat.le_zero.mp (hk 0 rfl)
          exact hw
        · exact fun hw => ⟨0, Nat.le_refl 0, fun b _ => Nat.zero_le b, hw⟩
      rw [hzero, boundOf_of_lt (by decide), hempty]
      exact seqText_nil letter env
    · next hpos =>
      have hbound : ∀ b ∈ boundOf maxItems, 1 ≤ b := by
        intro b hb
        unfold boundOf at hb
        split at hb
        · cases hb
        · obtain rfl := Option.some.inj hb
          omega
      have hshift : boundOf (if maxItems ≠ intMax then maxItems - 1 else maxItems) =
          (boundOf maxItems).map (· - 1) := by
        by_cases hinf : maxItems = intMax
        · rw [if_neg (not_not.mpr hinf), boundOf, if_pos hinf]
          rfl
        · rw [if_pos hinf, boundOf_of_lt (by omega), boundOf_of_lt (by omega)]
          rfl
      split
      · next hopt =>
        have hone : separatedRange L M 1 (some 1) = L := by
          rw [separatedRange_succ L M 0 (by simp), Option.map_some, FormLanguage.repeated_zero, mul_one]
        rw [hopt.1, separatedRange_zero L M, hopt.2, boundOf_of_lt (by decide), hone]
        exact hitem.opt.seq
      · -- the first item, then the others in a group with their separators
        have hgroup := (hseparator.then hitem.seq).alts.group
        have hle' : (if minItems = 0 then 0 else minItems - 1) ≤
            (if maxItems ≠ intMax then maxItems - 1 else maxItems) := by split_ifs <;> omega
        have hresult := hitem.seq.then (seqText_buildRepetitionOf hgroup hle')
        rw [hshift] at hresult
        split
        · next hmin =>
          rw [if_pos hmin, ← separatedRange_succ L M 0 hbound] at hresult
          have hopt := hresult.alts.group.opt.seq
          rw [← separatedRange_zero L M] at hopt
          rw [hmin]
          simpa using hopt
        · next hmin =>
          obtain ⟨m, rfl⟩ := Nat.exists_eq_succ_of_ne_zero hmin
          rw [if_neg hmin, Nat.succ_sub_one] at hresult
          rw [separatedRange_succ L M m hbound]
          exact hresult

/-- **Repetition.**  The text stands for the items with separators between them, in the numbers that
the bounds allow. -/
theorem buildRepetition_denotes (hitem : ItemText letter env itemRule L)
    (hseparator : SeqText letter env separatorRule M) (hle : minItems ≤ maxItems)
    (hmax : maxItems ≤ intMax) :
    Denotes letter env (buildRepetition itemRule minItems maxItems separatorRule)
      (separatedRange L M minItems (boundOf maxItems)) :=
  (seqText_buildRepetition hitem hseparator hle hmax).alts.denotes

end Meaning

/-- One to three values in an array: a name, and a separator of two items. -/
theorem buildRepetition_denotes_values :
    Denotes id (fun n => {n}) (buildRepetition "value".toList 1 3 "\",\" space".toList)
      (separatedRange {"value".toList} ({[',']} * {"space".toList}) 1 (some 3)) := by
  have hvalue : ItemText id (fun n => {n}) "value".toList {"value".toList} :=
    itemText_name (by simp) (by simp [isWordChar])
  have hspace : ItemText id (fun n => {n}) "space".toList {"space".toList} :=
    itemText_name (by simp) (by simp [isWordChar])
  have hcomma : ItemText id (fun n => {n}) "\",\"".toList {[',']} :=
    itemText_literal [','] (by simp)
  exact buildRepetition_denotes hvalue (hcomma.seq.then hspace.seq) (by decide) (by decide)

end LlamaCpp
