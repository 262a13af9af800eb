import LlamaCpp.Lib.RuleText

/-!
# The words of a rule within a set of rules

A name stands for the words that its rule has when names are expanded down to some depth.  Some
names are given: they stand for words of their own, whatever their rule is.
-/

namespace RuleText

open FormLanguage (repeated)

universe u

section RuleSets

variable {α : Type u} (letter : Char → α) (find : List Char → Option (List Char))
  (given : List Char → Option (Language α))

/-- The words of a name when names are expanded `n` levels down. -/
def depth : Nat → List Char → Language α
  | 0, name => (given name).getD 0
  | n + 1, name =>
    (given name).getD
      (match (find name).bind read with
      | none => 0
      | some e => e.lang letter (depth n))

def wordsOf (text : List Char) : Language α :=
  {w | ∃ n e, read text = some e ∧ w ∈ e.lang letter (depth letter find given n)}

variable {letter find given} {L : Language α}

theorem repeated_mono {M : Language α} (h : L ≤ M) (m : Nat) (n : Option Nat) : repeated L m n ≤ repeated M m n := by
  rintro w ⟨k, hm, hn, hw⟩
  exact ⟨k, hm, hn, pow_le_pow_left' h k hw⟩

theorem Expr.lang_mono {env env' : List Char → Language α} (h : ∀ name, env name ≤ env' name) (e : Expr) :
    e.lang letter env ≤ e.lang letter env' := by
  induction e with
  | literal s | chars negated ranges | any | empty => exact le_rfl
  | name n => exact h n
  | cat a b iha ihb => exact mul_le_mul' iha ihb
  | alt a b iha ihb => exact add_le_add iha ihb
  | rep e m n ih => exact repeated_mono ih m n

/-- Without names, the words have letters only. -/
theorem Expr.exists_of_mem_lang {e : Expr} {w : List α} (h : w ∈ e.lang letter fun _ => 0) :
    ∃ cs : List Char, w = cs.map letter := by
  induction e generalizing w with
  | literal s => exact ⟨s, h⟩
  | chars negated ranges | any =>
    obtain ⟨c, -, rfl⟩ := h
    exact ⟨[c], rfl⟩
  | name n => exact absurd h (Language.notMem_zero w)
  | empty => exact ⟨[], h⟩
  | cat a b iha ihb =>
    obtain ⟨u, hu, v, hv, rfl⟩ := Language.mem_mul.mp h
    obtain ⟨cs, rfl⟩ := iha hu
    obtain ⟨ds, rfl⟩ := ihb hv
    exact ⟨cs ++ ds, List.map_append.symm⟩
  | alt a b iha ihb => exact h.elim iha ihb
  | rep e m n ih =>
    obtain ⟨k, -, -, hk⟩ := h
    induction k generalizing w with
    | zero => exact ⟨[], by simpa using hk⟩
    | succ k ihk =>
      rw [pow_succ'] at hk
      obtain ⟨u, hu, v, hv, rfl⟩ := Language.mem_mul.mp hk
      obtain ⟨cs, rfl⟩ := ih hu
      obtain ⟨ds, rfl⟩ := ihk hv
      exact ⟨cs ++ ds, List.map_append.symm⟩

theorem depth_succ (n : Nat) (name : List Char) :
    depth letter find given n name ≤ depth letter find given (n + 1) name := by
  induction n generalizing name with
  | zero =>
    rw [depth, depth]
    cases given name with
    | none => exact bot_le
    | some L => exact le_rfl
  | succ n ih =>
    rw [depth, depth]
    cases given name with
    | some L => exact le_rfl
    | none =>
      cases (find name).bind read with
      | none => exact le_rfl
      | some e => exact e.lang_mono ih

theorem depth_mono {m n : Nat} (h : m ≤ n) (name : List Char) :
    depth letter find given m name ≤ depth letter find given n name :=
  monotone_nat_of_le_succ (f := fun n => depth letter find given n name) (fun n => depth_succ n name) h

theorem depth_given {name : List Char} (h : given name = some L) (n : Nat) : depth letter find given n name = L := by
  cases n with
  | zero | succ n => rw [depth, h, Option.getD_some]

theorem depth_rule {name text : List Char} {n : Nat} (hgiven : given name = none)
    (hfind : find name = some text) (h : Denotes letter (depth letter find given n) text L) :
    depth letter find given (n + 1) name = L := by
  obtain ⟨e, he, rfl⟩ := h
  rw [depth, hgiven, Option.getD_none, hfind, Option.bind_some, he]

/-- A text whose words no longer change from some depth on. -/
theorem wordsOf_eq {text : List Char} {N : Nat}
    (h : ∀ n, N ≤ n → Denotes letter (depth letter find given n) text L) :
    wordsOf letter find given text = L := by
  obtain ⟨e, he, hlang⟩ := h N le_rfl
  refine Set.ext fun w => ⟨?_, fun hw => ⟨N, e, he, hlang ▸ hw⟩⟩
  rintro ⟨n, f, hf, hw⟩
  obtain rfl := Option.some.inj (he.symm.trans hf)
  have hdepth : ∀ name, depth letter find given n name ≤ depth letter find given (max n N) name :=
    depth_mono (le_max_left n N)
  have hmax : e.lang letter (depth letter find given n) ≤ e.lang letter (depth letter find given (max n N)) :=
    e.lang_mono hdepth
  rw [(h (max n N) (le_max_right n N)).unique ⟨e, he, rfl⟩]
  exact hmax hw

end RuleSets

end RuleText
