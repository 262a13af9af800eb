import LlamaCpp.Lib.Leftmost

/-!
# The languages of sentential forms

`words g α` are the words that the sentential form `α` derives.  Concatenating forms
multiplies their languages (`words_append`).  Two kinds of nonterminals come up when a
repetition is rewritten: one that derives `γ` or nothing (`words_option`), and one that
derives `α` followed by itself or nothing (`words_star`).

`repeated L m n` are the concatenations of at least `m` words of `L`, and at most `n` of them
if there is a bound.

Where a terminal stands for some letters of another alphabet, `interpret` carries a language
over; it respects everything above.
-/

namespace FormLanguage

open List Language

open LeftmostDerivation (Leftmost derives_iff_leftmost)
open scoped Computability

universe u v

variable {T : Type u} {β : Type v} {w : List T}

/-! ## Repetition -/

/-- The concatenations of `k` words of `L` for `m ≤ k`, up to the bound if there is one. -/
def repeated (L : Language T) (m : Nat) (n : Option Nat) : Language T :=
  {w | ∃ k, m ≤ k ∧ (∀ b ∈ n, k ≤ b) ∧ w ∈ L ^ k}

theorem mem_repeated {L : Language T} {m : Nat} {n : Option Nat} :
    w ∈ repeated L m n ↔ ∃ k, m ≤ k ∧ (∀ b ∈ n, k ≤ b) ∧ w ∈ L ^ k := Iff.rfl

theorem repeated_none (L : Language T) : repeated L 0 none = L∗ := by
  ext w
  simp [mem_repeated, kstar_eq_iSup_pow, mem_iSup]

theorem repeated_zero (L : Language T) : repeated L 0 (some 0) = 1 := by
  ext w
  simp [mem_repeated]

theorem repeated_succ (L : Language T) (d : Nat) : repeated L 0 (some (d + 1)) = L * repeated L 0 (some d) + 1 := by
  ext w
  simp only [mem_repeated, Language.mem_add, Language.mem_mul, Nat.zero_le, true_and, Option.mem_some_iff, forall_eq']
  constructor
  · rintro ⟨k, hk, hw⟩
    cases k with
    | zero => exact .inr hw
    | succ k =>
      rw [pow_succ', Language.mem_mul] at hw
      obtain ⟨u, hu, v, hv, rfl⟩ := hw
      exact .inl ⟨u, hu, v, ⟨k, Nat.le_of_succ_le_succ hk, hv⟩, rfl⟩
  · rintro (⟨u, hu, v, ⟨k, hk, hv⟩, rfl⟩ | hw)
    · refine ⟨k + 1, Nat.succ_le_succ hk, ?_⟩
      rw [pow_succ']
      exact append_mem_mul hu hv
    · exact ⟨0, Nat.zero_le _, hw⟩

/-- `m` words in front of a repetition. -/
theorem pow_mul_repeated (L : Language T) (m : Nat) (n : Option Nat) :
    L ^ m * repeated L 0 n = repeated L m (n.map (m + ·)) := by
  ext w
  simp only [mem_repeated, Language.mem_mul, Nat.zero_le, true_and]
  constructor
  · rintro ⟨u, hu, v, ⟨k, hk, hv⟩, rfl⟩
    refine ⟨m + k, Nat.le_add_right m k, ?_, ?_⟩
    · intro b hb
      obtain ⟨d, hd, rfl⟩ := Option.mem_map.mp hb
      exact Nat.add_le_add_left (hk d hd) m
    · rw [pow_add]
      exact append_mem_mul hu hv
  · rintro ⟨k, hmk, hk, hw⟩
    obtain ⟨d, rfl⟩ := Nat.exists_eq_add_of_le hmk
    rw [pow_add, Language.mem_mul] at hw
    obtain ⟨u, hu, v, hv, rfl⟩ := hw
    refine ⟨u, hu, v, ⟨d, fun b hb => ?_, hv⟩, rfl⟩
    exact Nat.add_le_add_iff_left.mp (hk _ (Option.mem_map_of_mem (m + ·) hb))

/-! ## Words -/

def words (g : ContextFreeGrammar T) (α : List (Symbol T g.NT)) : Language T :=
  {w | g.Derives α (w.map Symbol.terminal)}

variable {g : ContextFreeGrammar T} {α : List (Symbol T g.NT)} {n : g.NT}

theorem mem_words : w ∈ words g α ↔ Leftmost g α w [] := derives_iff_leftmost

theorem leftmost_append {γ : List (Symbol T g.NT)} (h : Leftmost g (α ++ γ) w []) :
    ∃ u v, u ++ v = w ∧ Leftmost g α u [] ∧ Leftmost g γ v [] := by
  generalize hform : α ++ γ = form at h
  generalize hnil : ([] : List (Symbol T g.NT)) = stop at h
  induction h generalizing α with
  | done =>
    subst hnil
    obtain ⟨rfl, rfl⟩ := append_eq_nil_iff.mp hform
    exact ⟨[], [], rfl, .done, .done⟩
  | @terminal α' δ t w h ih =>
    cases α with
    | nil =>
      subst hnil
      obtain rfl : γ = .terminal t :: α' := hform
      exact ⟨[], t :: w, rfl, .done, .terminal h⟩
    | cons s α =>
      obtain ⟨rfl, htail⟩ := List.cons.inj hform
      obtain ⟨u, v, rfl, hu, hv⟩ := ih htail hnil
      exact ⟨t :: u, v, rfl, .terminal hu, hv⟩
  | @rule α' δ r w hr h ih =>
    cases α with
    | nil =>
      subst hnil
      obtain rfl : γ = .nonterminal r.input :: α' := hform
      exact ⟨[], w, rfl, .done, .rule hr h⟩
    | cons s α =>
      obtain ⟨rfl, htail⟩ := List.cons.inj hform
      obtain ⟨u, v, rfl, hu, hv⟩ := @ih (r.output ++ α) (by rw [append_assoc, ← htail]; rfl) hnil
      exact ⟨u, v, rfl, .rule hr hu, hv⟩

theorem words_nil : words g [] = 1 := by
  ext w
  rw [mem_words, Language.mem_one]
  constructor
  · intro h
    cases h with
    | done => rfl
  · rintro rfl
    exact .done

theorem words_append (α γ : List (Symbol T g.NT)) : words g (α ++ γ) = words g α * words g γ := by
  ext w
  rw [Language.mem_mul]
  constructor
  · intro h
    obtain ⟨u, v, rfl, hu, hv⟩ := leftmost_append (mem_words.mp h)
    exact ⟨u, mem_words.mpr hu, v, mem_words.mpr hv, rfl⟩
  · rintro ⟨u, hu, v, hv, rfl⟩
    change g.Derives (α ++ γ) _
    rw [map_append]
    exact (ContextFreeGrammar.Derives.append_right hu γ).trans
      (ContextFreeGrammar.Derives.append_left hv _)

theorem words_replicate (α : List (Symbol T g.NT)) (k : Nat) :
    words g (List.replicate k α).flatten = words g α ^ k := by
  induction k with
  | zero => rw [replicate_zero, flatten_nil, words_nil, pow_zero]
  | succ k ih => rw [replicate_succ, flatten_cons, words_append, ih, pow_succ']

theorem mem_words_nonterminal : w ∈ words g [.nonterminal n] ↔ ∃ r ∈ g.rules, r.input = n ∧ w ∈ words g r.output := by
  rw [mem_words]
  constructor
  · intro h
    rcases h.nonterminal_inv with ⟨-, hnil⟩ | ⟨r, hr, hin, hrest⟩
    · cases hnil
    · rw [append_nil] at hrest
      exact ⟨r, hr, hin, mem_words.mpr hrest⟩
  · rintro ⟨r, hr, rfl, hw⟩
    refine .rule hr ?_
    rw [append_nil]
    exact mem_words.mp hw

/-- The rules of a nonterminal that derives `γ` or nothing. -/
def IsOption (g : ContextFreeGrammar T) (n : g.NT) (γ : List (Symbol T g.NT)) : Prop :=
  ∀ r : ContextFreeRule T g.NT, r ∈ g.rules ∧ r.input = n ↔ r = ⟨n, γ⟩ ∨ r = ⟨n, []⟩

theorem words_option {γ : List (Symbol T g.NT)} (h : IsOption g n γ) : words g [.nonterminal n] = words g γ + 1 := by
  ext w
  rw [mem_words_nonterminal, Language.mem_add, ← words_nil (g := g)]
  constructor
  · rintro ⟨r, hr, hin, hw⟩
    rcases (h r).mp ⟨hr, hin⟩ with rfl | rfl
    · exact .inl hw
    · exact .inr hw
  · rintro (hw | hw)
    · obtain ⟨hr, hin⟩ := (h ⟨n, γ⟩).mpr (.inl rfl)
      exact ⟨_, hr, hin, hw⟩
    · obtain ⟨hr, hin⟩ := (h ⟨n, []⟩).mpr (.inr rfl)
      exact ⟨_, hr, hin, hw⟩

/-- Where a nonterminal that derives `α` and itself, or nothing, comes up in a derivation,
it contributes some words of `α`. -/
theorem words_star_le (h : IsOption g n (α ++ [.nonterminal n])) {form : List (Symbol T g.NT)}
    (hw : Leftmost g form w []) : ∀ δ γ, form = δ ++ .nonterminal n :: γ →
      w ∈ words g δ * (words g α)∗ * words g γ := by
  generalize hnil : ([] : List (Symbol T g.NT)) = stop at hw
  induction hw with
  | done =>
    intro δ γ hform
    subst hnil
    exact absurd hform.symm (by simp)
  | @terminal form _ t w _ ih =>
    intro δ γ hform
    cases δ with
    | nil => cases hform
    | cons s δ =>
      obtain ⟨rfl, htail⟩ := List.cons.inj hform
      have hmem := ih hnil δ γ htail
      rw [← singleton_append, words_append, mul_assoc, mul_assoc, ← mul_assoc (words g δ)]
      refine append_mem_mul (a := [t]) ?_ hmem
      exact mem_words.mpr (.terminal .done)
  | @rule form _ r w hr hrest ih =>
    intro δ γ hform
    cases δ with
    | nil =>
      obtain ⟨hin, rfl⟩ := List.cons.inj hform
      injection hin with hin
      rw [words_nil, one_mul]
      rcases (h r).mp ⟨hr, hin⟩ with rfl | rfl
      · -- one more word of `α`
        have hmem := ih hnil α form (by simp)
        have hle : words g α * (words g α)∗ ≤ (words g α)∗ := mul_kstar_le_kstar
        exact mul_le_mul_left hle (words g form) hmem
      · -- no more
        subst hnil
        exact append_mem_mul (nil_mem_kstar _) (mem_words.mpr hrest)
    | cons s δ =>
      obtain ⟨rfl, rfl⟩ := List.cons.inj hform
      have hmem := ih hnil (r.output ++ δ) γ (append_assoc ..).symm
      have hone : words g r.output ≤ words g [.nonterminal r.input] :=
        fun v hv => mem_words_nonterminal.mpr ⟨r, hr, rfl, hv⟩
      have hle : words g (r.output ++ δ) ≤ words g (.nonterminal r.input :: δ) := by
        rw [← singleton_append, words_append, words_append]
        exact mul_le_mul_left hone (words g δ)
      exact mul_le_mul_left (mul_le_mul_left hle (words g α)∗) (words g γ) hmem

theorem words_star (h : IsOption g n (α ++ [.nonterminal n])) : words g [.nonterminal n] = (words g α)∗ := by
  refine le_antisymm (fun w hw => ?_) ?_
  · have hmem := words_star_le h (mem_words.mp hw) [] [] rfl
    rwa [words_nil, one_mul, mul_one] at hmem
  · have heq := words_option h
    rw [words_append] at heq
    rw [← mul_one (words g α)∗]
    refine kstar_mul_le ?_ ?_
    · rw [heq]
      exact le_add_self
    · conv_rhs => rw [heq]
      exact le_self_add

/-! ## Interpretation -/

/-- The words over another alphabet that a word of the language stands for. -/
def interpret (R : T → β → Prop) (L : Language T) : Language β :=
  {v | ∃ w ∈ L, List.Forall₂ R w v}

variable {R : T → β → Prop}

theorem interpret_one : interpret R 1 = 1 := by
  ext v
  constructor
  · rintro ⟨w, rfl, h⟩
    cases h
    rfl
  · rintro rfl
    exact ⟨[], rfl, .nil⟩

theorem interpret_mul (L M : Language T) : interpret R (L * M) = interpret R L * interpret R M := by
  ext v
  constructor
  · rintro ⟨w, hw, h⟩
    obtain ⟨a, ha, b, hb, rfl⟩ := Language.mem_mul.mp hw
    have hfront := forall₂_take a.length h
    have hrest := forall₂_drop a.length h
    rw [take_left] at hfront
    rw [drop_left] at hrest
    rw [← take_append_drop a.length v]
    exact append_mem_mul ⟨a, ha, hfront⟩ ⟨b, hb, hrest⟩
  · intro hv
    obtain ⟨c, ⟨a, ha, hc⟩, d, ⟨b, hb, hd⟩, rfl⟩ := Language.mem_mul.mp hv
    exact ⟨a ++ b, append_mem_mul ha hb, rel_append hc hd⟩

theorem interpret_pow (L : Language T) (k : Nat) : interpret R (L ^ k) = interpret R L ^ k := by
  induction k with
  | zero => rw [pow_zero, pow_zero, interpret_one]
  | succ k ih => rw [pow_succ, pow_succ, interpret_mul, ih]

theorem interpret_repeated (L : Language T) (m : Nat) (n : Option Nat) :
    interpret R (repeated L m n) = repeated (interpret R L) m n := by
  ext v
  constructor
  · rintro ⟨w, ⟨k, hm, hn, hw⟩, h⟩
    refine ⟨k, hm, hn, ?_⟩
    rw [← interpret_pow]
    exact ⟨w, hw, h⟩
  · rintro ⟨k, hm, hn, hv⟩
    rw [← interpret_pow] at hv
    obtain ⟨w, hw, h⟩ := hv
    exact ⟨w, ⟨k, hm, hn, hw⟩, h⟩

end FormLanguage
