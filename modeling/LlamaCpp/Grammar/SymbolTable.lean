import Mathlib.Data.Nat.Digits.Defs
import LlamaCpp.Grammar.Expansion

/-!
# The symbols of the grammar parser

`GrammarParser` is the state of `llama_grammar_parser`: the symbols with their ids, and the
rules.  It keeps what later passes rely on: every symbol has its own id (`ids_eq`), no user can
name a symbol that the parser makes up (`names_ok`), and a rule that is defined is well formed
(`rules_ok`).

Symbol ids are `Nat`: a text has fewer than `2 ^ 32` symbols.
-/

namespace LlamaCpp

/-- How the parser stops without a result. -/
inductive GrammarHalt where
  /-- A `std::exception`: its message, and the text appended to it. -/
  | thrown (message : String) (src : List UInt8)
  /-- `GGML_ASSERT`. -/
  | abort
  | outOfFuel

namespace GrammarLexer

/-- A character of the source as a byte. -/
def byte (c : Char) : UInt8 := c.toNat.toUInt8

/-- The number some digits stand for. -/
def decimal (digits : List UInt8) : Nat :=
  digits.foldl (fun value c => value * 10 + (c.toNat - (byte '0').toNat)) 0

end GrammarLexer

open GrammarLexer List

/-! ## Rules in the making -/

/-- The element behind the last one of a rule. -/
def endElement : GrammarElement := ⟨.endOfRule, 0⟩

/-- The element between two alternates. -/
def altElement : GrammarElement := ⟨.alt, 0⟩

/-- The elements of a rule that is not finished yet. -/
def IsBody (es : List GrammarElement) : Prop := wellFormedFrom .alt (es ++ [endElement]) = true

theorem isBody_nil : IsBody [] := rfl

/-- The elements of one alternate that start with a new symbol. -/
structure IsSymbol (es : List GrammarElement) : Prop where
  body : IsBody es
  plain : ∀ e ∈ es, e.isEndOfSequence = false

variable {prev : GreType} {es : List GrammarElement}

theorem mayFollow_of_alt {t : GreType} (h : GreType.alt.mayFollow t = true) : prev.mayFollow t = true := by
  cases t <;> first | rfl | exact absurd h (by decide)

theorem wellFormedFrom_of_alt (h : wellFormedFrom .alt es = true) : wellFormedFrom prev es = true := by
  cases es with
  | nil => exact h
  | cons e es =>
    rw [wellFormedFrom, Bool.and_eq_true] at h ⊢
    exact ⟨mayFollow_of_alt h.1, h.2⟩

variable {fs : List GrammarElement}

theorem wellFormedFrom_append
    (hes : wellFormedFrom prev (es ++ [endElement]) = true) (hfs : wellFormedFrom .alt fs = true) :
    wellFormedFrom prev (es ++ fs) = true := by
  induction es generalizing prev with
  | nil => exact wellFormedFrom_of_alt hfs
  | cons e es ih =>
    rw [cons_append, wellFormedFrom, Bool.and_eq_true] at hes ⊢
    refine ⟨hes.1, ?_⟩
    have hrest := hes.2
    split at hrest
    · simp at hrest
    · next hne =>
        rw [if_neg hne]
        exact ih hrest

theorem IsBody.append (hes : IsBody es) (hfs : IsBody fs) : IsBody (es ++ fs) := by
  rw [IsBody, append_assoc]
  exact wellFormedFrom_append hes hfs

theorem IsSymbol.append (hes : IsSymbol es) (hfs : IsSymbol fs) : IsSymbol (es ++ fs) :=
  ⟨hes.body.append hfs.body, fun e he => (List.mem_append.mp he).elim (hes.plain e) (hfs.plain e)⟩

theorem isSymbol_nil : IsSymbol [] := ⟨rfl, fun _ h => absurd h not_mem_nil⟩

theorem IsSymbol.replicate (hes : IsSymbol es) (k : Nat) : IsSymbol (List.replicate k es).flatten := by
  induction k with
  | zero => exact isSymbol_nil
  | succ k ih =>
    rw [replicate_succ, flatten_cons]
    exact hes.append ih

/-- A single element that is no modifier. -/
theorem isSymbol_singleton {e : GrammarElement} (h : e.type.isTerminal = true ∨ e.type = .ruleRef) :
    IsSymbol [e] := by
  obtain ⟨t, v⟩ := e
  constructor
  · cases t <;> first | rfl | exact absurd h (by simp [GreType.isTerminal])
  · intro e he
    obtain rfl := mem_singleton.mp he
    cases t <;> first | rfl | exact absurd h (by simp [GreType.isTerminal])

def literalElements (cs : List Nat) : List GrammarElement := cs.map fun c => ⟨.char, c⟩

theorem isSymbol_literalElements (cs : List Nat) : IsSymbol (literalElements cs) := by
  induction cs with
  | nil => exact isSymbol_nil
  | cons c cs ih => exact (isSymbol_singleton (e := ⟨.char, c⟩) (.inl rfl)).append ih

/-! ## Symbols -/

/-- `std::to_string`. -/
def decimalDigits (n : Nat) : List UInt8 :=
  if n = 0 then [byte '0'] else ((Nat.digits 10 n).map fun d => UInt8.ofNat (d + 48)).reverse

/-- `base_name + '_' + std::to_string(next_id)`. -/
def generatedName (baseName : List UInt8) (nextId : Nat) : List UInt8 :=
  baseName ++ byte '_' :: decimalDigits nextId

theorem digit_toNat {d : Nat} (hd : d < 10) : (UInt8.ofNat (d + 48)).toNat = d + 48 := by
  refine UInt8.toNat_ofNat_of_lt' ?_
  have : UInt8.size = 256 := rfl
  omega

theorem decimalDigits_range {n : Nat} {c : UInt8} (hc : c ∈ decimalDigits n) :
    ∃ d < 10, c = UInt8.ofNat (d + 48) := by
  unfold decimalDigits at hc
  split at hc
  · exact ⟨0, by decide, mem_singleton.mp hc⟩
  · obtain ⟨d, hd, rfl⟩ := List.mem_map.mp (mem_reverse.mp hc)
    exact ⟨d, Nat.digits_lt_base (by decide) hd, rfl⟩

theorem underscore_notMem_decimalDigits (n : Nat) : byte '_' ∉ decimalDigits n := by
  intro hc
  obtain ⟨d, hd, heq⟩ := decimalDigits_range hc
  have hnat := congrArg UInt8.toNat heq
  rw [digit_toNat hd] at hnat
  have hbyte : (byte '_').toNat = 95 := rfl
  omega

theorem decimal_decimalDigits (n : Nat) : decimal (decimalDigits n) = n := by
  have hfold : ∀ ds : List Nat, (∀ d ∈ ds, d < 10) →
      decimal (ds.map fun d => UInt8.ofNat (d + 48)).reverse = Nat.ofDigits 10 ds := by
    intro ds hds
    induction ds with
    | nil => rfl
    | cons d ds ih =>
      have hd : d < 10 := hds d mem_cons_self
      have ih := ih fun e he => hds e (mem_cons_of_mem _ he)
      have hbyte : (byte '0').toNat = 48 := rfl
      rw [decimal, map_cons, reverse_cons, foldl_append, ← decimal, ih, Nat.ofDigits_cons]
      simp only [foldl_cons, foldl_nil, digit_toNat hd, hbyte]
      omega
  unfold decimalDigits
  split
  · next h => exact h ▸ rfl
  · rw [hfold _ fun d hd => Nat.digits_lt_base (by decide) hd, Nat.ofDigits_digits]

theorem eq_of_append_cons_eq {α : Type} {a : α} {l₁ l₂ r₁ r₂ : List α} (h₁ : a ∉ r₁) (h₂ : a ∉ r₂)
    (h : l₁ ++ a :: r₁ = l₂ ++ a :: r₂) : r₁ = r₂ := by
  rcases append_eq_append_iff.mp h with ⟨m, -, hm⟩ | ⟨m, -, hm⟩
  · cases m with
    | nil => exact (List.cons.inj hm).2
    | cons b m => exact absurd ((List.cons.inj hm).2 ▸ mem_append_right m mem_cons_self) h₁
  · cases m with
    | nil => exact (List.cons.inj hm).2.symm
    | cons b m => exact absurd ((List.cons.inj hm).2 ▸ mem_append_right m mem_cons_self) h₂

/-- The number of a generated name can be read off. -/
theorem generatedName_inj {b b' : List UInt8} {i i' : Nat}
    (h : generatedName b i = generatedName b' i') : i = i' := by
  have hdigits := eq_of_append_cons_eq (underscore_notMem_decimalDigits i)
    (underscore_notMem_decimalDigits i') h
  rw [← decimal_decimalDigits i, hdigits, decimal_decimalDigits]

/-- A key of `symbol_ids` when there are `n` symbols: a name of the user, or a generated one. -/
def NameOk (n : Nat) (name : List UInt8) : Prop :=
  byte '_' ∉ name ∨ ∃ b, ∃ i < n, name = generatedName b i

theorem NameOk.mono {n n' : Nat} {name : List UInt8} (h : NameOk n name) (hn : n ≤ n') : NameOk n' name := by
  rcases h with h | ⟨b, i, hi, rfl⟩
  · exact .inl h
  · exact .inr ⟨b, i, hi.trans_le hn, rfl⟩

/-- The next generated name is none of the names there are. -/
theorem NameOk.ne_generatedName {n : Nat} {name : List UInt8} (h : NameOk n name)
    (b : List UInt8) : name ≠ generatedName b n := by
  rintro rfl
  rcases h with h | ⟨b', i, hi, heq⟩
  · exact h (mem_append_right b mem_cons_self)
  · exact absurd (generatedName_inj heq) (Nat.ne_of_gt hi)

structure GrammarParser where
  /-- `symbol_ids`. -/
  symbolIds : List (List UInt8 × Nat)
  rules : GrammarRules
  /-- The ids are given out in order. -/
  ids_eq : symbolIds.map Prod.snd = List.range symbolIds.length
  names_ok : ∀ kv ∈ symbolIds, NameOk symbolIds.length kv.1
  /-- A rule that is defined is well formed. -/
  rules_ok : ∀ rule ∈ rules, rule = [] ∨ wellFormedFrom .alt rule = true

namespace GrammarParser

def init : GrammarParser := ⟨[], [], rfl, by simp, by simp⟩

/-- `m[key] = id`. -/
def assign (m : List (List UInt8 × Nat)) (key : List UInt8) (id : Nat) : List (List UInt8 × Nat) :=
  if m.any fun kv => kv.1 = key then m.map fun kv => if kv.1 = key then (key, id) else kv
  else m ++ [(key, id)]

theorem assign_new {m : List (List UInt8 × Nat)} {key : List UInt8} (h : ∀ kv ∈ m, kv.1 ≠ key)
    (id : Nat) : assign m key id = m ++ [(key, id)] := by
  rw [assign, if_neg]
  rintro hany
  obtain ⟨kv, hkv, heq⟩ := List.any_eq_true.mp hany
  exact h kv hkv (of_decide_eq_true heq)

variable (p : GrammarParser)

abbrev nSymbols : Nat := p.symbolIds.length

theorem assign_generated (baseName : List UInt8) :
    assign p.symbolIds (generatedName baseName p.nSymbols) p.nSymbols =
      p.symbolIds ++ [(generatedName baseName p.nSymbols, p.nSymbols)] :=
  assign_new (fun kv hkv => (p.names_ok kv hkv).ne_generatedName baseName) _

theorem ids_append (key : List UInt8) :
    (p.symbolIds ++ [(key, p.nSymbols)]).map Prod.snd = List.range (p.symbolIds ++ [(key, p.nSymbols)]).length := by
  rw [map_append, p.ids_eq, length_append]
  exact range_succ.symm

theorem names_append {key : List UInt8} (h : NameOk (p.nSymbols + 1) key) :
    ∀ kv ∈ p.symbolIds ++ [(key, p.nSymbols)], NameOk (p.symbolIds ++ [(key, p.nSymbols)]).length kv.1 := by
  intro kv hkv
  rw [length_append]
  rcases List.mem_append.mp hkv with hkv | hkv
  · exact (p.names_ok kv hkv).mono (Nat.le_succ _)
  · rw [mem_singleton.mp hkv]
    exact h

def generateSymbolId (baseName : List UInt8) : Nat × GrammarParser :=
  (p.nSymbols,
    { p with
      symbolIds := assign p.symbolIds (generatedName baseName p.nSymbols) p.nSymbols
      ids_eq := by
        rw [assign_generated]
        exact p.ids_append _
      names_ok := by
        rw [assign_generated]
        exact p.names_append (.inr ⟨baseName, _, Nat.lt_succ_self _, rfl⟩) })

/-- `rules.resize(rule_id + 1)` if the vector is shorter, and `rules[rule_id] = rule`. -/
def setRule (rules : GrammarRules) (ruleId : Nat) (rule : GrammarRule) : GrammarRules :=
  (rules ++ List.replicate (ruleId + 1 - rules.length) []).set ruleId rule

def addRule (ruleId : Nat) (rule : { rule : GrammarRule // wellFormedFrom .alt rule = true }) :
    GrammarParser :=
  { p with
    rules := setRule p.rules ruleId rule.1
    rules_ok := by
      intro r hr
      rcases List.mem_or_eq_of_mem_set hr with hr | rfl
      · rcases List.mem_append.mp hr with hr | hr
        · exact p.rules_ok r hr
        · exact .inl (List.eq_of_mem_replicate hr)
      · exact .inr rule.2 }

end GrammarParser

end LlamaCpp
