import LlamaCpp.Lib.RuleText

/-!
# The rules of the schema converter

`_rules`, `_add_rule` and `_add_primitive` of json-schema-to-grammar.cpp.  A rule that was added
is never changed: a second text under its name goes under a name with a number.
-/

namespace LlamaCpp.Schema

open RuleText List

def spaceRule : List Char := "| \" \" | \"\\n\"{1,2} [ \\t]{0,20}".toList

/-- `_rules`; the constructor puts `space` into it. -/
structure Rules where
  entries : List (List Char × List Char)
  space : entries.lookup "space".toList = some spaceRule

namespace Rules

def find (rules : Rules) (key : List Char) : Option (List Char) := rules.entries.lookup key

/-- `_rules[key] = rule`, where this changes no text. -/
def put (rules : Rules) (key rule : List Char) (h : rules.find key = none ∨ rules.find key = some rule) :
    Rules where
  entries := (key, rule) :: rules.entries
  space := by
    rw [List.lookup_cons]
    split
    · next heq =>
      obtain rfl := eq_of_beq heq
      rcases h with h | h
      · exact absurd (h.symm.trans rules.space) (by simp)
      · exact h.symm.trans rules.space
    · exact rules.space

/-- No text was changed. -/
def Extends (rules rules' : Rules) : Prop :=
  ∀ key rule, rules.find key = some rule → rules'.find key = some rule

theorem Extends.refl (rules : Rules) : Extends rules rules := fun _ _ h => h

theorem Extends.trans {a b c : Rules} (hab : Extends a b) (hbc : Extends b c) : Extends a c :=
  fun key rule h => hbc key rule (hab key rule h)

theorem find_space (rules : Rules) : rules.find "space".toList = some spaceRule := rules.space

theorem find_put {rules : Rules} {key rule : List Char}
    (h : rules.find key = none ∨ rules.find key = some rule) : (rules.put key rule h).find key = some rule := by
  simp [find, put]

theorem extends_put {rules : Rules} {key rule : List Char}
    (h : rules.find key = none ∨ rules.find key = some rule) : Extends rules (rules.put key rule h) := by
  intro k r hk
  by_cases hkey : k = key
  · subst hkey
    rcases h with h | h
    · exact absurd (h.symm.trans hk) (by simp)
    · rw [find_put, ← h, hk]
  · have hbeq : (k == key) = false := by simpa using hkey
    change ((key, rule) :: rules.entries).lookup k = some r
    rw [lookup_cons, hbeq]
    exact hk

end Rules

/-- `regex_replace(name, INVALID_RULE_CHARS_RE, "-")`; `inRun` inside of a match. -/
def escName (inRun : Bool) : List Char → List Char
  | [] => []
  | c :: cs =>
    if isWordChar c then c :: escName false cs
    else if inRun then escName true cs
    else '-' :: escName true cs

example : escName false "a b/_c-".toList = "a-b-c-".toList := by decide +kernel

variable {name : List Char} {rules rules' : Rules}

theorem isWordChar_of_mem_escName {inRun : Bool} {c : Char} (h : c ∈ escName inRun name) : isWordChar c = true := by
  induction name generalizing inRun with
  | nil => cases h
  | cons d name ih =>
    unfold escName at h
    split at h
    · next hd =>
      cases h with
      | head => exact hd
      | tail _ h => exact ih h
    · split at h
      · exact ih h
      · cases h with
        | head => rfl
        | tail _ h => exact ih h

theorem escName_ne_nil (h : name ≠ []) : escName false name ≠ [] := by
  cases name with
  | nil => exact absurd rfl h
  | cons c name =>
    unfold escName
    split
    · simp
    · simp

/-- The loop over the numbers ends: only finitely many names are taken. -/
theorem exists_free (rules : Rules) (name rule : List Char) :
    ∃ i, rules.find (name ++ Nat.toDigits 10 i) = none ∨ rules.find (name ++ Nat.toDigits 10 i) = some rule := by
  by_contra hnone
  push Not at hnone
  have hinjective : Function.Injective fun i => name ++ Nat.toDigits 10 i := by
    intro i j hij
    have hdigits : Nat.toDigits 10 i = Nat.toDigits 10 j := append_cancel_left hij
    have hvalue := congrArg (fun ds => Nat.ofDigitChars 10 ds 0) hdigits
    simpa using hvalue
  have hkeys : ∀ i, name ++ Nat.toDigits 10 i ∈ {key | key ∈ rules.entries.map Prod.fst} := by
    intro i
    obtain ⟨text, htext⟩ := Option.ne_none_iff_exists'.mp (hnone i).1
    obtain ⟨l, r, heq, -⟩ := List.lookup_eq_some_iff.mp htext
    exact List.mem_map.mpr ⟨_, heq ▸ mem_append_right l mem_cons_self, rfl⟩
  exact Set.infinite_of_injective_forall_mem hinjective hkeys (finite_toSet _)

def addRule (name rule : List Char) (rules : Rules) : Rules × List Char :=
  let escName := escName false name
  if h : rules.find escName = none ∨ rules.find escName = some rule then (rules.put escName rule h, escName)
  else
    let i := Nat.find (exists_free rules escName rule)
    let key := escName ++ Nat.toDigits 10 i
    (rules.put key rule (Nat.find_spec (exists_free rules escName rule)), key)

theorem addRule_find (name rule : List Char) (rules : Rules) :
    (addRule name rule rules).1.find (addRule name rule rules).2 = some rule := by
  unfold addRule
  dsimp only
  split
  · next h => exact Rules.find_put h
  · exact Rules.find_put (Nat.find_spec (exists_free rules (escName false name) rule))

theorem addRule_extends (name rule : List Char) (rules : Rules) : rules.Extends (addRule name rule rules).1 := by
  unfold addRule
  dsimp only
  split
  · next h => exact Rules.extends_put h
  · exact Rules.extends_put (Nat.find_spec (exists_free rules (escName false name) rule))

/-- A name of `_add_rule` is one that the parser reads. -/
theorem addRule_word (rule : List Char) (rules : Rules) (hname : name ≠ []) :
    (addRule name rule rules).2 ≠ [] ∧ ∀ c ∈ (addRule name rule rules).2, isWordChar c = true := by
  have hesc : ∀ c ∈ escName false name, isWordChar c = true := fun c => isWordChar_of_mem_escName
  unfold addRule
  dsimp only
  split
  · exact ⟨escName_ne_nil hname, hesc⟩
  · refine ⟨append_ne_nil_of_left_ne_nil (escName_ne_nil hname) _, fun c hc => ?_⟩
    rcases List.mem_append.mp hc with hc | hc
    · exact hesc c hc
    · have hdigit : c.isDigit = true := Nat.isDigit_of_mem_toDigits (by decide) (by decide) hc
      simp [isWordChar, Char.isAlphanum, hdigit]

/-! ## Built-in rules -/

structure BuiltinRule where
  content : List Char
  deps : List (List Char)

def primitiveRules : List (List Char × BuiltinRule) :=
  [("boolean".toList, ⟨"(\"true\" | \"false\")".toList, []⟩),
    ("decimal-part".toList, ⟨"[0-9]{1,16}".toList, []⟩),
    ("integral-part".toList, ⟨"[0] | [1-9] [0-9]{0,15}".toList, []⟩),
    ("number".toList,
      ⟨"(\"-\"? integral-part) (\".\" decimal-part)? ([eE] [-+]? integral-part)?".toList,
        ["integral-part".toList, "decimal-part".toList]⟩),
    ("integer".toList, ⟨"(\"-\"? integral-part)".toList, ["integral-part".toList]⟩),
    ("value".toList,
      ⟨"object | array | string | number | boolean | null".toList,
        ["object".toList, "array".toList, "string".toList, "number".toList, "boolean".toList,
          "null".toList]⟩),
    ("object".toList,
      ⟨"\"\x7b\" space ( string \":\" space value (\",\" space string \":\" space value)* )? space \"\x7d\"".toList,
        ["string".toList, "value".toList]⟩),
    ("array".toList, ⟨"\"[\" space ( value (\",\" space value)* )? space \"]\"".toList, ["value".toList]⟩),
    ("uuid".toList,
      ⟨("\"\\\"\" [0-9a-fA-F]{8} \"-\" [0-9a-fA-F]{4} \"-\" [0-9a-fA-F]{4} \"-\" [0-9a-fA-F]{4} \"-\"" ++
        " [0-9a-fA-F]{12} \"\\\"\"").toList, []⟩),
    ("char".toList,
      ⟨"[^\"\\\\\\x7F\\x00-\\x1F] | [\\\\] ([\"\\\\bfnrt] | \"u\" [0-9a-fA-F]{4})".toList, []⟩),
    ("string".toList, ⟨"\"\\\"\" char* \"\\\"\"".toList, ["char".toList]⟩),
    ("null".toList, ⟨"\"null\"".toList, []⟩)]

/-- A step of the loop over the dependencies; none of a primitive rule is a string format. -/
def addDep (add : List Char → BuiltinRule → Rules → Rules) (rules : Rules) (dep : List Char) : Rules :=
  match primitiveRules.lookup dep with
  | none => rules
  | some depRule => if rules.find dep = none then add dep depRule rules else rules

/-- `_add_primitive`, with at most `fuel` calls inside each other. -/
def addPrimitiveFuel : Nat → List Char → BuiltinRule → Rules → Rules × List Char
  | 0, _, _, rules => (rules, [])
  | fuel + 1, name, rule, rules =>
    let added := addRule name rule.content rules
    (rule.deps.foldl (addDep fun name rule rules => (addPrimitiveFuel fuel name rule rules).1) added.1,
      added.2)

/-- `_add_primitive`: each inner call adds one of the primitive rules. -/
def addPrimitive (name : List Char) (rule : BuiltinRule) (rules : Rules) : Rules × List Char :=
  addPrimitiveFuel (primitiveRules.length + 1) name rule rules

theorem addPrimitiveFuel_extends (fuel : Nat) (name : List Char) (rule : BuiltinRule) (rules : Rules) :
    rules.Extends (addPrimitiveFuel fuel name rule rules).1 := by
  induction fuel generalizing name rule rules with
  | zero => exact .refl rules
  | succ fuel ih =>
    have hdep : ∀ (rules : Rules) (dep : List Char), rules.Extends
        (addDep (fun name rule rules => (addPrimitiveFuel fuel name rule rules).1) rules dep) := by
      intro rules dep
      unfold addDep
      split
      · exact .refl rules
      · split
        · exact ih dep _ rules
        · exact .refl rules
    have hfold : ∀ (deps : List (List Char)) (rules : Rules), rules.Extends
        (deps.foldl (addDep fun name rule rules => (addPrimitiveFuel fuel name rule rules).1) rules) := by
      intro deps
      induction deps with
      | nil => exact .refl
      | cons dep deps ihdeps => exact fun rules => (hdep rules dep).trans (ihdeps _)
    exact (addRule_extends name rule.content rules).trans (hfold rule.deps _)

theorem addPrimitive_extends (name : List Char) (rule : BuiltinRule) (rules : Rules) :
    rules.Extends (addPrimitive name rule rules).1 := addPrimitiveFuel_extends _ name rule rules

end LlamaCpp.Schema
