import LlamaCpp.Schema.NotStrings
import LlamaCpp.Schema.Rules

/-!
# The rule of an object

`_build_object_rule` of json-schema-to-grammar.cpp.  Each property has a rule for its member,
with `-kv` at the end.  A required member stands in the rule; the optional ones are in `-rest`
rules, one for each list of optional properties that may still follow.  The key `*` stands for
the members of other names.
-/

namespace LlamaCpp.Schema

open RuleText

/-- `visit`: it changes `_rules` through `_add_rule` alone. -/
structure Visitor (S : Type) where
  visit : S → List Char → Rules → Rules × List Char
  keeps : ∀ (schema : S) (name : List Char) (rules : Rules), rules.Extends (visit schema name rules).1

/-- `additionalProperties`; anything that is neither a boolean nor an object counts as absent. -/
inductive Additional (S : Type) where
  | absent
  | boolean (allowed : Bool)
  | object (schema : S)

/-- A character inside of `json(prop_name).dump()`. -/
def dumpChar (c : Char) : List Char :=
  if c = '\x08' then "\\b".toList
  else if c = '\t' then "\\t".toList
  else if c = '\n' then "\\n".toList
  else if c = '\x0c' then "\\f".toList
  else if c = '\r' then "\\r".toList
  else if c = '"' then "\\\"".toList
  else if c = '\\' then "\\\\".toList
  else if c.toNat ≤ 0x1F then
    "\\u00".toList ++ [Nat.digitChar (c.toNat / 16), Nat.digitChar (c.toNat % 16)]
  else [c]

/-- `json(prop_name).dump()` -/
def dump (s : List Char) : List Char := '"' :: s.flatMap dumpChar ++ ['"']

/-- `GRAMMAR_LITERAL_ESCAPES.at`, for the characters of `GRAMMAR_LITERAL_ESCAPE_RE` -/
def literalEscape (c : Char) : List Char :=
  if c = '\r' then "\\r".toList
  else if c = '\n' then "\\n".toList
  else if c = '"' then "\\\"".toList
  else if c = '\\' then "\\\\".toList
  else [c]

def formatLiteral (literal : List Char) : List Char := '"' :: literal.flatMap literalEscape ++ ['"']

example : formatLiteral (dump "a\"b".toList) = "\"\\\"a\\\\\\\"b\\\"\"".toList := by decide +kernel

/-- `name + (name.empty() ? "" : "-") + sub` -/
def subName (name sub : List Char) : List Char := name ++ (if name = [] then [] else ['-']) ++ sub

/-- The key of the members of other names. -/
def star : List Char := ['*']

variable {S : Type}

/-- The loop over the properties: the rules of their members. -/
def visitProperties (V : Visitor S) (name : List Char) :
    List (List Char × S) → Rules → Rules × List (List Char × List Char)
  | [], rules => (rules, [])
  | (propName, propSchema) :: properties, rules =>
    let visited := V.visit propSchema (subName name propName) rules
    let added := addRule (subName name propName ++ "-kv".toList)
      (formatLiteral (dump propName) ++ " space \":\" space ".toList ++ visited.2) visited.1
    let rest := visitProperties V name properties added.1
    (rest.1, (propName, added.2) :: rest.2)

/-- `PRIMITIVE_RULES.at` -/
def primitiveRule (name : List Char) : BuiltinRule := (primitiveRules.lookup name).getD ⟨[], []⟩

/-- The value of a member of another name. -/
def additionalValue (V : Visitor S) (sub : List Char) (additional : Additional S) (rules : Rules) :
    Rules × List Char :=
  match additional with
  | .object schema => V.visit schema (sub ++ "-value".toList) rules
  | _ => addPrimitive "value".toList (primitiveRule "value".toList) rules

/-- The key of a member of another name. -/
def additionalKey (sub : List Char) (propNames : List (List Char)) (rules : Rules) : Rules × List Char :=
  if propNames = [] then addPrimitive "string".toList (primitiveRule "string".toList) rules
  else
    let char := addPrimitive "char".toList (primitiveRule "char".toList) rules
    addRule (sub ++ "-k".toList) (NotStrings.notStrings char.2 propNames) char.1

/-- Whether there may be members of other names. -/
def Additional.isAllowed : Additional S → Bool
  | .absent => false
  | .boolean allowed => allowed
  | .object _ => true

def additionalMember (V : Visitor S) (name : List Char) (propNames : List (List Char))
    (additional : Additional S) (rules : Rules) : Rules × List Char :=
  let sub := subName name "additional".toList
  let value := additionalValue V sub additional rules
  let key := additionalKey sub propNames value.1
  addRule (sub ++ "-kv".toList) (key.2 ++ " \":\" space ".toList ++ value.2) key.1

/-- `prop_kv_rule_names[k]` -/
def kvRuleName (propKvRuleNames : List (List Char × List Char)) (k : List Char) : List Char :=
  (propKvRuleNames.lookup k).getD []

/-- `res` of `get_recursive_refs`, before the rest is put behind it -/
def headText (kv : List Char → List Char) (firstIsOptional : Bool) (k : List Char) : List Char :=
  let commaRef := "( \",\" space ".toList ++ kv k ++ " )".toList
  if firstIsOptional then commaRef ++ (if k = star then ['*'] else ['?'])
  else kv k ++ (if k = star then ' ' :: commaRef ++ ['*'] else [])

def getRecursiveRefs (name : List Char) (kv : List Char → List Char) :
    List (List Char) → Bool → Rules → Rules × List Char
  | [], _, rules => (rules, [])
  | k :: ks, firstIsOptional, rules =>
    if ks = [] then (rules, headText kv firstIsOptional k)
    else
      let rest := getRecursiveRefs name kv ks true rules
      let added := addRule (subName name k ++ "-rest".toList) rest.2 rest.1
      (added.1, headText kv firstIsOptional k ++ ' ' :: added.2)

/-- The loop over the optional properties: which of them comes first. -/
def alternatives (name : List Char) (kv : List Char → List Char) :
    List (List Char) → Rules → Rules × List (List Char)
  | [], rules => (rules, [])
  | k :: ks, rules =>
    let refs := getRecursiveRefs name kv (k :: ks) false rules
    let rest := alternatives name kv ks refs.1
    (rest.1, refs.2 :: rest.2)

def objectRule (name : List Char) (kv : List Char → List Char) (requiredProps optionalProps : List (List Char))
    (rules : Rules) : Rules × List Char :=
  let alts := alternatives name kv optionalProps rules
  (alts.1,
    "\"\x7b\" space ".toList ++ List.intercalate " \",\" space ".toList (requiredProps.map kv) ++
      (if optionalProps = [] then []
        else
          " (".toList ++ (if requiredProps = [] then [] else " \",\" space ( ".toList) ++ bars alts.2 ++
            (if requiredProps = [] then [] else " )".toList) ++ " )?".toList) ++
      " space \"\x7d\"".toList)

local instance lawfulChars : LawfulBEq (List Char) := inferInstance

def buildObjectRule (V : Visitor S) (properties : List (List Char × S)) (required : List (List Char))
    (name : List Char) (additional : Additional S) (rules : Rules) : Rules × List Char :=
  let visited := visitProperties V name properties rules
  let propNames := properties.map Prod.fst
  let requiredProps := propNames.filter (· ∈ required)
  let optionalProps := propNames.filter (· ∉ required)
  if additional.isAllowed then
    let added := additionalMember V name propNames additional visited.1
    objectRule name (kvRuleName ((star, added.2) :: visited.2.reverse)) requiredProps
      (optionalProps ++ [star]) added.1
  else
    objectRule name (kvRuleName visited.2.reverse) requiredProps optionalProps visited.1

end LlamaCpp.Schema
