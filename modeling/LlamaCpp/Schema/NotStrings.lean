import LlamaCpp.Lib.Overlay
import LlamaCpp.Lib.RuleText

/-!
# Strings that are not one of some names

`_not_strings` of json-schema-to-grammar.cpp.  The rule follows a trie of the names: at each
node it goes on with a character of the trie, or with another character and any rest.

Another character is anything but a quote and the characters of the trie, so it may be a
backslash that escapes nothing.
-/

namespace LlamaCpp.NotStrings

open RuleText List
open FormLanguage (repeated)

inductive TrieNode where
  | node (children : List (Char × TrieNode)) (isEndOfString : Bool)

namespace TrieNode

def new : TrieNode := .node [] false

def children : TrieNode → List (Char × TrieNode)
  | .node children _ => children

def isEndOfString : TrieNode → Bool
  | .node _ isEndOfString => isEndOfString

def insert : List Char → TrieNode → TrieNode
  | [], .node children _ => .node children true
  | c :: cs, .node children isEndOfString =>
    .node (Overlay.insertKey c (insert cs ((children.lookup c).getD new)) children) isEndOfString

end TrieNode

mutual

/-- `visit`: what may follow the characters up to a node. -/
def visit (charRule : List Char) : TrieNode → List Char
  | .node children _ =>
    if children = [] then []
    else
      bars (visitChildren charRule children ++
        [('[' :: ('^' :: '"' :: children.map Prod.fst) ++ [']']) ++ ' ' :: (charRule ++ ['*'])])

def visitChildren (charRule : List Char) : List (Char × TrieNode) → List (List Char)
  | [] => []
  | (c, .node children isEndOfString) :: rest =>
    (('[' :: [c] ++ [']']) ++
      if children ≠ [] then ' ' :: ('(' :: visit charRule (.node children isEndOfString) ++ [')'])
      else if isEndOfString then ' ' :: (charRule ++ ['+'])
      else []) :: visitChildren charRule rest

end

/-- `_not_strings`; `charRule` is the name of the rule for `char`. -/
def notStrings (charRule : List Char) (strings : List (List Char)) : List Char :=
  let trie := strings.foldl (fun trie s => trie.insert s) TrieNode.new
  "[\"] ( ".toList ++ visit charRule trie ++ " )".toList ++
    (if trie.isEndOfString then [] else ['?']) ++ " [\"]".toList

/-- `PRIMITIVE_RULES.at("char")` -/
def charRuleText : List Char :=
  "[^\"\\\\\\x7F\\x00-\\x1F] | [\\\\] ([\"\\\\bfnrt] | \"u\" [0-9a-fA-F]{4})".toList

/-! ## What the rule accepts -/

/-- All characters of a trie are letters or digits. -/
inductive Plain : TrieNode → Prop where
  | node {children : List (Char × TrieNode)} {isEndOfString : Bool}
      (hkeys : ∀ kv ∈ children, kv.1.isAlphanum = true) (hchildren : ∀ kv ∈ children, Plain kv.2) :
      Plain (.node children isEndOfString)

theorem mem_of_mem_insertKey {c : Char} {x : TrieNode} {kv : Char × TrieNode}
    {xs : List (Char × TrieNode)} (h : kv ∈ Overlay.insertKey c x xs) : kv = (c, x) ∨ kv ∈ xs := by
  induction xs with
  | nil => exact .inl (mem_singleton.mp h)
  | cons y xs ih =>
    unfold Overlay.insertKey at h
    split at h
    · exact mem_cons.mp h
    · split at h
      · rcases mem_cons.mp h with h | h
        · exact .inl h
        · exact .inr (mem_cons_of_mem y h)
      · rcases mem_cons.mp h with h | h
        · exact .inr (h ▸ mem_cons_self)
        · exact (ih h).imp_right (mem_cons_of_mem y)

variable {s : List Char} {env : List Char → Language Char}

theorem Plain.insert (hs : ∀ c ∈ s, c.isAlphanum = true) {trie : TrieNode} (h : Plain trie) :
    Plain (trie.insert s) := by
  induction s generalizing trie with
  | nil =>
    cases h with
    | node hkeys hchildren => exact .node hkeys hchildren
  | cons c s ih =>
    cases h with
    | @node children isEndOfString hkeys hchildren =>
      have hchild : Plain ((children.lookup c).getD TrieNode.new) := by
        cases hlookup : children.lookup c with
        | none => exact .node (by simp) (by simp)
        | some child =>
          obtain ⟨l, r, heq, -⟩ := List.lookup_eq_some_iff.mp hlookup
          exact hchildren (c, child) (heq ▸ mem_append_right l mem_cons_self)
      refine .node (fun kv hkv => ?_) fun kv hkv => ?_
      · rcases mem_of_mem_insertKey hkv with rfl | hkv
        · exact hs c mem_cons_self
        · exact hkeys kv hkv
      · rcases mem_of_mem_insertKey hkv with rfl | hkv
        · exact ih (fun d hd => hs d (mem_cons_of_mem c hd)) hchild
        · exact hchildren kv hkv

theorem children_insert {c : Char} (trie : TrieNode) : (trie.insert (c :: s)).children ≠ [] := by
  obtain ⟨children, isEndOfString⟩ := trie
  intro h
  have hlookup := Overlay.lookup_insertKey c (TrieNode.insert s ((children.lookup c).getD TrieNode.new))
    children c
  have hempty : Overlay.insertKey c (TrieNode.insert s ((children.lookup c).getD TrieNode.new))
    children = [] := h
  rw [if_pos rfl, hempty] at hlookup
  cases hlookup

theorem isEndOfString_insert (hs : s ≠ []) (trie : TrieNode) :
    (trie.insert s).isEndOfString = trie.isEndOfString := by
  obtain ⟨children, isEndOfString⟩ := trie
  cases s with
  | nil => exact absurd rfl hs
  | cons c s => rfl

variable {strings : List (List Char)}

theorem trie_spec (hne : ∀ s ∈ strings, s ≠ [])
    (hplain : ∀ s ∈ strings, ∀ c ∈ s, c.isAlphanum = true) :
    let trie := strings.foldl (fun trie s => trie.insert s) TrieNode.new
    Plain trie ∧ trie.isEndOfString = false ∧ (strings ≠ [] → trie.children ≠ []) := by
  induction strings using List.reverseRecOn with
  | nil => exact ⟨.node (by simp) (by simp), rfl, by simp⟩
  | append_singleton strings s ih =>
    obtain ⟨htrie, hend, -⟩ := ih (fun t ht => hne t (mem_append_left _ ht))
      (fun t ht => hplain t (mem_append_left _ ht))
    have hs : s ≠ [] := hne s (by simp)
    rw [foldl_append]
    refine ⟨htrie.insert (hplain s (by simp)), (isEndOfString_insert hs _).trans hend, fun _ => ?_⟩
    cases s with
    | nil => exact absurd rfl hs
    | cons c s => exact children_insert _

section Meaning

variable (K : Language Char)

mutual

/-- What may follow the characters up to a node; `K` are the words of `char`. -/
def langOf : TrieNode → Language Char
  | .node children _ =>
    (langsOf children ++
      [letters id (· ∉ '"' :: children.map Prod.fst) * repeated K 0 none]).sum

def langsOf : List (Char × TrieNode) → List (Language Char)
  | [] => []
  | (c, .node children isEndOfString) :: rest =>
    (letters id (· ∈ [c]) *
      if children ≠ [] then langOf (.node children isEndOfString)
      else if isEndOfString then repeated K 1 none
      else 1) :: langsOf rest

end

variable {K} {env : List Char → Language Char} {charRule : List Char}

theorem ne_of_isAlphanum {c d : Char} (hc : c.isAlphanum = true) (hd : d.isAlphanum = false) : c ≠ d := by
  rintro rfl
  rw [hc] at hd
  cases hd

mutual

theorem altsText_visit (hchar : ItemText id env charRule K) (trie : TrieNode) (htrie : Plain trie)
    (hne : trie.children ≠ []) : AltsText id env (visit charRule trie) (langOf K trie) := by
  cases trie with
  | node children isEndOfString =>
    have hne : children ≠ [] := hne
    cases htrie with
    | node hkeys hchildren =>
      have hrest := forall₂_visitChildren hchar children hkeys hchildren
      have hreject : ∀ c ∈ '"' :: children.map Prod.fst, c ≠ ']' ∧ c ≠ '\\' ∧ c ≠ '-' := by
        intro c hc
        cases hc with
        | head => decide
        | tail _ hc =>
          obtain ⟨kv, hkv, rfl⟩ := List.mem_map.mp hc
          have hkey := hkeys kv hkv
          exact ⟨ne_of_isAlphanum hkey rfl, ne_of_isAlphanum hkey rfl, ne_of_isAlphanum hkey rfl⟩
      have hlast := (itemText_noneOf ('"' :: children.map Prod.fst) hreject).seq.then hchar.star.seq
      rw [visit, if_neg hne, langOf]
      exact altsText_bars (List.rel_append hrest (.cons hlast .nil)) (by simp)

theorem forall₂_visitChildren (hchar : ItemText id env charRule K) (children : List (Char × TrieNode))
    (hkeys : ∀ kv ∈ children, kv.1.isAlphanum = true) (hplain : ∀ kv ∈ children, Plain kv.2) :
    List.Forall₂ (SeqText id env) (visitChildren charRule children) (langsOf K children) := by
  cases children with
  | nil =>
    rw [visitChildren, langsOf]
    exact .nil
  | cons kv rest =>
    obtain ⟨c, child⟩ := kv
    have hkey : c.isAlphanum = true := hkeys (c, child) List.mem_cons_self
    have hchild : Plain child := hplain (c, child) List.mem_cons_self
    have hone : ItemText id env ('[' :: [c] ++ [']']) (letters id (· ∈ [c])) := by
      refine itemText_oneOf [c] (fun d hd => ?_) ?_
      · rw [List.mem_singleton.mp hd]
        exact ⟨ne_of_isAlphanum hkey rfl, ne_of_isAlphanum hkey rfl, ne_of_isAlphanum hkey rfl⟩
      · simpa using ne_of_isAlphanum hkey rfl
    cases child with
    | node grandchildren isEndOfString =>
      rw [visitChildren, langsOf]
      refine .cons ?_ (forall₂_visitChildren hchar rest
        (fun kv hkv => hkeys kv (List.mem_cons_of_mem _ hkv))
        fun kv hkv => hplain kv (List.mem_cons_of_mem _ hkv))
      split
      · next hmore =>
        exact hone.seq.then (altsText_visit hchar _ hchild hmore).group.seq
      · split
        · exact hone.seq.then hchar.plus.seq
        · rw [List.append_nil, mul_one]
          exact hone.seq

end

theorem denotes_notStrings (hchar : ItemText id env charRule K)
    (hstrings : strings ≠ []) (hne : ∀ s ∈ strings, s ≠ [])
    (hplain : ∀ s ∈ strings, ∀ c ∈ s, c.isAlphanum = true) :
    Denotes id env (notStrings charRule strings)
      (letters id (· ∈ ['"']) *
        repeated (langOf K (strings.foldl (fun trie s => trie.insert s) TrieNode.new)) 0 (some 1) *
        letters id (· ∈ ['"'])) := by
  obtain ⟨htrie, hend, hchildren⟩ := trie_spec hne hplain
  have hquote : ItemText id env "[\"]".toList (letters id (· ∈ ['"'])) :=
    itemText_oneOf ['"'] (by simp) (by simp)
  have hgroup := (altsText_visit hchar _ htrie (hchildren hstrings)).blank_left.blank_right.group.opt
  have hall := ((hquote.seq.then hgroup.seq).then hquote.seq).alts.denotes
  unfold notStrings
  dsimp only
  rw [hend, if_neg Bool.false_ne_true]
  simpa using hall

/-- A backslash may follow wherever a trie goes on. -/
theorem backslash_mem_langOf {trie : TrieNode} (h : Plain trie) : ['\\'] ∈ langOf K trie := by
  cases h with
  | node hkeys hchildren =>
    rw [langOf]
    refine mem_sum.mpr ⟨_, mem_append_right _ mem_cons_self, ?_⟩
    refine Language.mem_mul.mpr ⟨['\\'], ⟨'\\', ?_, rfl⟩, [], ⟨0, by simp⟩, rfl⟩
    intro hmem
    cases hmem with
    | tail _ hmem =>
      obtain ⟨kv, hkv, hkey⟩ := List.mem_map.mp hmem
      exact ne_of_isAlphanum (hkeys kv hkv) rfl hkey

end Meaning

/-! ## The words of `char` -/

/-- The expression of `char`. -/
def charExpr : Expr :=
  .alt (.cat (.chars true [('"', '"'), ('\\', '\\'), ('\x7F', '\x7F'), ('\x00', '\x1F')]) .empty)
    (.cat (.chars false [('\\', '\\')])
      (.cat
        (.alt
          (.cat (.chars false ("\"\\bfnrt".toList.map fun c => (c, c))) .empty)
          (.cat (.literal ['u'])
            (.cat (.rep (.chars false [('0', '9'), ('a', 'f'), ('A', 'F')]) 4 (some 4)) .empty)))
        .empty))

theorem read_charRuleText : read charRuleText = some charExpr := by decide +kernel

/-- A backslash alone is not a character of a JSON string. -/
theorem char_ne {w : List Char} (h : w ∈ charExpr.lang id env) : w ≠ [] ∧ w ≠ ['\\'] := by
  simp only [charExpr, Expr.lang, mul_one] at h
  rcases h with ⟨c, hc, rfl⟩ | h
  · refine ⟨by simp, fun heq => ?_⟩
    obtain rfl : c = '\\' := (List.cons.inj heq).1
    exact hc (by decide)
  · obtain ⟨u, ⟨c, -, rfl⟩, v, hv, rfl⟩ := Language.mem_mul.mp h
    have hne : v ≠ [] := by
      rcases hv with ⟨d, -, rfl⟩ | hv
      · simp
      · obtain ⟨u, rfl, v, -, rfl⟩ := Language.mem_mul.mp hv
        simp
    exact ⟨by simp, by simpa using fun _ => hne⟩

theorem backslash_notMem_kstar : ['\\'] ∉ KStar.kstar (charExpr.lang id env) := by
  intro h
  obtain ⟨words, hwords, hmem⟩ := Language.mem_kstar.mp h
  cases words with
  | nil => cases hwords
  | cons w words =>
    obtain ⟨hne, hback⟩ := char_ne (hmem w mem_cons_self)
    cases w with
    | nil => exact hne rfl
    | cons c w =>
      rw [flatten_cons, cons_append] at hwords
      obtain ⟨rfl, hrest⟩ := List.cons.inj hwords
      obtain ⟨rfl, -⟩ := append_eq_nil_iff.mp hrest.symm
      exact hback rfl

/-! ## The claim of the comment -/

/-- The rule accepts the JSON strings whose body is none of the names, and nothing else. -/
def Excludes (env : List Char → Language Char) (charRule : List Char) (strings : List (List Char)) : Prop :=
  Denotes id env (notStrings charRule strings)
    {w | ∃ body ∈ KStar.kstar (env charRule), body ∉ strings ∧ w = ['"'] ++ body ++ ['"']}

/-- A text whose body is one backslash is accepted. -/
theorem backslash_mem {charRule : List Char} (hname : charRule ≠ [])
    (hword : ∀ c ∈ charRule, isWordChar c = true) (hstrings : strings ≠ [])
    (hne : ∀ s ∈ strings, s ≠ []) (hplain : ∀ s ∈ strings, ∀ c ∈ s, c.isAlphanum = true)
    {L : Language Char} (h : Denotes id env (notStrings charRule strings) L) : ['"', '\\', '"'] ∈ L := by
  have hitem : ItemText id env charRule (env charRule) := itemText_name hname hword
  rw [h.unique (denotes_notStrings hitem hstrings hne hplain)]
  have hquote : ['"'] ∈ letters id (· ∈ ['"']) := ⟨'"', List.mem_cons_self, rfl⟩
  have hback := backslash_mem_langOf (K := env charRule) (trie_spec hne hplain).1
  have hbody : ['\\'] ∈ repeated (langOf (env charRule)
      (strings.foldl (fun trie s => trie.insert s) TrieNode.new)) 0 (some 1) :=
    ⟨1, Nat.zero_le 1, by simp, by simpa using hback⟩
  exact Language.append_mem_mul (Language.append_mem_mul hquote hbody) hquote

theorem backslash_notMem_string {charRule : List Char}
    (hchar : Denotes id env charRuleText (env charRule)) {body : List Char}
    (hbody : body ∈ KStar.kstar (env charRule)) : ['"', '\\', '"'] ≠ ['"'] ++ body ++ ['"'] := by
  intro heq
  have htail : ['\\'] ++ ['"'] = body ++ ['"'] := (List.cons.inj heq).2
  obtain rfl : ['\\'] = body := (List.append_left_inj _).mp htail
  obtain ⟨e, he, hlang⟩ := hchar
  obtain rfl := Option.some.inj (read_charRuleText.symm.trans he)
  rw [← hlang] at hbody
  exact backslash_notMem_kstar hbody

/-- It never does: the text of one backslash is accepted, and is no JSON string. -/
theorem not_excludes {env : List Char → Language Char} {charRule : List Char}
    (hname : charRule ≠ []) (hword : ∀ c ∈ charRule, isWordChar c = true)
    (hchar : Denotes id env charRuleText (env charRule)) {strings : List (List Char)}
    (hstrings : strings ≠ []) (hne : ∀ s ∈ strings, s ≠ [])
    (hplain : ∀ s ∈ strings, ∀ c ∈ s, c.isAlphanum = true) : ¬Excludes env charRule strings := by
  intro hexcludes
  obtain ⟨body, hbody, -, heq⟩ := backslash_mem hname hword hstrings hne hplain hexcludes
  exact backslash_notMem_string hchar hbody heq

/-- The rules by the primitives alone. -/
def charEnv : List Char → Language Char :=
  fun _ => charExpr.lang id fun _ => 0

theorem denotes_charRuleText : Denotes id charEnv charRuleText (charEnv "char".toList) :=
  ⟨charExpr, read_charRuleText, rfl⟩

theorem not_excludes_two : ¬Excludes charEnv "char".toList ["a".toList, "ab".toList] :=
  not_excludes (by simp) (List.all_eq_true.mp rfl) denotes_charRuleText (by simp) (by simp) (by simp)

theorem lone_backslash_accepted : ¬Excludes charEnv "char".toList ["a".toList] := by
  intro hexcludes
  obtain ⟨body, hbody, -, heq⟩ :=
    backslash_mem (by simp) (List.all_eq_true.mp rfl) (by simp) (by simp) (by simp) hexcludes
  exact backslash_notMem_string denotes_charRuleText hbody heq

end LlamaCpp.NotStrings
