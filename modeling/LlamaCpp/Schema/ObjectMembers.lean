import LlamaCpp.Lib.RuleSets
import LlamaCpp.Schema.ObjectRule

/-!
# The members of an object

What the rule of an object accepts, in terms of its members: the names of the rules with `-kv`
at the end are given, each stands for one symbol, and all the other names are expanded.
-/

namespace LlamaCpp.Schema

open RuleText List Language
open FormLanguage (repeated)

/-! ## Symbols -/

/-- A character of the text, or a member, by the name of its rule. -/
abbrev Symbol := Char ⊕ List Char

def char (c : Char) : Language Symbol := {[.inl c]}

def member (kv : List Char) : Language Symbol := {[.inr kv]}

/-- The expression of `space`. -/
def spaceExpr : Expr :=
  .alt .empty
    (.alt (.cat (.literal [' ']) .empty)
      (.cat (.rep (.literal ['\n']) 1 (some 2))
        (.cat (.rep (.chars false [(' ', ' '), ('\t', '\t')]) 0 (some 20)) .empty)))

theorem read_spaceRule : read spaceRule = some spaceExpr := by decide +kernel

def spaces : Language Symbol := spaceExpr.lang .inl fun _ => 0

def next (kv : List Char) : Language Symbol := char ',' * spaces * member kv

/-- Members with commas between them. -/
def joined : List (List Char) → Language Symbol
  | [] => 1
  | kv :: kvs => member kv * (kvs.map next).prod

def objects (sequences : Set (List (List Char))) : Language Symbol :=
  {w | ∃ kvs ∈ sequences, w ∈ char '{' * spaces * joined kvs * spaces * char '}'}

attribute [local instance] lawfulChars

def memberOf (kvs : List (List Char)) (name : List Char) : Option (Language Symbol) :=
  if name ∈ kvs then some (member name) else none

def memberWords (rules : Rules) (kvs : List (List Char)) (text : List Char) : Language Symbol :=
  wordsOf .inl rules.find (memberOf kvs) text

/-- Rules of members: they start with a literal or a name. -/
structure AreMembers (rules : Rules) (kvs : List (List Char)) : Prop where
  word : ∀ kv ∈ kvs, kv ≠ [] ∧ ∀ c ∈ kv, isWordChar c = true
  text : ∀ kv ∈ kvs, ∃ c rest, rules.find kv = some (c :: rest) ∧ c ≠ '(' ∧ c ≠ '|'

/-! ## The language of the text -/

variable {k : List Char} {ks optionalProps : List (List Char)}

section Texts

variable {rules : Rules} {kvs : List (List Char)} {kv : List Char → List Char} {name : List Char}
  {n : Nat} {before : Rules}

abbrev env (rules : Rules) (kvs : List (List Char)) (n : Nat) : List Char → Language Symbol :=
  depth .inl rules.find (memberOf kvs) n

theorem memberOf_eq_none (h : AreMembers rules kvs) {rest : List Char} {c : Char}
    (hfind : rules.find name = some (c :: rest)) (hc : c = '(' ∨ c = '|') :
    memberOf kvs name = none := by
  refine if_neg fun hmem => ?_
  obtain ⟨d, text, htext, hopen, hbar⟩ := h.text name hmem
  obtain ⟨rfl, -⟩ := List.cons.inj (Option.some.inj (htext.symm.trans hfind))
  exact hc.elim hopen hbar

theorem env_space (h : AreMembers rules kvs) (hn : 0 < n) : env rules kvs n "space".toList = spaces := by
  obtain ⟨n, rfl⟩ := Nat.exists_eq_succ_of_ne_zero hn.ne'
  exact depth_rule (memberOf_eq_none h rules.find_space (.inr rfl)) rules.find_space
    ⟨spaceExpr, read_spaceRule, rfl⟩

theorem itemText_space (h : AreMembers rules kvs) (hn : 0 < n) :
    ItemText .inl (env rules kvs n) "space".toList spaces := by
  rw [← env_space h hn]
  exact itemText_name (by simp) (List.all_eq_true.mp rfl)

theorem itemText_member (h : AreMembers rules kvs) (hname : name ∈ kvs) (n : Nat) :
    ItemText .inl (env rules kvs n) name (member name) := by
  have hgiven : env rules kvs n name = member name := depth_given (if_pos hname) n
  rw [← hgiven]
  exact itemText_name (h.word name hname).1 (h.word name hname).2

theorem seqText_comma (h : AreMembers rules kvs) (hn : 0 < n) :
    SeqText .inl (env rules kvs n) "\",\" space".toList (char ',' * spaces) :=
  (itemText_literal [','] (by simp)).seq.then (itemText_space h hn).seq

theorem itemText_next (h : AreMembers rules kvs) (hname : name ∈ kvs) (hn : 0 < n) :
    ItemText .inl (env rules kvs n) ("( \",\" space ".toList ++ name ++ " )".toList) (next name) := by
  have hseq := (seqText_comma h hn).then (itemText_member h hname n).seq
  unfold next
  simpa using hseq.alts.blank_left.blank_right.group

/-- What `get_recursive_refs` puts in front of the next rule. -/
def headLang (kv : List Char → List Char) (firstIsOptional : Bool) (k : List Char) : Language Symbol :=
  if firstIsOptional then repeated (next (kv k)) 0 (if k = star then none else some 1)
  else member (kv k) * (if k = star then repeated (next (kv k)) 0 none else 1)

/-- Some of the optional members, each with a comma. -/
def restLang (kv : List Char → List Char) (ks : List (List Char)) : Language Symbol :=
  (ks.map (headLang kv true)).prod

theorem getRecursiveRefs_extends (name : List Char) (ks : List (List Char)) (firstIsOptional : Bool)
    (rules : Rules) : rules.Extends (getRecursiveRefs name kv ks firstIsOptional rules).1 := by
  induction ks generalizing firstIsOptional rules with
  | nil => exact .refl rules
  | cons k ks ih =>
    rw [getRecursiveRefs]
    split
    · exact .refl rules
    · exact (ih true rules).trans (addRule_extends _ _ _)

theorem seqText_head (h : AreMembers rules kvs) (hk : kv k ∈ kvs)
    (firstIsOptional : Bool) (hn : 0 < n) :
    SeqText .inl (env rules kvs n) (headText kv firstIsOptional k) (headLang kv firstIsOptional k) := by
  have hnext := itemText_next h hk hn
  have hmember := itemText_member h hk n
  unfold headText headLang
  cases firstIsOptional with
  | true =>
    rw [if_pos rfl, if_pos rfl]
    split
    · exact hnext.star.seq
    · exact hnext.opt.seq
  | false =>
    rw [if_neg Bool.false_ne_true, if_neg Bool.false_ne_true]
    split
    · exact hmember.seq.then hnext.star.seq
    · rw [append_nil, mul_one]
      exact hmember.seq

theorem headText_true (kv : List Char → List Char) (k : List Char) :
    ∃ text, headText kv true k = '(' :: text := ⟨_, rfl⟩

theorem getRecursiveRefs_true (kv : List Char → List Char) (name k : List Char) (ks : List (List Char))
    (before : Rules) :
    ∃ text, (getRecursiveRefs name kv (k :: ks) true before).2 = '(' :: text := by
  obtain ⟨text, htext⟩ := headText_true kv k
  rw [getRecursiveRefs, htext]
  split
  · exact ⟨_, rfl⟩
  · exact ⟨_, rfl⟩

theorem getRecursiveRefs_cons (name k j : List Char) (ks : List (List Char)) (firstIsOptional : Bool)
    {rest added : Rules × List Char} (hrest : getRecursiveRefs name kv (j :: ks) true before = rest)
    (hadded : addRule (subName name k ++ "-rest".toList) rest.2 rest.1 = added) :
    getRecursiveRefs name kv (k :: j :: ks) firstIsOptional before =
      (added.1, headText kv firstIsOptional k ++ ' ' :: added.2) := by
  subst hrest
  subst hadded
  rfl

/-- The text of some optional properties, by induction on how many follow. -/
theorem seqText_refs (h : AreMembers rules kvs) (name : List Char)
    (hks : ∀ j ∈ k :: ks, kv j ∈ kvs) (firstIsOptional : Bool)
    (hextends : (getRecursiveRefs name kv (k :: ks) firstIsOptional before).1.Extends rules)
    (hn : ks.length < n) :
    SeqText .inl (env rules kvs n) (getRecursiveRefs name kv (k :: ks) firstIsOptional before).2
      (headLang kv firstIsOptional k * restLang kv ks) := by
  induction ks generalizing k firstIsOptional before n with
  | nil =>
    have hhead := seqText_head h (hks k mem_cons_self) firstIsOptional hn
    rw [getRecursiveRefs, if_pos rfl]
    simpa [restLang] using hhead
  | cons j ks ih =>
    obtain ⟨n, rfl⟩ := Nat.exists_eq_succ_of_ne_zero (Nat.ne_zero_of_lt hn)
    have hhead := seqText_head h (hks k mem_cons_self) firstIsOptional (Nat.zero_lt_succ n)
    obtain ⟨text, hopen⟩ := getRecursiveRefs_true kv name j ks before
    have hlang : (getRecursiveRefs name kv (j :: ks) true before).1.Extends rules → ks.length < n →
        SeqText .inl (env rules kvs n) (getRecursiveRefs name kv (j :: ks) true before).2
          (headLang kv true j * restLang kv ks) :=
      fun hbefore => ih (fun i hi => hks i (mem_cons_of_mem k hi)) true hbefore
    generalize hrest : getRecursiveRefs name kv (j :: ks) true before = rest at hopen hlang
    generalize hadded : addRule (subName name k ++ "-rest".toList) rest.2 rest.1 = added
    rw [getRecursiveRefs_cons name k j ks firstIsOptional hrest hadded] at hextends ⊢
    have hfind : rules.find added.2 = some rest.2 := by
      refine hextends _ _ ?_
      rw [← hadded]
      exact addRule_find _ _ _
    have hword : added.2 ≠ [] ∧ ∀ c ∈ added.2, isWordChar c = true := by
      rw [← hadded]
      exact addRule_word _ _ (append_ne_nil_of_right_ne_nil _ (by simp))
    have hbefore : rest.1.Extends rules := by
      refine Rules.Extends.trans ?_ hextends
      rw [← hadded]
      exact addRule_extends _ _ _
    have hdepth : env rules kvs (n + 1) added.2 = headLang kv true j * restLang kv ks :=
      depth_rule (memberOf_eq_none h (hopen ▸ hfind) (.inl rfl)) hfind
        (hlang hbefore (Nat.lt_of_succ_lt_succ hn)).alts.denotes
    have hkey : ItemText .inl (env rules kvs (n + 1)) added.2 (headLang kv true j * restLang kv ks) := by
      rw [← hdepth]
      exact itemText_name hword.1 hword.2
    exact hhead.then hkey.seq

/-- One alternate for each optional property that may come first. -/
def firstLangs (kv : List Char → List Char) : List (List Char) → List (Language Symbol)
  | [] => []
  | k :: ks => headLang kv false k * restLang kv ks :: firstLangs kv ks

theorem alternatives_extends (name : List Char) (ks : List (List Char)) (before : Rules) :
    before.Extends (alternatives name kv ks before).1 := by
  induction ks generalizing before with
  | nil => exact .refl before
  | cons k ks ih => exact (getRecursiveRefs_extends name (k :: ks) false before).trans (ih _)

theorem seqText_alternatives (h : AreMembers rules kvs) (name : List Char)
    (hks : ∀ k ∈ ks, kv k ∈ kvs) (hextends : (alternatives name kv ks before).1.Extends rules)
    (hn : ks.length ≤ n) :
    List.Forall₂ (SeqText .inl (env rules kvs n)) (alternatives name kv ks before).2 (firstLangs kv ks) := by
  induction ks generalizing before with
  | nil => exact .nil
  | cons k ks ih =>
    rw [alternatives] at hextends ⊢
    refine .cons ?_ ?_
    · exact seqText_refs h name hks false ((alternatives_extends name ks _).trans hextends) hn
    · exact ih (fun j hj => hks j (mem_cons_of_mem k hj)) hextends (Nat.le_of_succ_le hn)

def optionalLang (kv : List Char → List Char) (requiredProps optionalProps : List (List Char)) :
    Language Symbol :=
  if optionalProps = [] then 1
  else
    repeated
      (if requiredProps = [] then (firstLangs kv optionalProps).sum
        else char ',' * spaces * (firstLangs kv optionalProps).sum) 0 (some 1)

theorem seqText_more (h : AreMembers rules kvs) {names : List (List Char)}
    (hnames : ∀ name ∈ names, name ∈ kvs) (hn : 0 < n) :
    SeqText .inl (env rules kvs n) (names.flatMap fun name => " \",\" space ".toList ++ name)
        (names.map next).prod ∧
      Opens (names.flatMap fun name => " \",\" space ".toList ++ name) := by
  induction names with
  | nil => exact ⟨seqText_nil _ _, opens_nil⟩
  | cons name names ih =>
    have hmember := itemText_member h (hnames name mem_cons_self) n
    have hnext : SeqText .inl (env rules kvs n) (" \",\" space ".toList ++ name) (next name) :=
      ((seqText_comma h hn).then hmember.seq).blank_left (opens_cons _ rfl)
    have hmore := ih fun m hm => hnames m (mem_cons_of_mem name hm)
    rw [flatMap_cons, map_cons, prod_cons]
    exact ⟨hnext.append hmore.1 hmore.2, opens_cons _ rfl⟩

theorem intercalate_cons (sep name : List Char) (names : List (List Char)) :
    List.intercalate sep (name :: names) = name ++ names.flatMap fun name => sep ++ name := by
  induction names generalizing name with
  | nil => simp [List.intercalate]
  | cons other names ih =>
    have hcons : List.intercalate sep (name :: other :: names) =
        name ++ (sep ++ List.intercalate sep (other :: names)) := by simp [List.intercalate]
    rw [hcons, ih, flatMap_cons, append_assoc]

theorem seqText_intercalate (h : AreMembers rules kvs) {names : List (List Char)}
    (hnames : ∀ name ∈ names, name ∈ kvs) (hn : 0 < n) :
    SeqText .inl (env rules kvs n) (List.intercalate " \",\" space ".toList names) (joined names) := by
  cases names with
  | nil => exact seqText_nil _ _
  | cons name names =>
    have hmore := seqText_more h (fun m hm => hnames m (mem_cons_of_mem name hm)) hn
    rw [intercalate_cons]
    exact (itemText_member h (hnames name mem_cons_self) n).seq.append hmore.1 hmore.2

theorem seqText_optional (h : AreMembers rules kvs) (name : List Char) (requiredProps : List (List Char))
    (hoptional : ∀ k ∈ optionalProps, kv k ∈ kvs)
    (hextends : (alternatives name kv optionalProps before).1.Extends rules)
    (hn : optionalProps.length < n) :
    let text :=
      if optionalProps = [] then []
      else
        " (".toList ++ (if requiredProps = [] then [] else " \",\" space ( ".toList) ++
          bars (alternatives name kv optionalProps before).2 ++
          (if requiredProps = [] then [] else " )".toList) ++ " )?".toList
    SeqText .inl (env rules kvs n) text (optionalLang kv requiredProps optionalProps) ∧ Opens text := by
  unfold optionalLang
  by_cases hnil : optionalProps = []
  · rw [if_pos hnil, if_pos hnil]
    exact ⟨seqText_nil _ _, opens_nil⟩
  · have hpos : 0 < n := Nat.zero_lt_of_lt hn
    have halts : AltsText .inl (env rules kvs n) (bars (alternatives name kv optionalProps before).2)
        (firstLangs kv optionalProps).sum := by
      refine altsText_bars (seqText_alternatives h name hoptional hextends hn.le) ?_
      cases optionalProps with
      | nil => exact absurd rfl hnil
      | cons k ks => exact cons_ne_nil _ _
    rw [if_neg hnil, if_neg hnil]
    by_cases hrequired : requiredProps = []
    · rw [if_pos hrequired, if_pos hrequired, if_pos hrequired]
      refine ⟨?_, opens_cons _ rfl⟩
      simpa using halts.blank_right.group.opt.seq.blank_left (opens_cons _ rfl)
    · rw [if_neg hrequired, if_neg hrequired, if_neg hrequired]
      refine ⟨?_, opens_cons _ rfl⟩
      have hinner := (seqText_comma h hpos).then halts.blank_left.blank_right.group.seq
      simpa using hinner.alts.blank_left.blank_right.group.opt.seq.blank_left (opens_cons _ rfl)

theorem denotes_objectRule (h : AreMembers rules kvs) (name : List Char)
    {requiredProps : List (List Char)} (hrequired : ∀ k ∈ requiredProps, kv k ∈ kvs)
    (hoptional : ∀ k ∈ optionalProps, kv k ∈ kvs)
    (hextends : (objectRule name kv requiredProps optionalProps before).1.Extends rules)
    (hn : optionalProps.length < n) :
    Denotes .inl (env rules kvs n) (objectRule name kv requiredProps optionalProps before).2
      (char '{' * spaces * joined (requiredProps.map kv) * optionalLang kv requiredProps optionalProps *
        (spaces * char '}')) := by
  have hpos : 0 < n := Nat.zero_lt_of_lt hn
  have hspace := itemText_space h hpos
  have hopen : SeqText .inl (env rules kvs n) "\"\x7b\" space".toList (char '{' * spaces) :=
    (itemText_literal ['{'] (by simp)).seq.then hspace.seq
  have hclose : SeqText .inl (env rules kvs n) " space \"\x7d\"".toList (spaces * char '}') := by
    have hnil : SeqText .inl (env rules kvs n) [] 1 := seqText_nil _ _
    have hthen := hnil.then (hspace.seq.then (itemText_literal ['}'] (by simp)).seq)
    rwa [one_mul] at hthen
  have hmembers := seqText_intercalate h (List.forall_mem_map.mpr hrequired) hpos
  have hrest := seqText_optional h name requiredProps hoptional hextends hn
  have hall := ((hopen.then hmembers).append hrest.1 hrest.2).append hclose (opens_cons _ rfl)
  exact hall.alts.denotes

end Texts

/-! ## Sequences of members -/

/-- Members for some of the optional keys in their order: each once at most, but `*` any number
of times. -/
def picks (kv : List Char → List Char) : List (List Char) → Set (List (List Char))
  | [] => {[]}
  | k :: ks => {p | ∃ count rest, (k ≠ star → count ≤ 1) ∧ rest ∈ picks kv ks ∧
      p = List.replicate count (kv k) ++ rest}

variable {kv : List Char → List Char} {w : List Symbol}

theorem nil_mem_picks (ks : List (List Char)) : [] ∈ picks kv ks := by
  induction ks with
  | nil => exact rfl
  | cons k ks ih => exact ⟨0, [], fun _ => Nat.zero_le 1, ih, rfl⟩

theorem mem_headLang_true : w ∈ headLang kv true k ↔ ∃ count, (k ≠ star → count ≤ 1) ∧ w ∈ next (kv k) ^ count := by
  unfold headLang
  rw [if_pos rfl, FormLanguage.mem_repeated]
  by_cases hstar : k = star
  · simp [hstar]
  · simp [hstar]

theorem mem_headLang_false : w ∈ headLang kv false k ↔
      ∃ count, (k ≠ star → count = 0) ∧ w ∈ member (kv k) * next (kv k) ^ count := by
  unfold headLang
  rw [if_neg Bool.false_ne_true]
  by_cases hstar : k = star
  · rw [if_pos hstar]
    constructor
    · rintro ⟨u, hu, v, ⟨count, -, -, hv⟩, rfl⟩
      exact ⟨count, absurd hstar, u, hu, v, hv, rfl⟩
    · rintro ⟨count, -, u, hu, v, hv, rfl⟩
      exact ⟨u, hu, v, ⟨count, Nat.zero_le _, by simp, hv⟩, rfl⟩
  · simp [hstar]

theorem mem_restLang : w ∈ restLang kv ks ↔ ∃ p ∈ picks kv ks, w ∈ (p.map next).prod := by
  induction ks generalizing w with
  | nil => simp [restLang, picks]
  | cons k ks ih =>
    have hcons : restLang kv (k :: ks) = headLang kv true k * restLang kv ks := prod_cons
    rw [hcons]
    constructor
    · rintro ⟨u, hu, v, hv, rfl⟩
      obtain ⟨count, hcount, hu⟩ := mem_headLang_true.mp hu
      obtain ⟨rest, hrest, hv⟩ := ih.mp hv
      refine ⟨_, ⟨count, rest, hcount, hrest, rfl⟩, ?_⟩
      rw [map_append, prod_append, map_replicate, prod_replicate]
      exact append_mem_mul hu hv
    · rintro ⟨_, ⟨count, rest, hcount, hrest, rfl⟩, hw⟩
      rw [map_append, prod_append, map_replicate, prod_replicate] at hw
      obtain ⟨u, hu, v, hv, rfl⟩ := Language.mem_mul.mp hw
      exact append_mem_mul (mem_headLang_true.mpr ⟨count, hcount, hu⟩) (ih.mpr ⟨rest, hrest, hv⟩)

theorem mem_firstLangs : w ∈ (firstLangs kv ks).sum ↔ ∃ p ∈ picks kv ks, p ≠ [] ∧ w ∈ joined p := by
  induction ks generalizing w with
  | nil => simp [firstLangs, picks]
  | cons k ks ih =>
    rw [firstLangs, sum_cons, Language.mem_add]
    constructor
    · rintro (⟨u, hu, v, hv, rfl⟩ | hw)
      · obtain ⟨count, hcount, hu⟩ := mem_headLang_false.mp hu
        obtain ⟨rest, hrest, hv⟩ := mem_restLang.mp hv
        refine ⟨_, ⟨count + 1, rest, fun hne => by rw [hcount hne], hrest, rfl⟩, by simp, ?_⟩
        rw [replicate_succ, cons_append, joined, map_append, prod_append, map_replicate, prod_replicate, ← mul_assoc]
        exact append_mem_mul hu hv
      · obtain ⟨p, hp, hne, hw⟩ := ih.mp hw
        exact ⟨p, ⟨0, p, fun _ => Nat.zero_le 1, hp, rfl⟩, hne, hw⟩
    · rintro ⟨_, ⟨count, rest, hcount, hrest, rfl⟩, hne, hw⟩
      cases count with
      | zero => exact .inr (ih.mpr ⟨rest, hrest, hne, hw⟩)
      | succ count =>
        rw [replicate_succ, cons_append, joined, map_append, prod_append,
          map_replicate, prod_replicate, ← mul_assoc] at hw
        obtain ⟨u, hu, v, hv, rfl⟩ := Language.mem_mul.mp hw
        refine .inl (append_mem_mul (mem_headLang_false.mpr ⟨count, fun hne => ?_, hu⟩)
          (mem_restLang.mpr ⟨rest, hrest, hv⟩))
        exact Nat.le_zero.mp (Nat.le_of_succ_le_succ (hcount hne))

theorem joined_append {kvs : List (List Char)} (hne : kvs ≠ []) (more : List (List Char)) :
    joined (kvs ++ more) = joined kvs * (more.map next).prod := by
  cases kvs with
  | nil => exact absurd rfl hne
  | cons kv kvs => rw [cons_append, joined, joined, map_append, prod_append, mul_assoc]

theorem comma_joined {kvs : List (List Char)} (hne : kvs ≠ []) :
    char ',' * spaces * joined kvs = (kvs.map next).prod := by
  cases kvs with
  | nil => exact absurd rfl hne
  | cons kv kvs =>
    rw [joined, map_cons, prod_cons, ← mul_assoc]
    rfl

theorem repeated_one (L : Language Symbol) : repeated L 0 (some 1) = L + 1 := by
  rw [FormLanguage.repeated_succ L 0, FormLanguage.repeated_zero, mul_one]

theorem mem_optionalLang {requiredProps : List (List Char)} :
    w ∈ joined (requiredProps.map kv) * optionalLang kv requiredProps optionalProps ↔
      ∃ p ∈ picks kv optionalProps, w ∈ joined (requiredProps.map kv ++ p) := by
  unfold optionalLang
  by_cases hnil : optionalProps = []
  · subst hnil
    rw [if_pos rfl, mul_one]
    simp [picks]
  · rw [if_neg hnil, repeated_one, mul_add, mul_one, Language.mem_add]
    by_cases hrequired : requiredProps = []
    · subst hrequired
      rw [if_pos rfl, map_nil, joined, one_mul, mem_firstLangs]
      constructor
      · rintro (⟨p, hp, -, hw⟩ | hw)
        · exact ⟨p, hp, hw⟩
        · exact ⟨[], nil_mem_picks optionalProps, hw⟩
      · rintro ⟨p, hp, hw⟩
        cases p with
        | nil => exact .inr hw
        | cons name p => exact .inl ⟨name :: p, hp, cons_ne_nil _ _, hw⟩
    · have hne : requiredProps.map kv ≠ [] := by simpa using hrequired
      rw [if_neg hrequired]
      constructor
      · rintro (⟨u, hu, v, ⟨a, ha, b, hb, rfl⟩, rfl⟩ | hw)
        · obtain ⟨p, hp, hpne, hb⟩ := mem_firstLangs.mp hb
          refine ⟨p, hp, ?_⟩
          rw [joined_append hne, ← comma_joined hpne]
          exact append_mem_mul hu (append_mem_mul ha hb)
        · exact ⟨[], nil_mem_picks optionalProps, by simpa using hw⟩
      · rintro ⟨p, hp, hw⟩
        cases p with
        | nil => exact .inr (by simpa using hw)
        | cons name p =>
          rw [joined_append hne, ← comma_joined (cons_ne_nil name p)] at hw
          obtain ⟨u, hu, v, hv, rfl⟩ := Language.mem_mul.mp hw
          obtain ⟨a, ha, b, hb, rfl⟩ := Language.mem_mul.mp hv
          exact .inl (append_mem_mul hu (append_mem_mul ha
            (mem_firstLangs.mpr ⟨name :: p, hp, cons_ne_nil _ _, hb⟩)))

/-- The sequences of members that the rule accepts. -/
def builtSequences (kv : List Char → List Char) (requiredProps optionalProps : List (List Char)) :
    Set (List (List Char)) :=
  {kvs | ∃ p ∈ picks kv optionalProps, kvs = requiredProps.map kv ++ p}

theorem lang_eq_objects (requiredProps optionalProps : List (List Char)) :
    char '{' * spaces * joined (requiredProps.map kv) * optionalLang kv requiredProps optionalProps *
      (spaces * char '}') = objects (builtSequences kv requiredProps optionalProps) := by
  rw [mul_assoc (char '{' * spaces), ← mul_assoc]
  refine Set.ext fun w => ⟨?_, ?_⟩
  · rintro ⟨_, ⟨_, ⟨a, ha, b, hb, rfl⟩, c, hc, rfl⟩, d, hd, rfl⟩
    obtain ⟨p, hp, hb⟩ := mem_optionalLang.mp hb
    exact ⟨_, ⟨p, hp, rfl⟩, _, ⟨_, ⟨a, ha, b, hb, rfl⟩, c, hc, rfl⟩, d, hd, rfl⟩
  · rintro ⟨_, ⟨p, hp, rfl⟩, _, ⟨_, ⟨a, ha, b, hb, rfl⟩, c, hc, rfl⟩, d, hd, rfl⟩
    exact ⟨_, ⟨_, ⟨a, ha, b, mem_optionalLang.mpr ⟨p, hp, hb⟩, rfl⟩, c, hc, rfl⟩, d, hd, rfl⟩

/-! ## What a word says about its members -/

def membersOf (w : List Symbol) : List (List Char) := w.filterMap Sum.getRight?

/-- There are words, and all of them have these members. -/
structure Carries (L : Language Symbol) (kvs : List (List Char)) : Prop where
  some : ∃ w, w ∈ L
  all : ∀ w ∈ L, membersOf w = kvs

theorem Carries.mul {L M : Language Symbol} {as bs : List (List Char)} (hL : Carries L as)
    (hM : Carries M bs) : Carries (L * M) (as ++ bs) := by
  obtain ⟨u, hu⟩ := hL.some
  obtain ⟨v, hv⟩ := hM.some
  refine ⟨⟨u ++ v, append_mem_mul hu hv⟩, ?_⟩
  rintro _ ⟨u, hu, v, hv, rfl⟩
  rw [← hL.all u hu, ← hM.all v hv]
  exact filterMap_append

theorem carries_char (c : Char) : Carries (char c) [] :=
  ⟨⟨_, rfl⟩, by rintro _ rfl; rfl⟩

theorem carries_member (kv : List Char) : Carries (member kv) [kv] :=
  ⟨⟨_, rfl⟩, by rintro _ rfl; rfl⟩

theorem carries_spaces : Carries spaces [] := by
  refine ⟨⟨[], .inl rfl⟩, fun w hw => ?_⟩
  obtain ⟨cs, rfl⟩ := Expr.exists_of_mem_lang hw
  simp [membersOf, filterMap_map, Function.comp_def]

theorem carries_joined (kvs : List (List Char)) : Carries (joined kvs) kvs := by
  have hnext : ∀ kv, Carries (next kv) [kv] :=
    fun kv => ((carries_char ',').mul carries_spaces).mul (carries_member kv)
  have hmore : ∀ kvs : List (List Char), Carries (kvs.map next).prod kvs := by
    intro kvs
    induction kvs with
    | nil => exact ⟨⟨[], rfl⟩, by rintro _ rfl; rfl⟩
    | cons kv kvs ih =>
      rw [map_cons, prod_cons]
      exact (hnext kv).mul ih
  cases kvs with
  | nil => exact ⟨⟨[], rfl⟩, by rintro _ rfl; rfl⟩
  | cons kv kvs => exact (carries_member kv).mul (hmore kvs)

/-- The words of objects tell their sequences of members apart. -/
theorem objects_injective {S T : Set (List (List Char))} (h : objects S = objects T) : S ⊆ T := by
  intro kvs hkvs
  have hcarries : ∀ kvs, Carries (char '{' * spaces * joined kvs * spaces * char '}') kvs := by
    intro kvs
    simpa using ((((carries_char '{').mul carries_spaces).mul (carries_joined kvs)).mul
      carries_spaces).mul (carries_char '}')
  obtain ⟨w, hw⟩ := (hcarries kvs).some
  have hmem : w ∈ objects S := ⟨kvs, hkvs, hw⟩
  rw [h] at hmem
  obtain ⟨kvs', hkvs', hw'⟩ := hmem
  rwa [← (hcarries kvs).all w hw, (hcarries kvs').all w hw']

end LlamaCpp.Schema
