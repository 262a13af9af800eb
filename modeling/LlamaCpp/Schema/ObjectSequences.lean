import LlamaCpp.Schema.ObjectMembers

/-!
# The sequences of members of an object

An object has its required properties in the order of their declaration, then some of the
optional ones in that order, then any number of other members if these are allowed.  The rule of
`_build_object_rule` accepts these, except for a property that is called `*`.
-/

namespace LlamaCpp.Schema

open RuleText List

variable {S : Type}

/-! ## The rules of the members -/

theorem visitProperties_extends (V : Visitor S) (name : List Char) (properties : List (List Char × S))
    (rules : Rules) : rules.Extends (visitProperties V name properties rules).1 := by
  induction properties generalizing rules with
  | nil => exact .refl rules
  | cons property properties ih =>
    exact ((V.keeps _ _ rules).trans (addRule_extends _ _ _)).trans (ih _)

theorem visitProperties_names (V : Visitor S) (name : List Char) (properties : List (List Char × S))
    (rules : Rules) : (visitProperties V name properties rules).2.map Prod.fst = properties.map Prod.fst := by
  induction properties generalizing rules with
  | nil => rfl
  | cons property properties ih =>
    rw [visitProperties, map_cons, map_cons, ih]

/-- The name of a rule is read as a name. -/
def IsWord (name : List Char) : Prop := name ≠ [] ∧ ∀ c ∈ name, isWordChar c = true

/-- The rule of a property's member. -/
def kvText (propName rest : List Char) : List Char :=
  formatLiteral (dump propName) ++ " space \":\" space ".toList ++ rest

theorem visitProperties_rules (V : Visitor S) (name : List Char) (properties : List (List Char × S))
    (rules : Rules) {kv : List Char × List Char} (hkv : kv ∈ (visitProperties V name properties rules).2) :
    IsWord kv.2 ∧ ∃ rest, (visitProperties V name properties rules).1.find kv.2 = some (kvText kv.1 rest) := by
  induction properties generalizing rules with
  | nil => cases hkv
  | cons property properties ih =>
    rw [visitProperties] at hkv ⊢
    cases hkv with
    | head =>
      refine ⟨addRule_word _ _ (append_ne_nil_of_right_ne_nil _ (by simp)),
        (V.visit property.2 (subName name property.1) rules).2, ?_⟩
      exact visitProperties_extends V name properties _ _ _ (addRule_find _ _ _)
    | tail _ hkv => exact ih _ hkv

theorem additionalKey_spec (sub : List Char) (propNames : List (List Char)) (rules : Rules) :
    rules.Extends (additionalKey sub propNames rules).1 ∧ IsWord (additionalKey sub propNames rules).2 := by
  unfold additionalKey
  split
  · exact ⟨addPrimitive_extends _ _ rules, addRule_word _ _ (by simp)⟩
  · exact ⟨(addPrimitive_extends _ _ rules).trans (addRule_extends _ _ _),
      addRule_word _ _ (append_ne_nil_of_right_ne_nil _ (by simp))⟩

theorem additionalValue_extends (V : Visitor S) (sub : List Char) (additional : Additional S)
    (rules : Rules) : rules.Extends (additionalValue V sub additional rules).1 := by
  cases additional with
  | absent | boolean allowed => exact addPrimitive_extends _ _ rules
  | object schema => exact V.keeps _ _ rules

/-- The rule of a member of another name starts with the name of a rule. -/
theorem additionalMember_spec (V : Visitor S) (name : List Char) (propNames : List (List Char))
    (additional : Additional S) (rules : Rules) :
    let added := additionalMember V name propNames additional rules
    rules.Extends added.1 ∧ IsWord added.2 ∧
      ∃ c rest, added.1.find added.2 = some (c :: rest) ∧ isWordChar c = true := by
  unfold additionalMember
  have hvalue := additionalValue_extends V (subName name "additional".toList) additional rules
  have hkey := additionalKey_spec (subName name "additional".toList) propNames
    (additionalValue V (subName name "additional".toList) additional rules).1
  refine ⟨(hvalue.trans hkey.1).trans (addRule_extends _ _ _),
    addRule_word _ _ (append_ne_nil_of_right_ne_nil _ (by simp)), ?_⟩
  obtain ⟨hne, hword⟩ := hkey.2
  rw [addRule_find]
  generalize (additionalKey _ _ _).2 = key at hne hword
  cases key with
  | nil => exact absurd rfl hne
  | cons c key => exact ⟨c, _, rfl, hword c mem_cons_self⟩

/-! ## The member of a property called `*` -/

/-- An escaped character is itself or starts with two backslashes. -/
theorem escape_cases (c : Char) : (dumpChar c).flatMap literalEscape = [c] ∧ c ≠ '\\' ∨
    ∃ rest, (dumpChar c).flatMap literalEscape = '\\' :: '\\' :: rest := by
  unfold dumpChar
  split_ifs with h1 h2 h3 h4 h5 h6 h7 h8
  · exact .inr ⟨_, rfl⟩
  · exact .inr ⟨_, rfl⟩
  · exact .inr ⟨_, rfl⟩
  · exact .inr ⟨_, rfl⟩
  · exact .inr ⟨_, rfl⟩
  · exact .inr ⟨_, rfl⟩
  · exact .inr ⟨_, rfl⟩
  · exact .inr ⟨_, rfl⟩
  · refine .inl ⟨?_, h7⟩
    simp [literalEscape, h3, h5, h6, h7]

/-- No other name has the literal of `*`. -/
theorem eq_star_of_kvText {propName rest rest' : List Char} (h : kvText propName rest = kvText star rest') :
    propName = star := by
  have hbody : ∀ (s more : List Char), kvText s more =
      '"' :: '\\' :: '"' :: (s.flatMap (fun c => (dumpChar c).flatMap literalEscape) ++
        ('\\' :: '"' :: '"' :: (" space \":\" space ".toList ++ more))) := by
    intro s more
    simp [kvText, formatLiteral, dump, literalEscape, flatMap_assoc]
  rw [hbody, hbody] at h
  have hstar : star.flatMap (fun c => (dumpChar c).flatMap literalEscape) = ['*'] := by decide +kernel
  rw [hstar] at h
  simp only [List.cons.injEq, true_and] at h
  cases propName with
  | nil => simp at h
  | cons c propName =>
    rw [flatMap_cons] at h
    rcases escape_cases c with ⟨hc, -⟩ | ⟨more, hc⟩
    · rw [hc] at h
      obtain ⟨hfirst, htail⟩ := List.cons.inj h
      cases propName with
      | nil => rw [hfirst]; rfl
      | cons d propName =>
        rw [flatMap_cons] at htail
        rcases escape_cases d with ⟨hd, hne⟩ | ⟨more, hd⟩
        · rw [hd] at htail
          exact absurd (List.cons.inj htail).1 hne
        · rw [hd] at htail
          simp at htail
    · rw [hc] at h
      simp at h

/-! ## Sequences of members -/

/-- The required members in their order, some of the optional ones in theirs, and any number of
other members if there may be any. -/
def allowedSequences (kvs : List (List Char × List Char)) (required : List (List Char))
    (other : Option (List Char)) : Set (List (List Char)) :=
  {members | ∃ (chosen : List (List Char × List Char)) (more : List (List Char)),
    chosen.Sublist (kvs.filter (·.1 ∉ required)) ∧ (∀ kv ∈ more, other = some kv) ∧
    members = (kvs.filter (·.1 ∈ required)).map Prod.snd ++ (chosen.map Prod.snd ++ more)}

section Picks

variable {kv : List Char → List Char} {ks p : List (List Char)}

theorem mem_of_mem_picks (h : p ∈ picks kv ks) {x : List Char} (hx : x ∈ p) : ∃ k ∈ ks, x = kv k := by
  induction ks generalizing p with
  | nil =>
    obtain rfl : p = [] := h
    cases hx
  | cons k ks ih =>
    obtain ⟨count, rest, -, hrest, rfl⟩ := h
    rcases List.mem_append.mp hx with hx | hx
    · exact ⟨k, mem_cons_self, eq_of_mem_replicate hx⟩
    · obtain ⟨j, hj, rfl⟩ := ih hrest hx
      exact ⟨j, mem_cons_of_mem k hj, rfl⟩

/-- Without `*`, a choice of keys. -/
theorem mem_picks_append (hstar : star ∉ ks) {tail : List (List Char)} : p ∈ picks kv (ks ++ tail) ↔
      ∃ chosen rest : List (List Char), chosen.Sublist ks ∧ rest ∈ picks kv tail ∧ p = chosen.map kv ++ rest := by
  induction ks generalizing p with
  | nil => simp
  | cons k ks ih =>
    have hne : k ≠ star := fun heq => hstar (heq ▸ mem_cons_self)
    have ih := fun {p} => @ih p (fun hmem => hstar (mem_cons_of_mem k hmem))
    constructor
    · rintro ⟨count, rest, hcount, hrest, rfl⟩
      obtain ⟨chosen, more, hchosen, hmore, rfl⟩ := ih.mp hrest
      obtain rfl | rfl : count = 0 ∨ count = 1 := Nat.le_one_iff_eq_zero_or_eq_one.mp (hcount hne)
      · exact ⟨chosen, more, hchosen.cons k, hmore, rfl⟩
      · exact ⟨k :: chosen, more, hchosen.cons_cons k, hmore, rfl⟩
    · rintro ⟨chosen, rest, hchosen, hrest, rfl⟩
      cases hchosen with
      | cons _ hchosen =>
        exact ⟨0, _, fun _ => Nat.zero_le 1, ih.mpr ⟨chosen, rest, hchosen, hrest, rfl⟩, rfl⟩
      | cons_cons _ hchosen =>
        exact ⟨1, _, fun _ => le_rfl, ih.mpr ⟨_, rest, hchosen, hrest, rfl⟩, rfl⟩

theorem mem_picks_star : p ∈ picks kv [star] ↔ ∀ x ∈ p, x = kv star := by
  constructor
  · intro h x hx
    obtain ⟨k, hk, rfl⟩ := mem_of_mem_picks h hx
    rw [mem_singleton.mp hk]
  · intro h
    exact ⟨p.length, [], absurd rfl, rfl, by rw [append_nil]; exact eq_replicate_of_mem h⟩

/-- A `*` among the keys may be picked twice. -/
theorem star_twice (h : star ∈ ks) : [kv star, kv star] ∈ picks kv ks := by
  induction ks with
  | nil => cases h
  | cons k ks ih =>
    by_cases hk : k = star
    · subst hk
      exact ⟨2, [], absurd rfl, nil_mem_picks ks, rfl⟩
    · exact ⟨0, _, fun _ => Nat.zero_le 1, ih (mem_of_ne_of_mem (Ne.symm hk) h), rfl⟩

end Picks

section Sequences

variable {kvs : List (List Char × List Char)} {required : List (List Char)} {other : Option (List Char)}
  {kv : List Char → List Char}

/-- What the map of the rule names knows: each property's rule, unless it is called `*` and there
may be other members, and the rule of the other members. -/
structure Knows (kvs : List (List Char × List Char)) (other : Option (List Char))
    (kv : List Char → List Char) : Prop where
  property : ∀ p ∈ kvs, (p.1 = star → other = none) → kv p.1 = p.2
  other : ∀ name, other = some name → kv star = name

def optionalKeys (kvs : List (List Char × List Char)) (required : List (List Char))
    (other : Option (List Char)) : List (List Char) :=
  (kvs.map Prod.fst).filter (· ∉ required) ++ other.toList.map fun _ => star

theorem map_filter_names (hknows : Knows kvs other kv) {f : List Char → Bool}
    (hstar : ∀ p ∈ kvs, f p.1 = true → p.1 = star → other = none) :
    ((kvs.map Prod.fst).filter f).map kv = (kvs.filter fun p => f p.1).map Prod.snd := by
  rw [List.filter_map, List.map_map]
  refine map_congr_left fun p hp => ?_
  obtain ⟨hmem, hf⟩ := mem_filter.mp hp
  exact hknows.property p hmem (hstar p hmem hf)

/-- Where no property is called `*`, or one is that is required and alone. -/
theorem builtSequences_eq (hknows : Knows kvs other kv)
    (hstar : star ∈ kvs.map Prod.fst → star ∈ required ∧ other = none) :
    builtSequences kv ((kvs.map Prod.fst).filter (· ∈ required)) (optionalKeys kvs required other) =
      allowedSequences kvs required other := by
  have hfirst : ∀ p ∈ kvs, p.1 = star → star ∈ required ∧ other = none :=
    fun p hp heq => hstar (heq ▸ List.mem_map_of_mem hp)
  have hrequired := map_filter_names (f := fun name => decide (name ∈ required)) hknows
    fun p hp _ heq => (hfirst p hp heq).2
  have hnostar : star ∉ (kvs.map Prod.fst).filter (· ∉ required) := by
    intro hmem
    obtain ⟨hmem, hnot⟩ := mem_filter.mp hmem
    exact of_decide_eq_true hnot (hstar hmem).1
  have hmore : ∀ more : List (List Char),
      more ∈ picks kv (other.toList.map fun _ => star) ↔ ∀ x ∈ more, other = some x := by
    intro more
    cases hother : other with
    | none =>
      cases more with
      | nil => simp [picks]
      | cons x more =>
        refine ⟨fun h => absurd h (cons_ne_nil x more), fun h => ?_⟩
        cases h x mem_cons_self
    | some name =>
      rw [Option.toList_some, map_singleton, mem_picks_star, hknows.other name hother]
      simp [eq_comm]
  have hchosen_map : ∀ chosen : List (List Char × List Char),
      chosen.Sublist (kvs.filter (·.1 ∉ required)) → (chosen.map Prod.fst).map kv = chosen.map Prod.snd := by
    intro chosen hsublist
    rw [List.map_map]
    refine map_congr_left fun p hp => ?_
    have hmem := (mem_filter.mp (hsublist.subset hp)).1
    exact hknows.property p hmem fun heq => (hfirst p hmem heq).2
  refine Set.ext fun members => ?_
  constructor
  · rintro ⟨p, hp, rfl⟩
    obtain ⟨chosen, more, hchosen, hrest, rfl⟩ := (mem_picks_append hnostar).mp hp
    rw [List.filter_map] at hchosen
    obtain ⟨chosen, hsublist, rfl⟩ := sublist_map_iff.mp hchosen
    exact ⟨chosen, more, hsublist, (hmore more).mp hrest, by rw [hrequired, hchosen_map chosen hsublist]⟩
  · rintro ⟨chosen, more, hchosen, hrest, rfl⟩
    refine ⟨chosen.map Prod.snd ++ more, (mem_picks_append hnostar).mpr
      ⟨chosen.map Prod.fst, more, ?_, (hmore more).mpr hrest, ?_⟩, ?_⟩
    · rw [List.filter_map]
      exact hchosen.map Prod.fst
    · rw [hchosen_map chosen hchosen]
    · rw [hrequired]

/-- Each member of the properties stands in a sequence once. -/
theorem count_allowed_le {own : List Char} (hnodup : (kvs.map Prod.fst).Nodup)
    (hunique : ∀ p ∈ kvs, p.2 = own → p.1 = star) {members : List (List Char)}
    (h : members ∈ allowedSequences kvs required none) : members.count own ≤ 1 := by
  obtain ⟨chosen, more, hchosen, hmore, rfl⟩ := h
  obtain rfl : more = [] := eq_nil_iff_forall_not_mem.mpr fun x hx => by cases hmore x hx
  have hcount : ∀ ps : List (List Char × List Char), (ps.map Prod.snd).count own = ps.countP fun p => p.2 == own := by
    intro ps
    rw [List.count, countP_map]
    rfl
  have hstar : (kvs.countP fun p => p.2 == own) ≤ (kvs.map Prod.fst).count star := by
    rw [List.count, countP_map]
    refine countP_mono_left fun p hp heq => ?_
    exact beq_iff_eq.mpr (hunique p hp (beq_iff_eq.mp heq))
  have hsplit := countP_eq_countP_filter_add kvs (fun p => p.2 == own) fun p => decide (p.1 ∈ required)
  have hsublist : (chosen.countP fun p => p.2 == own) ≤
      (kvs.filter (·.1 ∉ required)).countP fun p => p.2 == own := hchosen.countP_le
  have hone := nodup_iff_count_le_one.mp hnodup star
  rw [append_nil, count_append, hcount, hcount]
  simp only [decide_not] at hsublist hsplit ⊢
  omega

/-- Another property called `*` spoils the rule. -/
theorem builtSequences_ne {own : List Char} (hknows : Knows kvs other kv) (hnodup : (kvs.map Prod.fst).Nodup)
    (hown : (star, own) ∈ kvs) (hunique : ∀ p ∈ kvs, p.2 = own → p.1 = star) (hother : other ≠ some own)
    (hbad : ¬(star ∈ required ∧ other = none)) :
    builtSequences kv ((kvs.map Prod.fst).filter (· ∈ required)) (optionalKeys kvs required other) ≠
      allowedSequences kvs required other := by
  intro heq
  cases hcase : other with
  | none =>
    -- the optional property may come twice
    subst hcase
    have hkv : kv star = own := hknows.property (star, own) hown fun _ => rfl
    have hkey : star ∈ optionalKeys kvs required none := by
      refine mem_append_left _ (mem_filter.mpr ⟨List.mem_map_of_mem hown, ?_⟩)
      exact decide_eq_true fun hmem => hbad ⟨hmem, rfl⟩
    have hbuilt : ((kvs.map Prod.fst).filter (· ∈ required)).map kv ++ [own, own] ∈
        allowedSequences kvs required none := by
      rw [← heq]
      exact ⟨_, star_twice hkey, by rw [hkv]⟩
    have hle := count_allowed_le hnodup hunique hbuilt
    rw [count_append] at hle
    simp at hle
  | some name =>
    -- the property's own rule is never used
    have hnever : ∀ k, k ∈ kvs.map Prod.fst ∨ k = star → kv k ≠ own := by
      rintro k hk rfl
      by_cases hstar : k = star
      · exact hother (hcase.trans (congrArg some (hstar ▸ hknows.other name hcase).symm))
      · obtain ⟨p, hp, rfl⟩ := List.mem_map.mp (hk.resolve_right hstar)
        exact hstar (hunique p hp (hknows.property p hp fun h => absurd h hstar).symm)
    have hallowed : (kvs.filter (·.1 ∈ required)).map Prod.snd ++
        ((kvs.filter (·.1 ∉ required)).map Prod.snd ++ []) ∈ allowedSequences kvs required other :=
      ⟨_, [], List.Sublist.refl _, by simp, rfl⟩
    rw [← heq] at hallowed
    obtain ⟨p, hp, hmembers⟩ := hallowed
    have hmem : own ∈ (kvs.filter (·.1 ∈ required)).map Prod.snd ++
        ((kvs.filter (·.1 ∉ required)).map Prod.snd ++ []) := by
      rw [append_nil, ← map_append]
      refine List.mem_map.mpr ⟨(star, own), ?_, rfl⟩
      by_cases hrequired : star ∈ required
      · exact mem_append_left _ (mem_filter.mpr ⟨hown, decide_eq_true hrequired⟩)
      · exact mem_append_right _ (mem_filter.mpr ⟨hown, decide_eq_true hrequired⟩)
    rw [hmembers] at hmem
    rcases List.mem_append.mp hmem with hmem | hmem
    · obtain ⟨k, hk, hkv⟩ := List.mem_map.mp hmem
      exact hnever k (.inl (mem_filter.mp hk).1) hkv
    · obtain ⟨k, hk, hkv⟩ := mem_of_mem_picks hp hmem
      refine hnever k ?_ hkv.symm
      rcases List.mem_append.mp hk with hk | hk
      · exact .inl (mem_filter.mp hk).1
      · obtain ⟨-, -, rfl⟩ := List.mem_map.mp hk
        exact .inr rfl

end Sequences

/-! ## The rule -/

section Build

variable (V : Visitor S) (properties : List (List Char × S)) (required : List (List Char))
  (name : List Char) (additional : Additional S) (rules : Rules)

def propertyMembers : List (List Char × List Char) := (visitProperties V name properties rules).2

def otherMember : Option (List Char) :=
  if additional.isAllowed then
    some (additionalMember V name (properties.map Prod.fst) additional
      (visitProperties V name properties rules).1).2
  else none

def memberNames : List (List Char) :=
  (propertyMembers V properties name rules).map Prod.snd ++
    (otherMember V properties name additional rules).toList

/-- The rule accepts the objects with an allowed sequence of members, and nothing else. -/
def AcceptsAllowed : Prop :=
  let built := buildObjectRule V properties required name additional rules
  memberWords built.1 (memberNames V properties name additional rules) built.2 =
    objects (allowedSequences (propertyMembers V properties name rules) required
      (otherMember V properties name additional rules))

/-- The map of the rule names when the text is put together. -/
def ruleNames : List Char → List Char :=
  kvRuleName (((otherMember V properties name additional rules).toList.map fun kv => (star, kv)) ++
    (propertyMembers V properties name rules).reverse)

/-- The rules when the text is put together. -/
def memberRules : Rules :=
  if additional.isAllowed then
    (additionalMember V name (properties.map Prod.fst) additional
      (visitProperties V name properties rules).1).1
  else (visitProperties V name properties rules).1

theorem buildObjectRule_eq :
    buildObjectRule V properties required name additional rules =
      objectRule name (ruleNames V properties name additional rules)
        (((propertyMembers V properties name rules).map Prod.fst).filter (· ∈ required))
        (optionalKeys (propertyMembers V properties name rules) required
          (otherMember V properties name additional rules))
        (memberRules V properties name additional rules) := by
  have hnames := visitProperties_names V name properties rules
  unfold buildObjectRule ruleNames memberRules optionalKeys otherMember propertyMembers
  rw [hnames]
  cases additional.isAllowed with
  | false => simp
  | true => rfl

variable {properties}

theorem lookup_of_nodup {kvs : List (List Char × List Char)} (hnodup : (kvs.map Prod.fst).Nodup)
    {p : List Char × List Char} (hp : p ∈ kvs) : kvs.lookup p.1 = some p.2 := by
  induction kvs with
  | nil => cases hp
  | cons q kvs ih =>
    obtain ⟨hnotMem, hrest⟩ := nodup_cons.mp hnodup
    obtain ⟨k, v⟩ := q
    cases hp with
    | head => exact lookup_cons_self
    | tail _ hp =>
      have hne : (p.1 == k) = false := by
        have hmem : p.1 ∈ kvs.map Prod.fst := List.mem_map_of_mem hp
        exact beq_eq_false_iff_ne.mpr fun heq => hnotMem (heq ▸ hmem)
      rw [lookup_cons, hne]
      exact ih hrest hp

theorem knows_ruleNames (hdistinct : (properties.map Prod.fst).Nodup) :
    Knows (propertyMembers V properties name rules) (otherMember V properties name additional rules)
      (ruleNames V properties name additional rules) := by
  have hnodup : ((propertyMembers V properties name rules).reverse.map Prod.fst).Nodup := by
    rw [map_reverse, nodup_reverse]
    exact (visitProperties_names V name properties rules).symm ▸ hdistinct
  have hlookup := fun p hp => lookup_of_nodup hnodup (p := p) (mem_reverse.mpr hp)
  unfold ruleNames kvRuleName
  cases hother : otherMember V properties name additional rules with
  | none =>
    refine ⟨fun p hp _ => ?_, fun name h => by cases h⟩
    simp [hlookup p hp]
  | some kv =>
    refine ⟨fun p hp hstar => ?_, fun name h => ?_⟩
    · have hne : (p.1 == star) = false := beq_eq_false_iff_ne.mpr fun heq => by cases hstar heq
      simp [lookup_cons, hne, hlookup p hp]
    · cases h
      simp

theorem memberRules_extends :
    (visitProperties V name properties rules).1.Extends (memberRules V properties name additional rules) := by
  unfold memberRules
  split
  · exact (additionalMember_spec V name _ additional _).1
  · exact .refl _

theorem propertyMembers_rules {p : List Char × List Char}
    (hp : p ∈ propertyMembers V properties name rules) :
    IsWord p.2 ∧ ∃ rest, (memberRules V properties name additional rules).find p.2 = some (kvText p.1 rest) := by
  obtain ⟨hword, rest, hfind⟩ := visitProperties_rules V name properties rules hp
  exact ⟨hword, rest, memberRules_extends V name additional rules _ _ hfind⟩

theorem otherMember_rule {kv : List Char} (h : otherMember V properties name additional rules = some kv) :
    IsWord kv ∧ ∃ c rest, (memberRules V properties name additional rules).find kv = some (c :: rest) ∧
      isWordChar c = true := by
  unfold otherMember at h
  unfold memberRules
  split at h
  · next hallowed =>
    rw [if_pos hallowed]
    cases h
    exact (additionalMember_spec V name _ additional _).2
  · cases h

theorem areMembers_build :
    AreMembers (buildObjectRule V properties required name additional rules).1
      (memberNames V properties name additional rules) := by
  have hextends : (memberRules V properties name additional rules).Extends
      (buildObjectRule V properties required name additional rules).1 := by
    rw [buildObjectRule_eq]
    exact alternatives_extends _ _ _
  have hrule : ∀ kv ∈ memberNames V properties name additional rules, IsWord kv ∧
      ∃ c rest, (memberRules V properties name additional rules).find kv = some (c :: rest) ∧ c ≠ '(' ∧ c ≠ '|' := by
    intro kv hkv
    rcases List.mem_append.mp hkv with hkv | hkv
    · obtain ⟨p, hp, rfl⟩ := List.mem_map.mp hkv
      obtain ⟨hword, rest, hfind⟩ := propertyMembers_rules V name additional rules hp
      exact ⟨hword, '"', _, hfind, by decide, by decide⟩
    · obtain ⟨hword, c, rest, hfind, hc⟩ := otherMember_rule V name additional rules (Option.mem_toList.mp hkv)
      refine ⟨hword, c, rest, hfind, ?_, ?_⟩
      · rintro rfl
        cases hc
      · rintro rfl
        cases hc
  refine ⟨fun kv hkv => (hrule kv hkv).1, fun kv hkv => ?_⟩
  obtain ⟨-, c, rest, hfind, hc⟩ := hrule kv hkv
  exact ⟨c, rest, hextends _ _ hfind, hc⟩

theorem ruleNames_mem (hdistinct : (properties.map Prod.fst).Nodup) {k : List Char}
    (hk : k ∈ (propertyMembers V properties name rules).map Prod.fst ∨
      k = star ∧ otherMember V properties name additional rules ≠ none) :
    ruleNames V properties name additional rules k ∈ memberNames V properties name additional rules := by
  have hknows := knows_ruleNames V name additional rules hdistinct
  by_cases hstar : k = star ∧ otherMember V properties name additional rules ≠ none
  · obtain ⟨kv, hkv⟩ := Option.ne_none_iff_exists'.mp hstar.2
    rw [hstar.1, hknows.other kv hkv]
    exact List.mem_append_right _ (Option.mem_toList.mpr hkv)
  · obtain ⟨p, hp, rfl⟩ := List.mem_map.mp (hk.resolve_right hstar)
    rw [hknows.property p hp fun heq => not_not.mp (not_and.mp hstar heq)]
    exact List.mem_append_left _ (List.mem_map_of_mem hp)

/-- What the rule accepts, in every case. -/
theorem memberWords_build (hdistinct : (properties.map Prod.fst).Nodup) :
    memberWords (buildObjectRule V properties required name additional rules).1
        (memberNames V properties name additional rules)
        (buildObjectRule V properties required name additional rules).2 =
      objects (builtSequences (ruleNames V properties name additional rules)
        (((propertyMembers V properties name rules).map Prod.fst).filter (· ∈ required))
        (optionalKeys (propertyMembers V properties name rules) required
          (otherMember V properties name additional rules))) := by
  have hmembers : AreMembers (buildObjectRule V properties required name additional rules).1
      (memberNames V properties name additional rules) := areMembers_build V required name additional rules
  rw [buildObjectRule_eq] at hmembers ⊢
  rw [← lang_eq_objects]
  refine wordsOf_eq fun n hn => denotes_objectRule hmembers name (fun k hk => ?_) (fun k hk => ?_)
    (.refl _) (Nat.lt_of_succ_le hn)
  · exact ruleNames_mem V name additional rules hdistinct (.inl (List.mem_filter.mp hk).1)
  · refine ruleNames_mem V name additional rules hdistinct ?_
    rcases List.mem_append.mp hk with hk | hk
    · exact .inl (List.mem_filter.mp hk).1
    · obtain ⟨kv, hkv, rfl⟩ := List.mem_map.mp hk
      exact .inr ⟨rfl, Option.ne_none_iff_exists'.mpr ⟨kv, Option.mem_toList.mp hkv⟩⟩

/-- A property called `*` has a rule of its own. -/
theorem star_unique {own : List Char} (hown : (star, own) ∈ propertyMembers V properties name rules) :
    (∀ p ∈ propertyMembers V properties name rules, p.2 = own → p.1 = star) ∧
      otherMember V properties name additional rules ≠ some own := by
  obtain ⟨-, rest, hfind⟩ := propertyMembers_rules V name additional rules hown
  constructor
  · rintro p hp rfl
    obtain ⟨-, rest', hfind'⟩ := propertyMembers_rules V name additional rules hp
    exact eq_star_of_kvText (Option.some.inj (hfind'.symm.trans hfind))
  · intro hother
    obtain ⟨-, c, rest', hfind', hc⟩ := otherMember_rule V name additional rules hother
    obtain ⟨rfl, -⟩ := List.cons.inj (Option.some.inj (hfind'.symm.trans hfind))
    cases hc

theorem otherMember_eq_none :
    otherMember V properties name additional rules = none ↔ additional.isAllowed = false := by
  unfold otherMember
  cases additional.isAllowed with
  | false => simp
  | true => simp

theorem not_acceptsAllowed (hdistinct : (properties.map Prod.fst).Nodup)
    (hstar : star ∈ properties.map Prod.fst) (hbad : ¬(star ∈ required ∧ additional.isAllowed = false)) :
    ¬AcceptsAllowed V properties required name additional rules := by
  intro haccepts
  have hnames := visitProperties_names V name properties rules
  rw [← hnames] at hstar
  obtain ⟨⟨-, own⟩, hown, rfl⟩ := List.mem_map.mp hstar
  obtain ⟨hunique, hother⟩ := star_unique V name additional rules hown
  have heq := (memberWords_build V required name additional rules hdistinct).symm.trans haccepts
  refine builtSequences_ne (knows_ruleNames V name additional rules hdistinct) (hnames.symm ▸ hdistinct)
    hown hunique hother (fun h => hbad ⟨h.1, (otherMember_eq_none V name additional rules).mp h.2⟩) ?_
  exact Set.Subset.antisymm (objects_injective heq) (objects_injective heq.symm)

/-- The rule is right unless a property is called `*`, and then only if it is required and no
others are allowed. -/
theorem acceptsAllowed_iff (hdistinct : (properties.map Prod.fst).Nodup) :
    AcceptsAllowed V properties required name additional rules ↔
      (star ∈ properties.map Prod.fst → star ∈ required ∧ additional.isAllowed = false) := by
  constructor
  · intro haccepts hstar
    by_contra hbad
    exact not_acceptsAllowed V required name additional rules hdistinct hstar hbad haccepts
  · intro hgood
    unfold AcceptsAllowed
    dsimp only
    rw [memberWords_build V required name additional rules hdistinct]
    refine congrArg objects (builtSequences_eq (knows_ruleNames V name additional rules hdistinct) fun hstar => ?_)
    have hnames : (propertyMembers V properties name rules).map Prod.fst = properties.map Prod.fst :=
      visitProperties_names V name properties rules
    obtain ⟨hrequired, hnone⟩ := hgood (hnames ▸ hstar)
    exact ⟨hrequired, (otherMember_eq_none V name additional rules).mpr hnone⟩

end Build

/-- The rules of a converter that has just been made. -/
def initialRules : Rules := ⟨[("space".toList, spaceRule)], rfl⟩

def stringVisitor : Visitor Unit where
  visit _ _ rules := addPrimitive "string".toList (primitiveRule "string".toList) rules
  keeps _ _ rules := addPrimitive_extends _ _ rules

theorem acceptsAllowed_two :
    AcceptsAllowed stringVisitor [("a".toList, ()), ("b".toList, ())] ["a".toList] [] (.boolean true)
      initialRules :=
  (acceptsAllowed_iff stringVisitor _ [] _ initialRules (by simp)).mpr (by simp [star])

theorem star_repeats :
    ¬AcceptsAllowed stringVisitor [("*".toList, ())] [] [] .absent initialRules :=
  not_acceptsAllowed stringVisitor _ [] _ initialRules (by simp) (by simp [star]) (by simp)

end LlamaCpp.Schema
