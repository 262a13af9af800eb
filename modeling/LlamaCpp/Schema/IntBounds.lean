import LlamaCpp.Schema.IntRanges

/-!
# A single bound

The text for the integers from a bound on: what is built, what it accepts, and which repetitions
stand in it.  It is right for a bound whose digits between the first and the last one are all at
least two.
-/

namespace LlamaCpp.MinMaxInt

open RuleText Decimal List Language

variable {env : List Char → Language Char} {text rest t w : List Char} {d n decimalsLeft : Nat}
  {c e : Char} {L M : Language Char} {topLevel : Bool} {m : Nat} {a : Char}

/-! ## Repetitions of a text -/

/-- What stands between braces; `inside` are the characters since an open one. -/
def braces : Option (List Char) → List Char → List (List Char)
  | _, [] => []
  | none, c :: cs => if c = '{' then braces (some []) cs else braces none cs
  | some inside, c :: cs =>
    if c = '}' then inside :: braces none cs else braces (some (inside ++ [c])) cs

def InOrder (inside : List Char) : Prop :=
  ∀ a b, inside = Nat.toDigits 10 a ++ ',' :: Nat.toDigits 10 b → a ≤ b

/-- Every repetition `{a,b}` of the text has `a ≤ b`. -/
def RepeatsOrdered (text : List Char) : Prop := ∀ inside ∈ braces none text, InOrder inside

example : braces none "[0] [0-9]{3} [1-9]{0,15}".toList = ["3".toList, "0,15".toList] := by decide +kernel

/-- The braces of a text, whatever follows. -/
def Braces (text : List Char) (insides : List (List Char)) : Prop :=
  ∀ rest, braces none (text ++ rest) = insides ++ braces none rest

theorem Braces.append {a b : List Char} {as bs : List (List Char)} (ha : Braces a as) (hb : Braces b bs) :
    Braces (a ++ b) (as ++ bs) := by
  intro rest
  rw [append_assoc, ha, hb, append_assoc]

theorem braces_plain (h : ∀ c ∈ text, c ≠ '{') : Braces text [] := by
  intro rest
  induction text with
  | nil => rfl
  | cons c text ih =>
    rw [List.cons_append, braces, if_neg (h c List.mem_cons_self)]
    exact ih fun d hd => h d (List.mem_cons_of_mem c hd)

theorem braces_inside {inside : List Char} (h : ∀ c ∈ inside, c ≠ '}') :
    Braces ('{' :: inside ++ ['}']) [inside] := by
  intro rest
  have hgo : ∀ before, braces (some before) (inside ++ '}' :: rest) = (before ++ inside) :: braces none rest := by
    induction inside with
    | nil =>
      intro before
      rw [List.nil_append, braces, if_pos rfl, List.append_nil]
    | cons c inside ih =>
      intro before
      rw [List.cons_append, braces, if_neg (h c List.mem_cons_self), ih fun d hd => h d (List.mem_cons_of_mem c hd)]
      simp
  have happend : '{' :: inside ++ ['}'] ++ rest = '{' :: (inside ++ '}' :: rest) := by simp
  rw [happend, braces, if_pos rfl, hgo]
  rfl

/-- The braces of a text are known, and `P` holds of what is in them. -/
def Scanned (P : List Char → Prop) (text : List Char) : Prop :=
  ∃ insides, Braces text insides ∧ ∀ inside ∈ insides, P inside

section Scanned

variable {P : List Char → Prop}

theorem Scanned.append {a b : List Char} (ha : Scanned P a) (hb : Scanned P b) : Scanned P (a ++ b) := by
  obtain ⟨as, has, hfine⟩ := ha
  obtain ⟨bs, hbs, hfine'⟩ := hb
  exact ⟨as ++ bs, has.append hbs, fun inside h => (List.mem_append.mp h).elim (hfine inside) (hfine' inside)⟩

theorem scanned_plain (h : ∀ c ∈ text, c ≠ '{') : Scanned P text :=
  ⟨[], braces_plain h, by simp⟩

theorem Scanned.ordered (h : Scanned InOrder text) : RepeatsOrdered text := by
  obtain ⟨insides, hinsides, hfine⟩ := h
  have hall := hinsides []
  rw [append_nil, braces, append_nil] at hall
  exact fun inside hinside => hfine inside (hall ▸ hinside)

end Scanned

theorem comma_notMem_toDigits (n : Nat) : ',' ∉ Nat.toDigits 10 n := fun h =>
  digit_ne (Nat.isDigit_of_mem_toDigits (by decide) (by decide) h) rfl rfl

/-- Two numbers between braces. -/
theorem comma_inj {a b c : Nat}
    (h : Nat.toDigits 10 a ++ ',' :: Nat.toDigits 10 b = Nat.toDigits 10 c ++ ',' :: Nat.toDigits 10 d) :
    a = c ∧ b = d := by
  obtain ⟨hfirst, -, hsecond⟩ :=
    (append_cons_inj_of_notMem (comma_notMem_toDigits a) (comma_notMem_toDigits b)).mp h
  refine ⟨?_, ?_⟩
  · rw [← value_toDigits a, hfirst, value_toDigits]
  · rw [← value_toDigits b, hsecond, value_toDigits]

/-- The characters between the braces of `more_digits`. -/
def moreInside (m n : Nat) : List Char :=
  Nat.toDigits 10 m ++ if n ≠ m then ',' :: Nat.toDigits 10 n else []

theorem braces_moreDigits (hn : n ≠ intMax) :
    Braces (moreDigits m n) (if m = n ∧ m = 1 then [] else [moreInside m n]) := by
  have hdigit : Braces "[0-9]".toList [] := braces_plain (by simp)
  unfold moreDigits
  by_cases hone : m = n ∧ m = 1
  · rw [if_pos hone, if_pos hone]
    exact hdigit.append (braces_plain (by simp))
  · rw [if_neg hone, if_neg hone, if_pos hn]
    refine hdigit.append ?_
    have hmem : ∀ c ∈ moreInside m n, c ≠ '}' := by
      intro c hc
      rcases List.mem_append.mp hc with hc | hc
      · exact ne_of_mem_toDigits rfl hc
      · split at hc
        · rcases mem_cons.mp hc with rfl | hc
          · decide
          · exact ne_of_mem_toDigits rfl hc
        · cases hc
    have hinside := braces_inside hmem
    simpa [moreInside] using hinside

theorem scanned_moreDigits {P : List Char → Prop} (hn : n ≠ intMax) (hP : P (moreInside m n)) :
    Scanned P (moreDigits m n) := by
  refine ⟨_, braces_moreDigits hn, fun inside hinside => ?_⟩
  split at hinside
  · cases hinside
  · rwa [mem_singleton.mp hinside]

theorem inOrder_moreInside (hle : m ≤ n) : InOrder (moreInside m n) := by
  intro a b heq
  unfold moreInside at heq
  split at heq
  · obtain ⟨rfl, rfl⟩ := comma_inj heq
    exact hle
  · rw [append_nil] at heq
    exact absurd (heq ▸ mem_append_right _ mem_cons_self) (comma_notMem_toDigits m)

/-- Somewhere in the text stands a repetition with its bounds in the wrong order. -/
def HasDisorder (text : List Char) : Prop :=
  ∃ before m n after, text = before ++ (moreDigits m n ++ after) ∧ n ≠ intMax ∧ n < m ∧
    Scanned (fun _ => True) before

theorem HasDisorder.not_ordered (h : HasDisorder text) : ¬RepeatsOrdered text := by
  obtain ⟨before, m, n, after, rfl, hn, hless, insides, hbefore, -⟩ := h
  intro hordered
  have hmore : Braces (moreDigits m n) [moreInside m n] := by
    have hbraces := braces_moreDigits (m := m) hn
    rwa [if_neg fun h => hless.ne h.1.symm] at hbraces
  have hall : braces none (before ++ (moreDigits m n ++ after)) =
      insides ++ ([moreInside m n] ++ braces none after) := by rw [hbefore, hmore]
  have hinside : moreInside m n = Nat.toDigits 10 m ++ ',' :: Nat.toDigits 10 n := by
    rw [moreInside, if_pos hless.ne]
  refine hless.not_ge (hordered (moreInside m n) ?_ m n hinside)
  rw [hall]
  exact mem_append_right _ mem_cons_self

theorem HasDisorder.within (h : HasDisorder text) {front : List Char}
    (hfront : Scanned (fun _ => True) front) (back : List Char) :
    HasDisorder (front ++ text ++ back) := by
  obtain ⟨before, m, n, after, rfl, hn, hless, hbefore⟩ := h
  exact ⟨front ++ before, m, n, after ++ back, by simp, hn, hless, hfront.append hbefore⟩

/-! ## The text for a lower bound -/

/-- The first digit may be a zero inside. -/
def lowest (topLevel : Bool) : Char := if topLevel then '1' else '0'

def zeroText (decimalsLeft : Nat) (topLevel : Bool) : List Char :=
  if topLevel then "[0] | [1-9] ".toList ++ moreDigits 0 (max (decimalsLeft - 1) 1)
  else moreDigits 1 decimalsLeft

def digitText (c : Char) (decimalsLeft : Nat) (topLevel : Bool) : List Char :=
  (if lowest topLevel < c then
      digitRange (lowest topLevel) (prevChar c) ++ ' ' :: moreDigits 1 (max (decimalsLeft - 1) 1) ++
        " | ".toList
    else []) ++ digitRange c '9' ++ ' ' :: moreDigits 0 (max (decimalsLeft - 1) 1)

def consText (c : Char) (more decimalsLeft : Nat) (topLevel : Bool) (inner : List Char) : List Char :=
  (if '1' < c then
      digitRange (lowest topLevel) (prevChar c) ++
        ' ' :: moreDigits (more + 1) (max (decimalsLeft - 1) 1) ++ " | ".toList
    else []) ++ digitRange c c ++ " (".toList ++ inner ++ ")".toList ++
    if c < '9' then
      " | ".toList ++ digitRange (nextChar c) '9' ++ ' ' :: moreDigits more (max (decimalsLeft - 1) 1)
    else []

def zeroLang (decimalsLeft : Nat) (topLevel : Bool) : Language Char :=
  if topLevel then {['0']} + span '1' '9' * someDigits 0 (max (decimalsLeft - 1) 1)
  else someDigits 1 decimalsLeft

def digitLang (c : Char) (decimalsLeft : Nat) (topLevel : Bool) : Language Char :=
  (if lowest topLevel < c then
      span (lowest topLevel) (prevChar c) * someDigits 1 (max (decimalsLeft - 1) 1)
    else 0) + span c '9' * someDigits 0 (max (decimalsLeft - 1) 1)

/-- What the text for more digits accepts. -/
def consLang (c : Char) (more decimalsLeft : Nat) (topLevel : Bool) (inner : Language Char) : Language Char :=
  (if '1' < c then
      span (lowest topLevel) (prevChar c) * someDigits (more + 1) (max (decimalsLeft - 1) 1)
    else 0) + {[c]} * inner +
    if c < '9' then span (nextChar c) '9' * someDigits more (max (decimalsLeft - 1) 1) else 0

/-- The text for a lower bound and what it accepts. -/
inductive AtLeast : Nat → Nat → Bool → List Char → Language Char → Prop
  | zero (decimalsLeft : Nat) (topLevel : Bool) :
      AtLeast 0 decimalsLeft topLevel (zeroText decimalsLeft topLevel) (zeroLang decimalsLeft topLevel)
  | digit {c : Char} (hc : c.isDigit = true) (hpos : '0' < c) (decimalsLeft : Nat) (topLevel : Bool) :
      AtLeast (value [c]) decimalsLeft topLevel (digitText c decimalsLeft topLevel)
        (digitLang c decimalsLeft topLevel)
  | cons {c : Char} {rest : List Char} (hcanonical : Canonical (c :: rest)) (hrest : rest ≠ [])
      {decimalsLeft : Nat} (topLevel : Bool) {inner : List Char} {L : Language Char}
      (h : AtLeast (value rest) (max (decimalsLeft - 1) 1) false inner L) :
      AtLeast (value (c :: rest)) decimalsLeft topLevel (consText c rest.length decimalsLeft topLevel inner)
        (consLang c rest.length decimalsLeft topLevel L)

theorem int64Max_pos : (0 : Int) < int64Max := by decide

theorem ne_int64Min {n : Int} (h : 0 ≤ n) : n ≠ int64Min := by
  unfold int64Min
  omega

theorem build_zero (decimalsLeft : Nat) (topLevel : Bool) :
    buildMinMaxInt 0 int64Max decimalsLeft topLevel = some (zeroText decimalsLeft topLevel) := by
  rw [buildMinMaxInt]
  rw [if_neg fun h => h.2 rfl, if_pos (ne_int64Min le_rfl), if_neg (lt_irrefl 0), if_pos rfl]
  rfl

theorem build_digit (hc : c.isDigit = true) (hpos : '0' < c) (decimalsLeft : Nat) (topLevel : Bool) :
    buildMinMaxInt (value [c]) int64Max decimalsLeft topLevel = some (digitText c decimalsLeft topLevel) := by
  have hdigit := isDigit_iff.mp hc
  have hpos : 48 < c.toNat := char_lt_iff.mp hpos
  have hvalue : value [c] = c.toNat - 48 := by
    rw [value_cons]
    simp [value]
  have hchar : Char.ofNat ('0'.toNat + ((value [c] : Nat) : Int).toNat) = c := by
    refine Char.toNat_inj.mp ?_
    have hzero : '0'.toNat = 48 := rfl
    rw [Int.toNat_natCast, hvalue, hzero, toNat_ofNat_digit (by omega)]
    omega
  have hnonneg : (0 : Int) ≤ (value [c] : Nat) := Int.natCast_nonneg _
  rw [buildMinMaxInt]
  simp only [hchar]
  rw [if_neg fun h => h.2 rfl, if_pos (ne_int64Min hnonneg), if_neg hnonneg.not_gt, if_neg (by omega),
    if_pos (by omega)]
  rfl

theorem build_cons (hcanonical : Canonical (c :: rest)) (hrest : rest ≠ []) (decimalsLeft : Nat)
    (topLevel : Bool) : buildMinMaxInt (value (c :: rest)) int64Max decimalsLeft topLevel =
      (buildMinMaxInt (value rest) int64Max (max (decimalsLeft - 1) 1) false).map
        (consText c rest.length decimalsLeft topLevel) := by
  have hlarge := ten_le_value hcanonical hrest
  have hnonneg : (0 : Int) ≤ (value (c :: rest) : Nat) := Int.natCast_nonneg _
  rw [buildMinMaxInt]
  rw [if_neg fun h => h.2 rfl, if_pos (ne_int64Min hnonneg), if_neg hnonneg.not_gt, if_neg (by omega),
    if_neg (by omega)]
  split
  · next h =>
    exact absurd h Nat.toDigits_ne_nil
  · next d more h =>
    rw [Int.toNat_natCast, toDigits_value hcanonical] at h
    obtain ⟨rfl, rfl⟩ := List.cons.inj h
    rfl

/-- There is a text for every lower bound, by induction on the bound. -/
theorem exists_atLeast (n decimalsLeft : Nat) (topLevel : Bool) :
    ∃ text L, buildMinMaxInt n int64Max decimalsLeft topLevel = some text ∧
      AtLeast n decimalsLeft topLevel text L := by
  induction n using Nat.strongRecOn generalizing decimalsLeft topLevel with
  | _ n ih =>
    have hcanonical := canonical_toDigits n
    have hvalue := value_toDigits n
    cases hdigits : Nat.toDigits 10 n with
    | nil => exact absurd hdigits Nat.toDigits_ne_nil
    | cons c rest =>
      rw [hdigits] at hcanonical hvalue
      obtain ⟨hc, -⟩ := allDigits_cons.mp hcanonical.digits
      subst hvalue
      by_cases hrest : rest = []
      · subst hrest
        by_cases hzero : c = '0'
        · subst hzero
          exact ⟨_, _, build_zero decimalsLeft topLevel, .zero decimalsLeft topLevel⟩
        · have hpos : '0' < c :=
            lt_of_le_of_ne (char_le_iff.mpr (isDigit_iff.mp hc).1) (Ne.symm hzero)
          exact ⟨_, _, build_digit hc hpos decimalsLeft topLevel, .digit hc hpos decimalsLeft topLevel⟩
      · have hlarge := ten_le_value hcanonical hrest
        obtain ⟨inner, L, hbuild, hatLeast⟩ :=
          ih _ (value_tail_lt hlarge hdigits) (max (decimalsLeft - 1) 1) false
        refine ⟨_, _, ?_, .cons hcanonical hrest topLevel hatLeast⟩
        rw [build_cons hcanonical hrest, hbuild]
        rfl

/-! ## What the text accepts -/

theorem isDigit_lowest (topLevel : Bool) : (lowest topLevel).isDigit = true := by
  cases topLevel with
  | true => rfl
  | false => rfl

theorem lowest_le_one (topLevel : Bool) : lowest topLevel ≤ '1' := by
  cases topLevel with
  | true => decide
  | false => decide

theorem less_ne (hd : decimalsLeft ≤ 16) : max (decimalsLeft - 1) 1 ≠ intMax := by
  unfold intMax
  omega

theorem zero_lt_of_one_lt (h : '1' < c) : '0' < c := lt_trans (by decide) h

/-- A first digit and more of them. -/
theorem altsText_digits {b : Char} (ha : a.isDigit = true) (hb : b.isDigit = true) (m : Nat)
    (hn : n ≠ intMax) :
    AltsText id env (digitRange a b ++ ' ' :: moreDigits m n) (span a b * someDigits m n) :=
  ((itemText_digitRange ha hb).seq.then (itemText_moreDigits m hn).seq).alts

theorem isDigit_one : '1'.isDigit = true := rfl

theorem isDigit_nine : '9'.isDigit = true := rfl

theorem altsText_atLeast (h : AtLeast n decimalsLeft topLevel text L) (hd : decimalsLeft ≤ 16) :
    AltsText id env text L := by
  induction h with
  | zero decimalsLeft topLevel =>
    unfold zeroText zeroLang
    split
    · have hzero : AltsText id env ['[', '0', ']'] {['0']} := (itemText_one rfl).seq.alts
      have hmore : AltsText id env ("[1-9]".toList ++ ' ' :: moreDigits 0 (max (decimalsLeft - 1) 1))
          (span '1' '9' * someDigits 0 (max (decimalsLeft - 1) 1)) :=
        altsText_digits isDigit_one isDigit_nine 0 (less_ne hd)
      simpa using altsText_bar hzero hmore
    · exact (itemText_moreDigits 1 (by unfold intMax; omega)).seq.alts
  | @digit c hc hpos decimalsLeft topLevel =>
    have hlast : AltsText id env _ _ := altsText_digits hc isDigit_nine 0 (less_ne hd)
    unfold digitText digitLang
    split
    · have hfirst : AltsText id env _ _ :=
        altsText_digits (isDigit_lowest topLevel) (isDigit_prevChar hc hpos) 1 (less_ne hd)
      simpa using altsText_bar hfirst hlast
    · rw [zero_add]
      exact hlast
  | @cons c rest hcanonical hrest decimalsLeft topLevel inner L h ih =>
    obtain ⟨hc, -⟩ := allDigits_cons.mp hcanonical.digits
    have hinner := ih (by omega)
    have hmiddle : AltsText id env (digitRange c c ++ " (".toList ++ inner ++ ")".toList) ({[c]} * L) := by
      have hone : digitRange c c = ['[', c, ']'] := if_pos rfl
      have hthen := (itemText_one hc).seq.then hinner.group.seq
      rw [hone]
      simpa using hthen.alts
    have hlast : ∀ {before : List Char} {M : Language Char}, AltsText id env before M →
        AltsText id env
          (before ++ if c < '9' then
              " | ".toList ++ digitRange (nextChar c) '9' ++ ' ' :: moreDigits rest.length (max (decimalsLeft - 1) 1)
            else [])
          (M + if c < '9' then span (nextChar c) '9' * someDigits rest.length (max (decimalsLeft - 1) 1)
            else 0) := by
      intro before M hbefore
      split
      · next hnine =>
        have hrange : AltsText id env _ _ :=
          altsText_digits (isDigit_nextChar hc hnine) isDigit_nine rest.length (less_ne hd)
        simpa using altsText_bar hbefore hrange
      · rw [append_nil, add_zero]
        exact hbefore
    unfold consText consLang
    refine hlast ?_
    split
    · next hone =>
      have hfirst : AltsText id env _ _ := altsText_digits (isDigit_lowest topLevel)
        (isDigit_prevChar hc (zero_lt_of_one_lt hone)) (rest.length + 1) (less_ne hd)
      simpa using altsText_bar hfirst hmiddle
    · rw [nil_append, zero_add]
      exact hmiddle

/-- The digits behind the first one of a bound, with `d` digits left: they are at least two while
longer numbers are left, ones when none are; the last digit is free. -/
def GoodFrom : Nat → List Char → Prop
  | _, [] => False
  | _, [_] => True
  | d, c :: rest =>
    ('2' ≤ c ∧ rest.length + 1 < d ∨ c = '1' ∧ rest.length + 1 = d) ∧ GoodFrom (d - 1) rest

theorem cons_mem_span {b : Char} : e :: t ∈ span a b * M ↔ a ≤ e ∧ e ≤ b ∧ t ∈ M := by
  rw [mem_span_mul]
  constructor
  · rintro ⟨c, hac, hcb, t, ht, heq⟩
    obtain ⟨rfl, rfl⟩ := List.cons.inj heq
    exact ⟨hac, hcb, ht⟩
  · rintro ⟨hac, hcb, ht⟩
    exact ⟨e, hac, hcb, t, ht, rfl⟩

theorem cons_mem_one : e :: t ∈ {[a]} * M ↔ e = a ∧ t ∈ M := by
  rw [mem_one_mul]
  constructor
  · rintro ⟨t, ht, heq⟩
    obtain ⟨rfl, rfl⟩ := List.cons.inj heq
    exact ⟨rfl, ht⟩
  · rintro ⟨rfl, ht⟩
    exact ⟨t, ht, rfl⟩

theorem mem_consLang {more : Nat} (hc : c.isDigit = true) :
    e :: t ∈ consLang c more decimalsLeft topLevel L ↔
      '1' < c ∧ lowest topLevel ≤ e ∧ e < c ∧ t ∈ someDigits (more + 1) (max (decimalsLeft - 1) 1) ∨
        e = c ∧ t ∈ L ∨
        c < e ∧ e ≤ '9' ∧ t ∈ someDigits more (max (decimalsLeft - 1) 1) := by
  unfold consLang
  rw [Language.mem_add, Language.mem_add, cons_mem_one, or_assoc]
  refine or_congr ?_ (or_congr Iff.rfl ?_)
  · split
    · next hone =>
      rw [cons_mem_span, le_prevChar hc (zero_lt_of_one_lt hone)]
      exact ⟨fun h => ⟨hone, h⟩, fun h => h.2⟩
    · next hone => exact ⟨fun h => absurd h (notMem_zero _), fun h => absurd h.1 hone⟩
  · split
    · rw [cons_mem_span, nextChar_le hc]
    · next hnine =>
      exact ⟨fun h => absurd h (notMem_zero _), fun h => absurd (h.1.trans_le h.2.1) hnine⟩

theorem nil_notMem_span {b : Char} : [] ∉ span a b * M := by
  intro h
  obtain ⟨c, -, -, t, -, heq⟩ := mem_span_mul.mp h
  cases heq

theorem AtLeast.nil_notMem (h : AtLeast n d topLevel text L) : [] ∉ L := by
  intro hmem
  cases h with
  | zero =>
    unfold zeroLang at hmem
    split at hmem
    · rcases hmem with hmem | hmem
      · cases hmem
      · exact nil_notMem_span hmem
    · exact absurd hmem.2.1 (by decide)
  | digit hc hpos =>
    unfold digitLang at hmem
    rcases hmem with hmem | hmem
    · split at hmem
      · exact nil_notMem_span hmem
      · exact notMem_zero _ hmem
    · exact nil_notMem_span hmem
  | cons hcanonical hrest topLevel h =>
    unfold consLang at hmem
    rcases hmem with (hmem | hmem) | hmem
    · split at hmem
      · exact nil_notMem_span hmem
      · exact notMem_zero _ hmem
    · obtain ⟨t, -, heq⟩ := mem_one_mul.mp hmem
      cases heq
    · split at hmem
      · exact nil_notMem_span hmem
      · exact notMem_zero _ hmem

theorem below_cons :
    Below (c :: w) (e :: t) ↔ w.length < t.length ∨ w.length = t.length ∧ (c < e ∨ c = e ∧ w ≤ t) := by
  unfold Below
  rw [length_cons, length_cons, cons_le_cons_iff]
  simp

theorem value_single (hc : c.isDigit = true) : value [c] < 10 :=
  value_lt (allDigits_cons.mpr ⟨hc, by simp [AllDigits]⟩)

theorem canonical_single (hc : c.isDigit = true) : Canonical [c] :=
  ⟨allDigits_cons.mpr ⟨hc, by simp [AllDigits]⟩, cons_ne_nil _ _, fun _ => rfl⟩

theorem value_zero : value ['0'] = 0 := rfl

theorem canonical_of_pos (h : AllDigits (c :: rest)) (hpos : '0' < c) : Canonical (c :: rest) :=
  ⟨h, cons_ne_nil _ _, fun hhead => absurd (Option.some.inj hhead) hpos.ne'⟩

theorem AtLeast.zero_inv (h : AtLeast n d topLevel text L) (hn : n = 0) :
    text = zeroText d topLevel ∧ L = zeroLang d topLevel := by
  cases h with
  | zero => exact ⟨rfl, rfl⟩
  | digit hc hpos =>
    rw [← value_zero] at hn
    have heq := value_injective (canonical_single hc) (canonical_single rfl) hn
    exact absurd (List.cons.inj heq).1 hpos.ne'
  | cons hcanonical hrest => exact absurd (hn ▸ ten_le_value hcanonical hrest) (by decide)

theorem AtLeast.digit_inv (h : AtLeast n d topLevel text L) (hc : c.isDigit = true) (hpos : '0' < c)
    (hn : n = value [c]) : text = digitText c d topLevel ∧ L = digitLang c d topLevel := by
  cases h with
  | zero =>
    rw [← value_zero] at hn
    have heq := value_injective (canonical_single hc) (canonical_single rfl) hn.symm
    exact absurd (List.cons.inj heq).1 hpos.ne'
  | digit hc' hpos' =>
    have heq := value_injective (canonical_single hc') (canonical_single hc) hn
    obtain ⟨rfl, -⟩ := List.cons.inj heq
    exact ⟨rfl, rfl⟩
  | cons hcanonical hrest =>
    have hlarge := ten_le_value hcanonical hrest
    have hsmall := value_single hc
    omega

theorem AtLeast.cons_inv (h : AtLeast n d topLevel text L) (hcanonical : Canonical (c :: rest))
    (hrest : rest ≠ []) (hn : n = value (c :: rest)) :
    ∃ inner M, AtLeast (value rest) (max (d - 1) 1) false inner M ∧
      text = consText c rest.length d topLevel inner ∧ L = consLang c rest.length d topLevel M := by
  have hlarge := ten_le_value hcanonical hrest
  cases h with
  | zero => omega
  | digit hc hpos =>
    have hsmall := value_single hc
    omega
  | cons hcanonical' hrest' topLevel h =>
    have heq := value_injective hcanonical' hcanonical hn
    obtain ⟨rfl, rfl⟩ := List.cons.inj heq
    exact ⟨_, _, h, rfl, rfl⟩

theorem le_nine (hc : c.isDigit = true) : c ≤ '9' := char_le_iff.mpr (isDigit_iff.mp hc).2

theorem zero_le (hc : c.isDigit = true) : '0' ≤ c := char_le_iff.mpr (isDigit_iff.mp hc).1

theorem mem_digitLang {x : Char} (hx : x.isDigit = true) (hpos : '0' < x) (ht : AllDigits (e :: t))
    (hlen : t.length ≤ max (d - 1) 1) (hlow : t ≠ [] → lowest topLevel ≤ e) :
    e :: t ∈ digitLang x d topLevel ↔ Below [x] (e :: t) := by
  obtain ⟨he, ht⟩ := allDigits_cons.mp ht
  unfold digitLang
  rw [Language.mem_add, cons_mem_span, below_cons]
  rcases lt_or_ge e x with hlt | hge
  · constructor
    · rintro (hfirst | ⟨hge, -⟩)
      · split at hfirst
        · rw [cons_mem_span] at hfirst
          exact .inl hfirst.2.2.2.1
        · exact absurd hfirst (notMem_zero _)
      · exact absurd hge hlt.not_ge
    · rintro (hmore | ⟨-, hle | ⟨rfl, -⟩⟩)
      · have hlow := hlow (ne_nil_of_length_pos hmore)
        rw [if_pos (hlow.trans_lt hlt), cons_mem_span, le_prevChar hx hpos]
        exact .inl ⟨hlow, hlt, ht, hmore, hlen⟩
      · exact absurd hle hlt.not_gt
      · exact absurd hlt (lt_irrefl _)
  · constructor
    · intro
      rcases Nat.eq_zero_or_pos t.length with hnil | hmore
      · exact .inr ⟨hnil.symm, hge.lt_or_eq.imp_right fun h =>
        ⟨h, (eq_nil_of_length_eq_zero hnil).ge⟩⟩
      · exact .inl hmore
    · intro
      exact .inr ⟨hge, le_nine he, ht, Nat.zero_le _, hlen⟩

theorem mem_consLang_iff (hc : c.isDigit = true) (ht : AllDigits (e :: t))
    (hlen : t.length ≤ max (d - 1) 1) (hlow : t ≠ [] → lowest topLevel ≤ e)
    (hone : ¬ '1' < c → e < c → t.length ≤ rest.length) (hinner : t ∈ L ↔ Below rest t) :
    e :: t ∈ consLang c rest.length d topLevel L ↔ Below (c :: rest) (e :: t) := by
  obtain ⟨he, ht⟩ := allDigits_cons.mp ht
  rw [mem_consLang hc, below_cons]
  rcases lt_trichotomy e c with hlt | rfl | hgt
  · constructor
    · rintro (⟨-, -, -, hmore⟩ | ⟨rfl, -⟩ | ⟨hgt, -⟩)
      · exact .inl hmore.2.1
      · exact absurd hlt (lt_irrefl _)
      · exact absurd hgt hlt.not_gt
    · rintro (hmore | ⟨-, hgt | ⟨rfl, -⟩⟩)
      · by_cases hcone : '1' < c
        · exact .inl ⟨hcone, hlow (ne_nil_of_length_pos (Nat.zero_lt_of_lt hmore)), hlt, ht, hmore, hlen⟩
        · exact absurd hmore (hone hcone hlt).not_gt
      · exact absurd hgt hlt.not_gt
      · exact absurd hlt (lt_irrefl _)
  · constructor
    · rintro (⟨-, -, hlt, -⟩ | ⟨-, hmem⟩ | ⟨hgt, -⟩)
      · exact absurd hlt (lt_irrefl _)
      · exact (hinner.mp hmem).imp_right fun h => ⟨h.1, .inr ⟨rfl, h.2⟩⟩
      · exact absurd hgt (lt_irrefl _)
    · intro h
      refine .inr (.inl ⟨rfl, hinner.mpr (h.imp_right fun h => ⟨h.1, ?_⟩)⟩)
      exact (h.2.resolve_left (lt_irrefl _)).2
  · constructor
    · rintro (⟨-, -, hlt, -⟩ | ⟨rfl, -⟩ | ⟨-, -, hmore⟩)
      · exact absurd hlt hgt.not_gt
      · exact absurd hgt (lt_irrefl _)
      · exact hmore.2.1.lt_or_eq.imp_right fun h => ⟨h, .inl hgt⟩
    · intro h
      exact .inr (.inr ⟨hgt, le_nine he, ht, h.elim le_of_lt fun h => h.1.le, hlen⟩)

theorem cons_mem_consLang {more : Nat} (hc : c.isDigit = true) : c :: t ∈ consLang c more d topLevel L ↔ t ∈ L := by
  rw [mem_consLang hc]
  simp

theorem below_cons_self : Below (c :: w) (c :: t) ↔ Below w t := by
  rw [below_cons]
  simp [Below]

/-- Behind the first digit, the text accepts the digit strings from the bound on; by induction on
the digits of the bound. -/
theorem mem_atLeast (hgood : GoodFrom d w) (hw : AllDigits w) (hd : w.length ≤ d)
    (h : AtLeast (value w) d false text L) (ht : AllDigits t) (hlen : t.length ≤ d) :
    t ∈ L ↔ Below w t := by
  induction w generalizing d text L t with
  | nil => exact hgood.elim
  | cons c rest ih =>
    obtain ⟨hc, hrestDigits⟩ := allDigits_cons.mp hw
    cases t with
    | nil =>
      constructor
      · exact fun hmem => absurd hmem h.nil_notMem
      · exact fun hbelow => absurd hbelow.length_le (by simp)
    | cons e t =>
      obtain ⟨he, htDigits⟩ := allDigits_cons.mp ht
      have hlen : t.length + 1 ≤ d := hlen
      cases rest with
      | nil =>
        by_cases hzero : c = '0'
        · subst hzero
          obtain ⟨-, rfl⟩ := h.zero_inv value_zero
          rw [below_cons]
          constructor
          · intro
            rcases Nat.eq_zero_or_pos t.length with hnil | hmore
            · exact .inr ⟨hnil.symm, (zero_le he).lt_or_eq.imp_right fun h =>
                ⟨h, (eq_nil_of_length_eq_zero hnil).ge⟩⟩
            · exact .inl hmore
          · exact fun _ => ⟨ht, Nat.succ_le_succ (Nat.zero_le _), hlen⟩
        · have hpos : '0' < c := lt_of_le_of_ne (zero_le hc) (Ne.symm hzero)
          obtain ⟨-, rfl⟩ := h.digit_inv hc hpos rfl
          exact mem_digitLang hc hpos ht (by omega) fun _ => zero_le he
      | cons y w =>
        obtain ⟨hstep, hgood⟩ := hgood
        have hd : w.length + 1 + 1 ≤ d := hd
        have hless : max (d - 1) 1 = d - 1 := by omega
        have hpos : '0' < c := by
          rcases hstep with ⟨htwo, -⟩ | ⟨rfl, -⟩
          · exact lt_of_lt_of_le (by decide) htwo
          · decide
        obtain ⟨inner, M, hinner, -, rfl⟩ :=
          h.cons_inv (canonical_of_pos hw hpos) (cons_ne_nil y w) rfl
        rw [hless] at hinner
        refine mem_consLang_iff hc ht (by omega) (fun _ => zero_le he) (fun hone _ => ?_)
          (ih hgood hrestDigits (by simp only [length_cons]; omega) hinner htDigits (by omega))
        rcases hstep with ⟨htwo, -⟩ | ⟨-, heq⟩
        · exact absurd (lt_of_lt_of_le (by decide) htwo) hone
        · simp only [length_cons] at heq ⊢
          omega

/-! ## The repetitions of the text -/

section Scanned

variable {P : List Char → Prop} {d : Nat} {topLevel : Bool} {c : Char}

theorem scanned_digitRange {a b : Char} (ha : a.isDigit = true) (hb : b.isDigit = true) :
    Scanned P (digitRange a b) := by
  refine scanned_plain fun c hc => ?_
  have hdigits : c = '[' ∨ c = ']' ∨ c = '-' ∨ c = a ∨ c = b := by
    unfold digitRange at hc
    split at hc
    · simp only [mem_cons, not_mem_nil, or_false] at hc
      tauto
    · simp only [mem_cons, not_mem_nil, or_false] at hc
      tauto
  rcases hdigits with rfl | rfl | rfl | rfl | rfl
  · decide
  · decide
  · decide
  · exact digit_ne ha rfl
  · exact digit_ne hb rfl

theorem scanned_digits {a b : Char} (ha : a.isDigit = true) (hb : b.isDigit = true) {m n : Nat}
    (hn : n ≠ intMax) (hP : P (moreInside m n)) : Scanned P (digitRange a b ++ ' ' :: moreDigits m n) := by
  have hblank : Scanned P [' '] := scanned_plain (by simp)
  exact (scanned_digitRange ha hb).append (hblank.append (scanned_moreDigits hn hP))

theorem scanned_bar : Scanned P " | ".toList := scanned_plain (by simp)

theorem scanned_zeroText (hd : d ≤ 16) (htop : topLevel = true → P (moreInside 0 (max (d - 1) 1)))
    (hinside : topLevel = false → P (moreInside 1 d)) : Scanned P (zeroText d topLevel) := by
  unfold zeroText
  split
  · next h => exact (scanned_plain (by simp)).append (scanned_moreDigits (less_ne hd) (htop h))
  · next h => exact scanned_moreDigits (by unfold intMax; omega) (hinside (by simpa using h))

theorem scanned_digitText (hc : c.isDigit = true) (hpos : '0' < c) (hd : d ≤ 16)
    (hone : P (moreInside 1 (max (d - 1) 1))) (hzero : P (moreInside 0 (max (d - 1) 1))) :
    Scanned P (digitText c d topLevel) := by
  have hlast := scanned_digits hc isDigit_nine (less_ne hd) hzero
  unfold digitText
  split
  · have hfirst := scanned_digits (isDigit_lowest topLevel) (isDigit_prevChar hc hpos) (less_ne hd) hone
    simpa using (hfirst.append scanned_bar).append hlast
  · exact hlast

/-- What stands in front of the group of the text for more digits. -/
def consFront (c : Char) (more d : Nat) (topLevel : Bool) : List Char :=
  (if '1' < c then
      digitRange (lowest topLevel) (prevChar c) ++ ' ' :: moreDigits (more + 1) (max (d - 1) 1) ++
        " | ".toList
    else []) ++ digitRange c c ++ " (".toList

def consBack (c : Char) (more d : Nat) : List Char :=
  ")".toList ++ if c < '9' then
    " | ".toList ++ digitRange (nextChar c) '9' ++ ' ' :: moreDigits more (max (d - 1) 1)
  else []

theorem consText_eq (c : Char) (more d : Nat) (topLevel : Bool) (inner : List Char) :
    consText c more d topLevel inner = consFront c more d topLevel ++ inner ++ consBack c more d := by
  unfold consText consFront consBack
  simp only [append_assoc]

theorem scanned_consFront (hc : c.isDigit = true) {more : Nat} (hd : d ≤ 16)
    (hP : '1' < c → P (moreInside (more + 1) (max (d - 1) 1))) :
    Scanned P (consFront c more d topLevel) := by
  have hgroup : Scanned P (digitRange c c ++ " (".toList) :=
    (scanned_digitRange hc hc).append (scanned_plain (by simp))
  unfold consFront
  rw [append_assoc]
  split
  · next hone =>
    have hfirst := scanned_digits (isDigit_lowest topLevel) (isDigit_prevChar hc (zero_lt_of_one_lt hone))
      (less_ne hd) (hP hone)
    exact (hfirst.append scanned_bar).append hgroup
  · exact hgroup

theorem scanned_consBack (hc : c.isDigit = true) {more : Nat} (hd : d ≤ 16)
    (hP : c < '9' → P (moreInside more (max (d - 1) 1))) : Scanned P (consBack c more d) := by
  unfold consBack
  refine (scanned_plain (by simp)).append ?_
  split
  · next hnine =>
    have hlast := scanned_digits (isDigit_nextChar hc hnine) isDigit_nine (less_ne hd) (hP hnine)
    simpa using scanned_bar.append hlast
  · exact scanned_plain (by simp)

end Scanned

theorem scanned_atLeast (h : AtLeast n d topLevel text L) (hd : d ≤ 16) : Scanned (fun _ => True) text := by
  induction h with
  | zero d topLevel => exact scanned_zeroText hd (fun _ => trivial) fun _ => trivial
  | digit hc hpos d topLevel => exact scanned_digitText hc hpos hd trivial trivial
  | @cons c rest hcanonical hrest d topLevel inner L h ih =>
    obtain ⟨hc, -⟩ := allDigits_cons.mp hcanonical.digits
    rw [consText_eq]
    exact ((scanned_consFront hc hd fun _ => trivial).append (ih (by omega))).append
      (scanned_consBack hc hd fun _ => trivial)

/-- The repetitions of a good bound have their bounds in order. -/
theorem ordered_atLeast (hgood : GoodFrom d w) (hw : AllDigits w) (hd : w.length ≤ d) (hmax : d ≤ 16)
    (h : AtLeast (value w) d false text L) : Scanned InOrder text := by
  induction w generalizing d text L with
  | nil => exact hgood.elim
  | cons c rest ih =>
    obtain ⟨hc, hrestDigits⟩ := allDigits_cons.mp hw
    cases rest with
    | nil =>
      by_cases hzero : c = '0'
      · subst hzero
        obtain ⟨rfl, -⟩ := h.zero_inv value_zero
        exact scanned_zeroText hmax (fun htop => absurd htop Bool.false_ne_true) fun _ =>
          inOrder_moreInside hd
      · have hpos : '0' < c := lt_of_le_of_ne (zero_le hc) (Ne.symm hzero)
        obtain ⟨rfl, -⟩ := h.digit_inv hc hpos rfl
        exact scanned_digitText hc hpos hmax (inOrder_moreInside (le_max_right _ _))
          (inOrder_moreInside (Nat.zero_le _))
    | cons y w =>
      obtain ⟨hstep, hgood⟩ := hgood
      have hd : w.length + 1 + 1 ≤ d := hd
      have hless : max (d - 1) 1 = d - 1 := by omega
      have hpos : '0' < c := by
        rcases hstep with ⟨htwo, -⟩ | ⟨rfl, -⟩
        · exact lt_of_lt_of_le (by decide) htwo
        · decide
      obtain ⟨inner, M, hinner, rfl, -⟩ :=
        h.cons_inv (canonical_of_pos hw hpos) (cons_ne_nil y w) rfl
      rw [hless] at hinner
      rw [consText_eq]
      refine ((scanned_consFront hc hmax fun hone => ?_).append ?_).append
        (scanned_consBack hc hmax fun _ => ?_)
      · rcases hstep with ⟨-, hlt⟩ | ⟨rfl, -⟩
        · exact inOrder_moreInside (by omega)
        · exact absurd hone (lt_irrefl _)
      · exact ih hgood hrestDigits (by simp only [length_cons]; omega) (by omega) hinner
      · exact inOrder_moreInside (by simp only [length_cons]; omega)

end LlamaCpp.MinMaxInt
