import LlamaCpp.Schema.IntExact

/-!
# The decimal strings of a bounded integer

The text of `build_min_max_int` against the integers between the bounds, put together from the
texts for two bounds and for a single one.  A bound of zero loses `-0`, the negative of the
greatest value is taken for an absent bound, and a single bound has to be fine.
-/

namespace LlamaCpp.MinMaxInt

open RuleText Decimal

/-- A decimal string, with a minus sign or without. -/
def signed (negative : Bool) (digits : List Char) : List Char :=
  if negative then '-' :: digits else digits

def signedValue (negative : Bool) (digits : List Char) : Int :=
  if negative then -(value digits : Int) else value digits

/-- A string is in the language if and only if its integer is between the bounds; where a bound is
absent, a string of at most 16 digits. -/
def Decides (minValue maxValue : Int) (L : Language Char) : Prop :=
  ∀ negative digits, Canonical digits → (minValue = int64Min ∨ maxValue = int64Max → digits.length ≤ 16) →
    (signed negative digits ∈ L ↔
      minValue ≤ signedValue negative digits ∧ signedValue negative digits ≤ maxValue)

/-- The text for the bounds is there, is a rule for the integers between them, and has its
repetitions in order. -/
def Exact (minValue maxValue : Int) : Prop :=
  ∃ text L, buildMinMaxInt minValue maxValue 16 true = some text ∧ RepeatsOrdered text ∧
    Denotes id (fun _ => 0) text L ∧ Decides minValue maxValue L

/-- The bounds whose text is right. -/
def FineBounds (minValue maxValue : Int) : Prop :=
  if minValue = int64Min then maxValue < 0 ∧ maxValue ≠ int64Min ∧ FineBound (-maxValue).toNat
  else minValue ≠ 0 ∧ minValue ≠ -int64Max ∧
    (maxValue = int64Max → 0 < minValue → FineBound minValue.toNat)

instance (minValue maxValue : Int) : Decidable (FineBounds minValue maxValue) :=
  inferInstanceAs (Decidable (ite _ _ _))

section Words

variable {L M : Language Char} {negative : Bool} {digits : List Char}

theorem minus_notMem (hL : ∀ w ∈ L, AllDigits w) : '-' :: digits ∉ L := fun h =>
  absurd (allDigits_cons.mp (hL _ h)).1 (by decide)

theorem signed_mem_digits (hL : ∀ w ∈ L, AllDigits w) :
    signed negative digits ∈ L ↔ negative = false ∧ digits ∈ L := by
  cases negative with
  | true => simpa [signed] using minus_notMem hL
  | false => simp [signed]

theorem signed_mem_minus (hdigits : Canonical digits) :
    signed negative digits ∈ ({['-']} : Language Char) * M ↔ negative = true ∧ digits ∈ M := by
  have hcases := hdigits
  cases digits with
  | nil => exact absurd rfl hdigits.ne_nil
  | cons c digits =>
    cases negative with
    | true =>
      rw [signed, if_pos rfl, cons_mem_one]
      simp
    | false =>
      have hne : c ≠ '-' := digit_ne (allDigits_cons.mp hdigits.digits).1 rfl
      rw [signed, if_neg Bool.false_ne_true, cons_mem_one]
      simp [hne]

theorem signedValue_true : signedValue true digits = -(value digits : Int) := rfl

theorem signedValue_false : signedValue false digits = value digits := rfl

theorem value_lt_of_length (hdigits : Canonical digits) {k : Nat} (hlen : digits.length ≤ k) :
    value digits < 10 ^ k :=
  (value_lt hdigits.digits).trans_le (Nat.pow_le_pow_right (by decide) hlen)

end Words

/-! ## The texts of the two signs -/

def minusText (inner : List Char) : List Char := "\"-\" (".toList ++ inner ++ ")".toList

section Texts

variable {env : List Char → Language Char} {inner : List Char}

theorem altsText_minus {M : Language Char} (h : AltsText id env inner M) :
    AltsText id env (minusText inner) ({['-']} * M) := by
  have hminus : ItemText id env ['"', '-', '"'] {['-']} := itemText_literal ['-'] (by simp)
  simpa [minusText] using (hminus.seq.then h.group.seq).alts

theorem scanned_minusFront {P : List Char → Prop} : Scanned P "\"-\" (".toList := scanned_plain (by simp)

theorem Scanned.minus {P : List Char → Prop} (h : Scanned P inner) : Scanned P (minusText inner) :=
  (scanned_minusFront.append h).append (scanned_plain (by simp))

theorem HasDisorder.minus (h : HasDisorder inner) : HasDisorder (minusText inner) :=
  h.within scanned_minusFront _

/-- Zero, and the numbers of at most `more` digits behind the first one. -/
def naturalsText (more : Nat) : List Char := "[0] | [1-9] ".toList ++ moreDigits 0 more

end Texts

/-! ## What is built -/

section Builds

variable {minValue maxValue : Int} {decimalsLeft : Nat} {topLevel : Bool}

theorem build_range (hmin : 0 ≤ minValue) (hmax : maxValue ≠ int64Max) :
    buildMinMaxInt minValue maxValue decimalsLeft topLevel = some (rangeText minValue.toNat maxValue.toNat) := by
  rw [buildMinMaxInt]
  rw [if_pos ⟨ne_int64Min hmin, hmax⟩, if_neg fun h => hmin.not_gt h.1, if_neg hmin.not_gt]

theorem build_negative (hmin : minValue ≠ int64Min) (hneg : minValue < 0) (hmax : maxValue < 0) :
    buildMinMaxInt minValue maxValue decimalsLeft topLevel =
      (buildMinMaxInt (-maxValue) (-minValue) decimalsLeft true).map minusText := by
  rw [buildMinMaxInt]
  rw [if_pos ⟨hmin, (hmax.trans int64Max_pos).ne⟩, if_pos ⟨hneg, hmax⟩]
  rfl

theorem build_mixed (hmin : minValue ≠ int64Min) (hneg : minValue < 0) (hpos : 0 ≤ maxValue)
    (hmax : maxValue ≠ int64Max) :
    buildMinMaxInt minValue maxValue decimalsLeft topLevel =
      (buildMinMaxInt 0 (-minValue) decimalsLeft true).map fun inner =>
        minusText inner ++ " | ".toList ++ rangeText 0 maxValue.toNat := by
  rw [buildMinMaxInt]
  rw [if_pos ⟨hmin, hmax⟩, if_neg fun h => hpos.not_gt h.2, if_pos hneg]
  refine Option.map_congr fun inner _ => ?_
  simp [minusText]

theorem build_from_negative (hmin : minValue ≠ int64Min) (hneg : minValue < 0) :
    buildMinMaxInt minValue int64Max decimalsLeft topLevel =
      (buildMinMaxInt int64Min (-minValue) decimalsLeft false).map fun inner =>
        minusText inner ++ " | ".toList ++ naturalsText (decimalsLeft - 1) := by
  rw [buildMinMaxInt]
  rw [if_neg fun h => h.2 rfl, if_pos hmin, if_pos hneg]
  have hsplit : ") | [0] | [1-9] ".toList = ")".toList ++ (" | ".toList ++ "[0] | [1-9] ".toList) := rfl
  refine Option.map_congr fun inner _ => ?_
  unfold minusText naturalsText
  rw [hsplit]
  -- the literals are of no interest to the rest
  generalize ")".toList = close
  generalize " | ".toList = bar
  generalize "[0] | [1-9] ".toList = zero
  generalize "\"-\" (".toList = minus
  simp only [List.append_assoc]

theorem build_to_natural (hpos : 0 ≤ maxValue) (hmax : maxValue ≠ int64Max) :
    buildMinMaxInt int64Min maxValue decimalsLeft topLevel =
      some ((if topLevel then "\"-\" [1-9] ".toList ++ moreDigits 0 (max (decimalsLeft - 1) 1) ++ " | ".toList
        else []) ++ rangeText 0 maxValue.toNat) := by
  rw [buildMinMaxInt]
  rw [if_neg fun h => h.1 rfl, if_neg fun h => h rfl, if_pos hmax, if_pos hpos, build_range le_rfl hmax]
  rfl

theorem build_to_negative (hneg : maxValue < 0) (hmax : maxValue ≠ int64Min) :
    buildMinMaxInt int64Min maxValue decimalsLeft topLevel =
      (buildMinMaxInt (-maxValue) int64Max decimalsLeft false).map minusText := by
  rw [buildMinMaxInt]
  rw [if_neg fun h => h.1 rfl, if_neg fun h => h rfl, if_pos (hneg.trans int64Max_pos).ne,
    if_neg hneg.not_ge, if_neg hmax]
  rfl

theorem build_least : buildMinMaxInt int64Min int64Min decimalsLeft topLevel = none := by
  rw [buildMinMaxInt]
  rw [if_neg fun h => h.1 rfl, if_neg fun h => h rfl, if_pos (by decide), if_neg (by decide), if_pos rfl]

theorem build_unbounded : buildMinMaxInt int64Min int64Max decimalsLeft topLevel = none := by
  rw [buildMinMaxInt]
  rw [if_neg fun h => h.1 rfl, if_neg fun h => h rfl, if_neg fun h => h rfl]

end Builds

/-! ## Two bounds -/

section Bounds

variable {minValue maxValue : Int} {text : List Char} {L : Language Char}

/-- The text and what it accepts are the only ones. -/
theorem exact_iff (hbuild : buildMinMaxInt minValue maxValue 16 true = some text)
    (halts : AltsText id (fun _ => 0) text L) :
    Exact minValue maxValue ↔ RepeatsOrdered text ∧ Decides minValue maxValue L := by
  constructor
  · rintro ⟨text', M, hbuild', hordered, hdenotes, hdecides⟩
    obtain rfl := Option.some.inj (hbuild.symm.trans hbuild')
    obtain rfl := halts.denotes.unique hdenotes
    exact ⟨hordered, hdecides⟩
  · rintro ⟨hordered, hdecides⟩
    exact ⟨text, L, hbuild, hordered, halts.denotes, hdecides⟩

theorem not_exact_of_none (hbuild : buildMinMaxInt minValue maxValue 16 true = none) : ¬Exact minValue maxValue := by
  rintro ⟨text, L, hbuild', -⟩
  exact absurd (hbuild.symm.trans hbuild') (Option.some_ne_none text).symm

theorem canonical_zero : Canonical ['0'] := canonical_single rfl

/-- The negative zero is left out by a rule for digits only. -/
theorem not_decides_zero (hL : ['-', '0'] ∉ L) (hmin : minValue ≤ 0) (hmax : 0 ≤ maxValue) :
    ¬Decides minValue maxValue L := fun h =>
  hL ((h true ['0'] canonical_zero fun _ => by decide).mpr ⟨hmin, hmax⟩)

theorem toNat_lt {n : Int} (h : n ≤ int64Max) : n.toNat < 10 ^ 20 := by
  have hle : n.toNat ≤ int64Max.toNat := Int.toNat_le_toNat h
  exact hle.trans_lt (by decide)

theorem exact_natural_range (hmin : 0 ≤ minValue) (hle : minValue ≤ maxValue) (hmax : maxValue ≤ int64Max)
    (hpresent : maxValue ≠ int64Max) : Exact minValue maxValue ↔ minValue ≠ 0 := by
  have hnat : minValue.toNat ≤ maxValue.toNat := Int.toNat_le_toNat hle
  obtain ⟨L, halts, hdigits, hL⟩ := altsText_rangeText hnat (toNat_lt hmax)
  rw [exact_iff (build_range hmin hpresent) halts]
  constructor
  · rintro ⟨-, hdecides⟩ rfl
    exact not_decides_zero (minus_notMem hdigits) le_rfl hle hdecides
  · intro hne
    refine ⟨(scanned_rangeText hnat (toNat_lt hmax)).ordered, fun negative digits hcanonical _ => ?_⟩
    rw [signed_mem_digits hdigits, hL digits hcanonical]
    cases negative with
    | true =>
      rw [signedValue_true]
      simp only [Bool.true_eq_false, false_and, false_iff]
      omega
    | false =>
      rw [signedValue_false]
      simp only [true_and]
      omega

/-- The greatest value has more digits than a text of a lower bound accepts. -/
theorem greatest_notMem {n : Nat} {topLevel : Bool} (h : AtLeast n 16 topLevel text L)
    (hn : (Nat.toDigits 10 n).length ≤ 16) : Nat.toDigits 10 int64Max.toNat ∉ L := fun hmem => by
  have hlen := (words_atLeast h _ hmem).2
  have hlength : (Nat.toDigits 10 int64Max.toNat).length = 19 := by decide +kernel
  omega

theorem exact_mixed (hmin : minValue ≠ int64Min) (hleast : int64Min ≤ minValue) (hneg : minValue < 0)
    (hpos : 0 ≤ maxValue) (hmax : maxValue ≤ int64Max) (hpresent : maxValue ≠ int64Max) :
    Exact minValue maxValue ↔ minValue ≠ -int64Max := by
  obtain ⟨R, haltsR, hdigitsR, hR⟩ :=
    altsText_rangeText (Nat.zero_le maxValue.toNat) (toNat_lt hmax)
  by_cases hlow : minValue = -int64Max
  · have hbuild : buildMinMaxInt minValue maxValue 16 true = some
        (minusText (zeroText 16 true) ++ " | ".toList ++ rangeText 0 maxValue.toNat) := by
      rw [build_mixed hmin hneg hpos hpresent, hlow, neg_neg, build_zero]
      rfl
    have hzero : AltsText id (fun _ => 0) _ _ := altsText_atLeast (.zero 16 true) le_rfl
    rw [exact_iff hbuild (altsText_bar (altsText_minus hzero) haltsR)]
    simp only [hlow, ne_eq, not_true_eq_false, iff_false, not_and]
    intro _ hdecides
    have hcanonical := canonical_toDigits int64Max.toNat
    have hmem := (hdecides true _ hcanonical fun h => h.elim (fun h => absurd h (by decide)) fun h =>
      absurd h hpresent).mpr (by
        rw [signedValue_true, value_toDigits]
        exact ⟨by decide, le_trans (by decide) hpos⟩)
    rcases hmem with hmem | hmem
    · exact greatest_notMem (.zero 16 true) (by decide) ((signed_mem_minus hcanonical).mp hmem).2
    · exact minus_notMem hdigitsR hmem
  · have hle : -minValue ≤ int64Max := by
      unfold int64Min at hmin hleast
      unfold int64Max
      omega
    have hne : -minValue ≠ int64Max := fun h => hlow (by rw [← h, neg_neg])
    obtain ⟨M, haltsM, hdigitsM, hM⟩ :=
      altsText_rangeText (Nat.zero_le (-minValue).toNat) (toNat_lt hle)
    have hbuild : buildMinMaxInt minValue maxValue 16 true = some
        (minusText (rangeText 0 (-minValue).toNat) ++ " | ".toList ++ rangeText 0 maxValue.toNat) := by
      rw [build_mixed hmin hneg hpos hpresent, build_range le_rfl hne]
      rfl
    rw [exact_iff hbuild (altsText_bar (altsText_minus haltsM) haltsR)]
    simp only [ne_eq, hlow, not_false_eq_true, iff_true]
    have hscannedM := scanned_rangeText (Nat.zero_le (-minValue).toNat) (toNat_lt hle)
    have hscannedR := scanned_rangeText (Nat.zero_le maxValue.toNat) (toNat_lt hmax)
    refine ⟨((hscannedM.minus.append scanned_bar).append hscannedR).ordered, fun negative digits hcanonical _ => ?_⟩
    rw [Language.mem_add, signed_mem_minus hcanonical, signed_mem_digits hdigitsR, hM digits hcanonical,
      hR digits hcanonical]
    cases negative with
    | true =>
      rw [signedValue_true]
      simp only [true_and, Bool.true_eq_false, false_and, or_false]
      omega
    | false =>
      rw [signedValue_false]
      simp only [Bool.false_eq_true, false_and, true_and, false_or]
      omega

theorem exact_negative (hmin : minValue ≠ int64Min) (hleast : int64Min ≤ minValue) (hle : minValue ≤ maxValue)
    (hneg : maxValue < 0) : Exact minValue maxValue ↔ minValue ≠ -int64Max := by
  have hminneg : minValue < 0 := lt_of_le_of_lt hle hneg
  have hpresent : maxValue ≠ int64Max := (hneg.trans int64Max_pos).ne
  by_cases hlow : minValue = -int64Max
  · have hcast : -maxValue = ((-maxValue).toNat : Int) := (Int.toNat_of_nonneg (by omega)).symm
    obtain ⟨inner, M, hinner, hatLeast⟩ := exists_atLeast (-maxValue).toNat 16 true
    rw [← hcast] at hinner
    have hbuild : buildMinMaxInt minValue maxValue 16 true = some (minusText inner) := by
      rw [build_negative hmin hminneg hneg, hlow, neg_neg, hinner]
      rfl
    have halts : AltsText id (fun _ => 0) _ _ := altsText_minus (altsText_atLeast hatLeast le_rfl)
    rw [exact_iff hbuild halts]
    simp only [hlow, ne_eq, not_true_eq_false, iff_false, not_and]
    intro hordered hdecides
    have hsigned : ∀ digits, Canonical digits →
        (digits ∈ M ↔ -int64Max ≤ -(value digits : Int) ∧ -(value digits : Int) ≤ maxValue) := by
      intro digits hcanonical
      have hiff := hdecides true digits hcanonical fun h => h.elim (fun h => absurd h (by decide)) fun h =>
        absurd h hpresent
      rwa [signed_mem_minus hcanonical, signedValue_true, eq_self_iff_true, true_and] at hiff
    by_cases hfine : FineBound (-maxValue).toNat
    · -- the negative of the greatest value is left out
      refine greatest_notMem hatLeast (hfine.elim (fun h => h.1.trans (by decide)) fun h => h.1.le) ?_
      rw [hsigned _ (canonical_toDigits _), value_toDigits]
      have hgreatest : (int64Max.toNat : Int) = int64Max := by decide
      rw [hgreatest]
      exact ⟨le_rfl, hlow ▸ hle⟩
    · rcases wrong_of_not_fineBound (by omega) hfine hatLeast with hdisorder | ⟨t, ht, hlen, hwrong⟩
      · exact hdisorder.minus.not_ordered hordered
      · refine hwrong ((hsigned t ht).trans ?_)
        have hvalue := value_lt_of_length ht hlen
        unfold int64Max
        omega
  · have hless : -minValue ≤ int64Max := by
      unfold int64Min at hmin hleast
      unfold int64Max
      omega
    have hne : -minValue ≠ int64Max := fun h => hlow (by rw [← h, neg_neg])
    have hnat : (-maxValue).toNat ≤ (-minValue).toNat := Int.toNat_le_toNat (by omega)
    obtain ⟨M, halts, -, hM⟩ := altsText_rangeText hnat (toNat_lt hless)
    have hbuild : buildMinMaxInt minValue maxValue 16 true =
        some (minusText (rangeText (-maxValue).toNat (-minValue).toNat)) := by
      rw [build_negative hmin hminneg hneg, build_range (by omega) hne]
      rfl
    rw [exact_iff hbuild (altsText_minus halts)]
    simp only [ne_eq, hlow, not_false_eq_true, iff_true]
    refine ⟨(scanned_rangeText hnat (toNat_lt hless)).minus.ordered, fun negative digits hcanonical _ => ?_⟩
    rw [signed_mem_minus hcanonical, hM digits hcanonical]
    cases negative with
    | true =>
      rw [signedValue_true]
      simp only [true_and]
      omega
    | false =>
      rw [signedValue_false]
      simp only [Bool.false_eq_true, false_and, false_iff]
      omega

/-! ## One bound -/

/-- The text of a lower bound decides the numbers of at most 16 digits. -/
def Settles (n : Nat) (L : Language Char) : Prop :=
  ∀ digits, Canonical digits → digits.length ≤ 16 → (digits ∈ L ↔ n ≤ value digits)

theorem fineBound_of_settles {n : Nat} (hpos : 0 < n) {topLevel : Bool} (h : AtLeast n 16 topLevel text L)
    (hordered : ¬HasDisorder text) (hsettles : Settles n L) : FineBound n := by
  by_contra hfine
  rcases wrong_of_not_fineBound hpos hfine h with hdisorder | ⟨t, ht, hlen, hwrong⟩
  · exact hordered hdisorder
  · exact hwrong (hsettles t ht hlen)

theorem exact_from_positive (hpos : 0 < minValue) : Exact minValue int64Max ↔ FineBound minValue.toNat := by
  have hnat : 0 < minValue.toNat := by omega
  have hcast : minValue = (minValue.toNat : Int) := (Int.toNat_of_nonneg hpos.le).symm
  obtain ⟨text, L, hbuild, h⟩ := exists_atLeast minValue.toNat 16 true
  rw [← hcast] at hbuild
  have hdigits : ∀ w ∈ L, AllDigits w := fun w hw => (words_atLeast h w hw).1
  rw [exact_iff hbuild (altsText_atLeast h le_rfl)]
  constructor
  · rintro ⟨hordered, hdecides⟩
    refine fineBound_of_settles hnat h (fun h => h.not_ordered hordered) fun digits hcanonical hlen => ?_
    have hvalue := value_lt_of_length hcanonical hlen
    have hiff := hdecides false digits hcanonical fun _ => hlen
    rw [signed_mem_digits hdigits, signedValue_false, eq_self_iff_true, true_and] at hiff
    rw [hiff]
    unfold int64Max
    omega
  · intro hfine
    refine ⟨(ordered_of_fineBound hnat hfine h).ordered, fun negative digits hcanonical hlen => ?_⟩
    have hlen := hlen (.inr rfl)
    have hvalue := value_lt_of_length hcanonical hlen
    rw [signed_mem_digits hdigits, mem_of_fineBound hnat hfine h hcanonical hlen]
    unfold int64Max
    cases negative with
    | true =>
      rw [signedValue_true]
      simp only [Bool.true_eq_false, false_and, false_iff]
      omega
    | false =>
      rw [signedValue_false]
      simp only [true_and]
      omega

theorem exact_from_zero : ¬Exact 0 int64Max := by
  have h : AtLeast 0 16 true (zeroText 16 true) (zeroLang 16 true) := .zero 16 true
  rw [exact_iff (build_zero 16 true) (altsText_atLeast h le_rfl)]
  rintro ⟨-, hdecides⟩
  exact not_decides_zero (minus_notMem fun w hw => (words_atLeast h w hw).1) le_rfl (by decide) hdecides

theorem mem_zeroLang {digits : List Char} (hcanonical : Canonical digits) (hlen : digits.length ≤ 16) :
    digits ∈ zeroLang 16 true := by
  cases digits with
  | nil => exact absurd rfl hcanonical.ne_nil
  | cons c digits =>
    obtain ⟨hc, hdigits⟩ := allDigits_cons.mp hcanonical.digits
    by_cases hnil : digits = []
    · subst hnil
      by_cases hzero : c = '0'
      · subst hzero
        exact .inl rfl
      · have hone : '1' ≤ c := char_le_iff.mpr (Nat.succ_le_of_lt
          (char_lt_iff.mp (lt_of_le_of_ne (zero_le hc) (Ne.symm hzero))))
        exact .inr (cons_mem_span.mpr ⟨hone, le_nine hc, hdigits, Nat.zero_le _, Nat.zero_le _⟩)
    · exact .inr (cons_mem_span.mpr ⟨lowest_le hcanonical true hnil, le_nine hc, hdigits, Nat.zero_le _,
        Nat.le_of_succ_le_succ hlen⟩)

theorem exact_from_negative (hmin : minValue ≠ int64Min) (hleast : int64Min ≤ minValue) (hneg : minValue < 0) :
    Exact minValue int64Max ↔ minValue ≠ -int64Max := by
  by_cases hlow : minValue = -int64Max
  · have hbuild : buildMinMaxInt minValue int64Max 16 true = none := by
      rw [build_from_negative hmin hneg, hlow, neg_neg, build_unbounded]
      rfl
    simp only [hlow, ne_eq, not_true_eq_false, iff_false]
    exact hlow ▸ not_exact_of_none hbuild
  · have hle : -minValue ≤ int64Max := by
      unfold int64Min at hmin hleast
      unfold int64Max
      omega
    have hne : -minValue ≠ int64Max := fun h => hlow (by rw [← h, neg_neg])
    obtain ⟨M, haltsM, hdigitsM, hM⟩ := altsText_rangeText (Nat.zero_le (-minValue).toNat) (toNat_lt hle)
    have hbuild : buildMinMaxInt minValue int64Max 16 true = some
        (minusText (rangeText 0 (-minValue).toNat) ++ " | ".toList ++ zeroText 16 true) := by
      rw [build_from_negative hmin hneg, build_to_natural (by omega) hne]
      rfl
    have h : AtLeast 0 16 true (zeroText 16 true) (zeroLang 16 true) := .zero 16 true
    have hdigits : ∀ w ∈ zeroLang 16 true, AllDigits w := fun w hw => (words_atLeast h w hw).1
    rw [exact_iff hbuild (altsText_bar (altsText_minus haltsM) (altsText_atLeast h le_rfl))]
    simp only [ne_eq, hlow, not_false_eq_true, iff_true]
    have hscanned := scanned_rangeText (Nat.zero_le (-minValue).toNat) (toNat_lt hle)
    have hzero : Scanned InOrder (zeroText 16 true) :=
      scanned_zeroText le_rfl (fun _ => inOrder_moreInside (by decide)) fun h => absurd h (by decide)
    refine ⟨((hscanned.minus.append scanned_bar).append hzero).ordered, fun negative digits hcanonical hlen => ?_⟩
    have hlen := hlen (.inr rfl)
    have hvalue := value_lt_of_length hcanonical hlen
    rw [Language.mem_add, signed_mem_minus hcanonical, signed_mem_digits hdigits, hM digits hcanonical]
    unfold int64Max
    cases negative with
    | true =>
      rw [signedValue_true]
      simp only [true_and, Bool.true_eq_false, false_and, or_false]
      omega
    | false =>
      have hmem : digits ∈ zeroLang 16 true := mem_zeroLang hcanonical hlen
      rw [signedValue_false]
      simp only [Bool.false_eq_true, false_and, true_and, false_or, hmem, true_iff]
      omega

theorem exact_to_natural (hpos : 0 ≤ maxValue) (hmax : maxValue ≤ int64Max) (hpresent : maxValue ≠ int64Max) :
    ¬Exact int64Min maxValue := by
  obtain ⟨R, haltsR, hdigitsR, -⟩ := altsText_rangeText (Nat.zero_le maxValue.toNat) (toNat_lt hmax)
  have hminus : AltsText id (fun _ => 0) ("\"-\" [1-9] ".toList ++ moreDigits 0 15)
      ({['-']} * (span '1' '9' * someDigits 0 15)) := by
    have hsign : ItemText id (fun _ => (0 : Language Char)) ['"', '-', '"'] {['-']} :=
      itemText_literal ['-'] (by simp)
    have hone : ItemText id (fun _ => (0 : Language Char)) (digitRange '1' '9') (span '1' '9') :=
      itemText_digitRange rfl rfl
    have hmore := hone.seq.then (itemText_moreDigits 0 (n := 15) (by decide)).seq
    exact (hsign.seq.then hmore).alts
  rw [exact_iff (build_to_natural hpos hpresent) (altsText_bar hminus haltsR)]
  rintro ⟨-, hdecides⟩
  refine not_decides_zero ?_ (by decide) hpos hdecides
  intro hmem
  rcases (Language.mem_add _ _ _).mp hmem with hmem | hmem
  · rw [cons_mem_one, cons_mem_span] at hmem
    exact absurd hmem.2.1 (by decide)
  · exact minus_notMem hdigitsR hmem

theorem exact_to_negative (hneg : maxValue < 0) (hne : maxValue ≠ int64Min) :
    Exact int64Min maxValue ↔ FineBound (-maxValue).toNat := by
  have hnat : 0 < (-maxValue).toNat := by omega
  have hcast : -maxValue = ((-maxValue).toNat : Int) := (Int.toNat_of_nonneg (by omega)).symm
  obtain ⟨inner, M, hinner, h⟩ := exists_atLeast (-maxValue).toNat 16 false
  rw [← hcast] at hinner
  have hbuild : buildMinMaxInt int64Min maxValue 16 true = some (minusText inner) := by
    rw [build_to_negative hneg hne, hinner]
    rfl
  rw [exact_iff hbuild (altsText_minus (altsText_atLeast h le_rfl))]
  constructor
  · rintro ⟨hordered, hdecides⟩
    refine fineBound_of_settles hnat h (fun h => h.minus.not_ordered hordered) fun digits hcanonical hlen => ?_
    have hvalue := value_lt_of_length hcanonical hlen
    have hiff := hdecides true digits hcanonical fun _ => hlen
    rw [signed_mem_minus hcanonical, signedValue_true, eq_self_iff_true, true_and] at hiff
    rw [hiff]
    unfold int64Min
    omega
  · intro hfine
    refine ⟨(ordered_of_fineBound hnat hfine h).minus.ordered, fun negative digits hcanonical hlen => ?_⟩
    have hlen := hlen (.inl rfl)
    have hvalue := value_lt_of_length hcanonical hlen
    rw [signed_mem_minus hcanonical, mem_of_fineBound hnat hfine h hcanonical hlen]
    unfold int64Min
    cases negative with
    | true =>
      rw [signedValue_true]
      simp only [true_and]
      omega
    | false =>
      rw [signedValue_false]
      simp only [Bool.false_eq_true, false_and, false_iff]
      omega

end Bounds

/-- The text for a bounded integer is right for bounds that are fine, and for no others. -/
theorem exact_iff_fineBounds (minValue maxValue : Int) (hleast : int64Min ≤ minValue) (hle : minValue ≤ maxValue)
    (hmax : maxValue ≤ int64Max) : Exact minValue maxValue ↔ FineBounds minValue maxValue := by
  unfold FineBounds
  split
  · next hmin =>
    subst hmin
    rcases lt_or_ge maxValue 0 with hneg | hpos
    · by_cases hnone : maxValue = int64Min
      · subst hnone
        simp only [ne_eq, not_true_eq_false, false_and, and_false, iff_false]
        exact not_exact_of_none build_least
      · rw [exact_to_negative hneg hnone]
        exact ⟨fun h => ⟨hneg, hnone, h⟩, fun h => h.2.2⟩
    · simp only [hpos.not_gt, false_and, iff_false]
      by_cases hnone : maxValue = int64Max
      · subst hnone
        exact not_exact_of_none build_unbounded
      · exact exact_to_natural hpos hmax hnone
  · next hmin =>
    by_cases hnone : maxValue = int64Max
    · subst hnone
      rcases lt_trichotomy minValue 0 with hneg | rfl | hpos
      · rw [exact_from_negative hmin hleast hneg]
        exact ⟨fun h => ⟨hneg.ne, h, fun _ hpos => absurd hpos hneg.not_gt⟩, fun h => h.2.1⟩
      · simp only [ne_eq, not_true_eq_false, false_and, iff_false]
        exact exact_from_zero
      · rw [exact_from_positive hpos]
        have hne : minValue ≠ -int64Max := by
          unfold int64Max
          omega
        exact ⟨fun h => ⟨hpos.ne', hne, fun _ _ => h⟩, fun h => h.2.2 rfl hpos⟩
    · rcases lt_or_ge maxValue 0 with hneg | hpos
      · rw [exact_negative hmin hleast hle hneg]
        exact ⟨fun h => ⟨(lt_of_le_of_lt hle hneg).ne, h, fun h => absurd h hnone⟩, fun h => h.2.1⟩
      · rcases lt_or_ge minValue 0 with hminneg | hminpos
        · rw [exact_mixed hmin hleast hminneg hpos hmax hnone]
          exact ⟨fun h => ⟨hminneg.ne, h, fun h => absurd h hnone⟩, fun h => h.2.1⟩
        · rw [exact_natural_range hminpos hle hmax hnone]
          have hne : minValue ≠ -int64Max := by
            unfold int64Max
            omega
          exact ⟨fun h => ⟨h, hne, fun h => absurd h hnone⟩, fun h => h.1⟩

theorem exact_iff_fineBounds_small : Exact (-5) 5 :=
  (exact_iff_fineBounds (-5) 5 (by decide) (by decide) (by decide)).mpr (by decide)

/-- The two zeros of the bound are lost behind its first digit. -/
theorem fifteen_from_hundred : ¬Exact 100 int64Max := by
  obtain ⟨text, L, hbuild, h⟩ := exists_atLeast 100 16 true
  have hcanonical : Canonical ['1', '0', '0'] :=
    canonical_of_pos (allDigits_cons.mpr ⟨rfl, allDigits_replicate rfl 2⟩) (by decide)
  obtain ⟨inner, M, hinner, -, rfl⟩ := h.cons_inv hcanonical (List.cons_ne_nil _ _) rfl
  obtain ⟨-, rfl⟩ := hinner.zero_inv rfl
  have hfive : Canonical ['5'] := canonical_single rfl
  have hmem : ['1', '5'] ∈ consLang '1' ['0', '0'].length 16 true (zeroLang (max (16 - 1) 1) false) :=
    (cons_mem_consLang rfl).mpr ⟨hfive.digits, by decide, by decide⟩
  rintro ⟨text', L', hbuild', -, hdenotes, hdecides⟩
  obtain rfl := Option.some.inj (hbuild.symm.trans hbuild')
  obtain rfl := (altsText_atLeast h le_rfl).denotes.unique hdenotes
  have hfifteen : Canonical ['1', '5'] := canonical_of_pos (allDigits_cons.mpr ⟨rfl, hfive.digits⟩) (by decide)
  exact absurd ((hdecides false ['1', '5'] hfifteen fun _ => by decide).mp hmem).1 (by decide)

end LlamaCpp.MinMaxInt
