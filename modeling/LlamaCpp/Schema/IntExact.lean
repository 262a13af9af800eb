import LlamaCpp.Schema.IntBounds

/-!
# When the rule of a bounded integer is exact

The text of `build_min_max_int` is compared with the decimal strings: without leading zeros, with
a minus sign or without, of at most 16 digits where a bound is absent.
-/

namespace LlamaCpp.MinMaxInt

open RuleText Decimal List Language

variable {env : List Char → Language Char} {L : Language Char} {d n : Nat} {text : List Char}
  {topLevel : Bool}

/-! ## Where a single bound goes wrong -/

theorem toDigits_value_le {s : List Char} (hs : AllDigits s) (hne : s ≠ []) :
    (Nat.toDigits 10 (value s)).length ≤ s.length :=
  (Nat.length_toDigits_le_iff (by decide) (length_pos_of_ne_nil hne)).mpr (value_lt hs)

/-- Some string of no more digits than the bound is accepted. -/
theorem exists_short (h : AtLeast n d topLevel text L) (hd : 0 < d) :
    ∃ t ∈ L, AllDigits t ∧ t.length ≤ (Nat.toDigits 10 n).length := by
  induction h with
  | zero d topLevel =>
    refine ⟨['0'], ?_, (canonical_single rfl).digits, by simp⟩
    unfold zeroLang
    split
    · exact .inl rfl
    · exact ⟨(canonical_single rfl).digits, le_rfl, hd⟩
  | @digit c hc hpos d topLevel =>
    have hcanonical := canonical_single hc
    refine ⟨[c], .inr (cons_mem_span.mpr ⟨le_rfl, le_nine hc, ?_⟩), hcanonical.digits, ?_⟩
    · exact ⟨by simp [AllDigits], le_rfl, Nat.zero_le _⟩
    · rw [toDigits_value hcanonical]
  | @cons c rest hcanonical hrest d topLevel inner L h ih =>
    obtain ⟨hc, hdigits⟩ := allDigits_cons.mp hcanonical.digits
    obtain ⟨t, ht, htDigits, hlen⟩ := ih (by omega)
    refine ⟨c :: t, (mem_consLang hc).mpr (.inr (.inl ⟨rfl, ht⟩)), allDigits_cons.mpr ⟨hc, htDigits⟩, ?_⟩
    rw [toDigits_value hcanonical]
    exact Nat.succ_le_succ (hlen.trans (toDigits_value_le hdigits hrest))

/-- The text says something wrong about a string, or has a repetition in the wrong order. -/
def Wrong (d : Nat) (w text : List Char) (L : Language Char) : Prop :=
  HasDisorder text ∨ ∃ t, AllDigits t ∧ t.length ≤ d ∧ ¬(t ∈ L ↔ Below w t)

/-- A bound that is not good, by induction on its digits: at the first one that is a zero or a
one, or too large for what is left, something is wrong. -/
theorem wrong_atLeast {w : List Char} (hbad : ¬GoodFrom d w) (hw : AllDigits w) (hne : w ≠ [])
    (hd : w.length ≤ d) (hmax : d ≤ 16) (h : AtLeast (value w) d false text L) : Wrong d w text L := by
  induction w generalizing d text L with
  | nil => exact absurd rfl hne
  | cons c rest ih =>
    obtain ⟨hc, hrestDigits⟩ := allDigits_cons.mp hw
    cases rest with
    | nil => exact absurd trivial hbad
    | cons y w =>
      have hrest : y :: w ≠ [] := cons_ne_nil y w
      have hd : (y :: w).length + 1 ≤ d := hd
      have hpos : 0 < (y :: w).length := Nat.zero_lt_succ _
      by_cases hzero : c = '0'
      · -- the zero is lost, and shorter strings are accepted
        subst hzero
        have hvalue : value ('0' :: y :: w) = value (y :: w) := by
          rw [value_cons]
          simp
        rw [hvalue] at h
        obtain ⟨t, ht, htDigits, hlen⟩ := exists_short h (by omega)
        have hshort := hlen.trans (toDigits_value_le hrestDigits hrest)
        refine .inr ⟨t, htDigits, by omega, fun hiff => ?_⟩
        have hle := (hiff.mp ht).length_le
        simp only [length_cons] at hle hshort
        omega
      · have hless : max (d - 1) 1 = d - 1 := by omega
        have hcpos : '0' < c := lt_of_le_of_ne (zero_le hc) (Ne.symm hzero)
        obtain ⟨inner, M, hinner, rfl, rfl⟩ := h.cons_inv (canonical_of_pos hw hcpos) hrest rfl
        have hfront : ∀ {P : List Char → Prop}, ('1' < c → P (moreInside ((y :: w).length + 1) (d - 1))) →
            Scanned P (consFront c (y :: w).length d false) := fun hP =>
          scanned_consFront hc hmax (by rwa [hless])
        rw [hless] at hinner
        by_cases hstep : '2' ≤ c ∧ (y :: w).length + 1 < d ∨ c = '1' ∧ (y :: w).length + 1 = d
        · -- the fault is further on
          have hgood : ¬GoodFrom (d - 1) (y :: w) := fun hgood => hbad ⟨hstep, hgood⟩
          rcases ih hgood hrestDigits hrest (by omega) (by omega) hinner with hdisorder | ⟨t, ht, hlen, hwrong⟩
          · refine .inl ?_
            rw [consText_eq]
            exact hdisorder.within (hfront fun _ => trivial) _
          · refine .inr ⟨c :: t, allDigits_cons.mpr ⟨hc, ht⟩, by simp only [length_cons]; omega,
              fun hiff => hwrong ?_⟩
            rwa [cons_mem_consLang hc, below_cons_self] at hiff
        · push Not at hstep
          rcases lt_or_ge '1' c with hone | hone
          · -- more digits are asked for than are left
            have htwo : '2' ≤ c := char_le_iff.mpr (Nat.succ_le_of_lt (char_lt_iff.mp hone))
            have hlen := hstep.1 htwo
            refine .inl ⟨digitRange '0' (prevChar c) ++ [' '], (y :: w).length + 1, max (d - 1) 1,
              " | ".toList ++ (digitRange c c ++ " (".toList ++ inner ++ consBack c (y :: w).length d),
              ?_, less_ne hmax, by omega, ?_⟩
            · rw [consText_eq, consFront, if_pos hone]
              simp [lowest]
            · exact (scanned_digitRange rfl (isDigit_prevChar hc hcpos)).append (scanned_plain (by simp))
          · -- longer numbers with a zero here are left out
            obtain rfl : c = '1' := by
              refine le_antisymm hone (char_le_iff.mpr ?_)
              exact Nat.succ_le_of_lt (char_lt_iff.mp hcpos)
            have hlen := hstep.2 rfl
            have hlength : (zeros ((y :: w).length + 2)).length = (y :: w).length + 2 := length_replicate
            refine .inr ⟨zeros ((y :: w).length + 2), allDigits_replicate rfl _, by omega, fun hiff => ?_⟩
            have hmem := hiff.mpr (.inl (by simp [zeros]))
            rcases (mem_consLang hc).mp hmem with ⟨hlt, -⟩ | ⟨heq, -⟩ | ⟨hlt, -⟩
            · exact absurd hlt (lt_irrefl _)
            · exact absurd heq (by decide)
            · exact absurd hlt (by decide)

/-! ## The repetitions of two bounds -/

theorem moreInside_self (k : Nat) : InOrder (moreInside k k) := inOrder_moreInside le_rfl

theorem scanned_digitsText {s : List Char} (hs : AllDigits s) : Scanned InOrder ('"' :: s ++ ['"']) := by
  refine scanned_plain fun c hc => ?_
  rcases List.mem_append.mp hc with hc | hc
  · rcases mem_cons.mp hc with rfl | hc
    · decide
    · exact digit_ne (hs c hc) rfl
  · rw [mem_singleton.mp hc]
    decide

/-- The digits of two bounds that differ at once. -/
theorem scanned_uniformRange_cons {a b : Char} {as bs : List Char} (hab : a < b) (ha : a.isDigit = true)
    (hb : b.isDigit = true) (has : as ≠ []) (hmax : as.length ≠ intMax)
    (hfrom : Scanned InOrder (uniformRange as (nines as.length)))
    (hto : Scanned InOrder (uniformRange (zeros as.length) bs)) :
    Scanned InOrder (uniformRange (a :: as) (b :: bs)) := by
  have hbpos : '0' < b := lt_of_le_of_lt (zero_le ha) hab
  have hprev := isDigit_prevChar hb hbpos
  have hnext := isDigit_nextChar ha (lt_of_lt_of_le hab (le_nine hb))
  have hblank : Scanned InOrder [' '] := scanned_plain (by simp)
  have hopen : Scanned InOrder ['('] := scanned_plain (by simp)
  have hclose : Scanned InOrder [')'] := scanned_plain (by simp)
  have hlast : Scanned InOrder (" | ".toList ++ digitRange b b ++ ' ' :: uniformRange (zeros as.length) bs) :=
    (scanned_bar.append (scanned_digitRange hb hb)).append (hblank.append hto)
  have hfirst : Scanned InOrder ('[' :: a :: "] (".toList ++ uniformRange as (nines as.length) ++ ")".toList) := by
    have hone : Scanned InOrder ('[' :: a :: "] (".toList) := by
      have hrange := scanned_digitRange (P := InOrder) ha ha
      have htail : Scanned InOrder " (".toList := scanned_plain (by simp)
      have happend := hrange.append htail
      rwa [digitRange, if_pos rfl] at happend
    exact (hone.append hfrom).append (scanned_plain (by simp))
  have hrange : ∀ {c d : Char}, c.isDigit = true → d.isDigit = true →
      Scanned InOrder (digitRange c d ++ ' ' :: moreDigits as.length as.length) :=
    fun hc hd => scanned_digits hc hd hmax (moreInside_self _)
  rw [uniformRange_cons hab.ne has]
  refine (hopen.append (Scanned.append ?_ ?_)).append hclose
  · split
    · exact hrange ha hprev
    · refine hfirst.append ?_
      split
      · rw [append_assoc]
        refine scanned_bar.append ?_
        split
        · exact hrange hnext hb
        · exact hrange hnext hprev
      · exact scanned_plain (by simp)
  · split
    · exact scanned_plain (by simp)
    · exact hlast

theorem scanned_uniformRange {a b : List Char} (ha : AllDigits a) (hb : AllDigits b)
    (hlen : a.length = b.length) (hle : a ≤ b) (hne : a ≠ []) (hmax : a.length < intMax) :
    Scanned InOrder (uniformRange a b) := by
  induction hn : a.length using Nat.strongRecOn generalizing a b with
  | _ n ih =>
    subst hn
    by_cases heq : a = b
    · subst heq
      rw [uniformRange_self hne]
      exact scanned_digitsText ha
    · obtain ⟨p, c, d, as, bs, rfl, rfl, hcd, hrest⟩ := exists_split hlen hle heq
      obtain ⟨hp, has⟩ := forall_mem_append.mp ha
      obtain ⟨-, hbs⟩ := forall_mem_append.mp hb
      obtain ⟨hc, has⟩ := allDigits_cons.mp has
      obtain ⟨hd, hbs⟩ := allDigits_cons.mp hbs
      have hless : as.length < (p ++ c :: as).length := by
        rw [length_append, length_cons]
        omega
      have htail : Scanned InOrder (uniformRange (c :: as) (d :: bs)) := by
        by_cases hnil : as = []
        · subst hnil
          rw [uniformRange_single hcd.ne]
          have hrange := scanned_digitRange (P := InOrder) hc hd
          rwa [digitRange, if_neg hcd.ne] at hrange
        · refine scanned_uniformRange_cons hcd hc hd hnil (by omega) ?_ ?_
          · exact ih _ hless has (allDigits_replicate rfl _) (by simp [nines]) (le_nines has) hnil (by omega)
              rfl
          · exact ih _ hless (allDigits_replicate rfl _) hbs (by simp [zeros, hrest])
              (hrest ▸ zeros_le hbs) (by simpa [zeros] using hnil) (by simp [zeros]; omega) (by simp [zeros])
      by_cases hnil : p = []
      · subst hnil
        exact htail
      · rw [uniformRange_append hnil hcd.ne]
        have hblank : Scanned InOrder [' '] := scanned_plain (by simp)
        exact (scanned_digitsText hp).append (hblank.append htail)

theorem scanned_rangesFrom {longer : Nat} {minS maxS : List Char} (hmin : AllDigits minS) (hne : minS ≠ [])
    (hcanonical : Canonical maxS) (hlen : maxS.length = minS.length + longer) (hbelow : Below minS maxS)
    (hmax : maxS.length < intMax) : Scanned InOrder (rangesFrom longer minS maxS) := by
  induction longer generalizing minS with
  | zero =>
    have hle : minS ≤ maxS := by
      rcases hbelow with hlt | ⟨-, hle⟩
      · omega
      · exact hle
    exact scanned_uniformRange hmin hcanonical.digits hlen.symm hle hne (by omega)
  | succ longer ih =>
    have hpos : 0 < minS.length := length_pos_of_ne_nil hne
    have hlength : ('1' :: zeros minS.length).length = minS.length + 1 := by simp [zeros]
    have hfirst := scanned_uniformRange hmin (allDigits_replicate rfl minS.length) (by simp) (le_nines hmin)
      hne (by omega)
    exact (hfirst.append scanned_bar).append (ih (allDigits_oneZeros minS.length) (cons_ne_nil _ _)
      (by omega) (oneZeros_below hcanonical hpos (by omega)))

theorem scanned_rangeText {minValue maxValue : Nat} (hle : minValue ≤ maxValue) (hmax : maxValue < 10 ^ 20) :
    Scanned InOrder (rangeText minValue maxValue) := by
  have hmin := canonical_toDigits minValue
  have hcanonical := canonical_toDigits maxValue
  have hbelow : Below (Nat.toDigits 10 minValue) (Nat.toDigits 10 maxValue) := by
    rw [below_iff hmin hcanonical, value_toDigits, value_toDigits]
    exact hle
  exact scanned_rangesFrom hmin.digits hmin.ne_nil hcanonical (Nat.add_sub_of_le hbelow.length_le).symm hbelow
    (length_toDigits_lt hmax)

/-! ## A single bound that is not inside of another -/

/-- The bounds whose text is right. -/
def FineBound (n : Nat) : Prop :=
  (Nat.toDigits 10 n).length ≤ 15 ∧ (∀ c ∈ (Nat.toDigits 10 n).tail.dropLast, '2' ≤ c) ∨
    (Nat.toDigits 10 n).length = 16 ∧ ∀ c ∈ (Nat.toDigits 10 n).dropLast, c = '1'

instance (n : Nat) : Decidable (FineBound n) := inferInstanceAs (Decidable (_ ∨ _))

theorem goodFrom_cons (d : Nat) (c y : Char) (w : List Char) :
    GoodFrom d (c :: y :: w) ↔
      ('2' ≤ c ∧ (y :: w).length + 1 < d ∨ c = '1' ∧ (y :: w).length + 1 = d) ∧ GoodFrom (d - 1) (y :: w) :=
  Iff.rfl

theorem goodFrom_iff {w : List Char} (hne : w ≠ []) (hd : w.length ≤ d) :
    GoodFrom d w ↔ w.length < d ∧ (∀ c ∈ w.dropLast, '2' ≤ c) ∨ w.length = d ∧ ∀ c ∈ w.dropLast, c = '1' := by
  induction w generalizing d with
  | nil => exact absurd rfl hne
  | cons c rest ih =>
    cases rest with
    | nil => simpa [GoodFrom] using hd.lt_or_eq
    | cons y w =>
      have hd : (y :: w).length + 1 ≤ d := hd
      have hlt : (y :: w).length < d - 1 ↔ (c :: y :: w).length < d := Nat.lt_sub_iff_add_lt
      have heq : (y :: w).length = d - 1 ↔ (c :: y :: w).length = d := by
        simp only [length_cons] at hd ⊢
        omega
      rw [goodFrom_cons, ih (cons_ne_nil y w) (by omega), dropLast_cons_cons,
        forall_mem_cons, forall_mem_cons, hlt, heq]
      rcases Nat.lt_or_eq_of_le hd with hless | hsame
      · have hless : (c :: y :: w).length < d := hless
        simp only [length_cons] at hless ⊢
        simp only [hless, hless.ne, true_and, and_true, and_false, false_and, or_false]
      · have hsame : (c :: y :: w).length = d := hsame
        simp only [length_cons] at hsame ⊢
        simp only [hsame, lt_irrefl, true_and, and_true, and_false, false_and, false_or]

theorem fineBound_cons {c : Char} {rest : List Char} (hcanonical : Canonical (c :: rest)) (hrest : rest ≠ []) :
    FineBound (value (c :: rest)) ↔ (rest.length + 1 ≤ 15 ∨ rest.length + 1 = 16 ∧ c = '1') ∧ GoodFrom 15 rest := by
  unfold FineBound
  rw [toDigits_value hcanonical, length_cons, tail_cons, dropLast_cons_of_ne_nil hrest, forall_mem_cons]
  constructor
  · rintro (⟨hlen, htwo⟩ | ⟨hlen, hone, hones⟩)
    · exact ⟨.inl hlen, (goodFrom_iff hrest (by omega)).mpr (.inl ⟨by omega, htwo⟩)⟩
    · exact ⟨.inr ⟨hlen, hone⟩, (goodFrom_iff hrest (by omega)).mpr (.inr ⟨by omega, hones⟩)⟩
  · rintro ⟨hlen | ⟨hlen, hone⟩, hgood⟩
    · rcases (goodFrom_iff hrest (by omega)).mp hgood with ⟨-, htwo⟩ | ⟨heq, -⟩
      · exact .inl ⟨hlen, htwo⟩
      · omega
    · rcases (goodFrom_iff hrest (by omega)).mp hgood with ⟨hless, -⟩ | ⟨-, hones⟩
      · omega
      · exact .inr ⟨hlen, hone, hones⟩

/-- Only a single digit begins with a zero. -/
theorem lowest_le {e : Char} {t : List Char} (ht : Canonical (e :: t)) (topLevel : Bool) (hne : t ≠ []) :
    lowest topLevel ≤ e := by
  have he := zero_le (allDigits_cons.mp ht.digits).1
  rcases he.lt_or_eq with hlt | rfl
  · exact (lowest_le_one topLevel).trans (char_le_iff.mpr (Nat.succ_le_of_lt (char_lt_iff.mp hlt)))
  · have hone := ht.leading rfl
    exact absurd (eq_nil_of_length_eq_zero (Nat.succ.inj hone)) hne

theorem pos_of_canonical {c : Char} {rest : List Char} (h : Canonical (c :: rest))
    (hne : rest ≠ [] ∨ 0 < value (c :: rest)) : '0' < c := by
  have hc := zero_le (allDigits_cons.mp h.digits).1
  refine lt_of_le_of_ne hc fun hzero => ?_
  subst hzero
  have hnil : rest = [] := eq_nil_of_length_eq_zero (Nat.succ.inj (h.leading rfl))
  subst hnil
  exact hne.elim (fun h => h rfl) (absurd · (lt_irrefl 0))

/-- The text of a bound that is fine accepts the numbers of at most 16 digits from it on. -/
theorem mem_of_fineBound (hpos : 0 < n) (hfine : FineBound n) (h : AtLeast n 16 topLevel text L)
    {t : List Char} (ht : Canonical t) (hlen : t.length ≤ 16) : t ∈ L ↔ n ≤ value t := by
  cases h with
  | zero => exact absurd hpos (lt_irrefl 0)
  | @digit c hc hcpos _ _ =>
    rw [← below_iff (canonical_single hc) ht]
    cases t with
    | nil => exact absurd rfl ht.ne_nil
    | cons e t => exact mem_digitLang hc hcpos ht.digits (Nat.le_of_succ_le_succ hlen) (lowest_le ht topLevel)
  | @cons c rest hcanonical hrest _ _ inner M h =>
    obtain ⟨hc, hrestDigits⟩ := allDigits_cons.mp hcanonical.digits
    obtain ⟨hlength, hgood⟩ := (fineBound_cons hcanonical hrest).mp hfine
    rw [← below_iff hcanonical ht]
    cases t with
    | nil => exact absurd rfl ht.ne_nil
    | cons e t =>
      have hlen : t.length ≤ 15 := Nat.le_of_succ_le_succ hlen
      obtain ⟨-, htDigits⟩ := allDigits_cons.mp ht.digits
      refine mem_consLang_iff hc ht.digits hlen (lowest_le ht topLevel) (fun hone hlt => ?_)
        (mem_atLeast hgood hrestDigits (by omega) h htDigits hlen)
      -- below a one there is the zero alone
      have hnil : t = [] := by
        by_contra hne
        have hzero := char_lt_iff.mp (pos_of_canonical ht (.inl hne))
        refine hone (char_lt_iff.mpr (lt_of_le_of_lt ?_ (char_lt_iff.mp hlt)))
        exact Nat.succ_le_of_lt hzero
      rw [hnil]
      exact Nat.zero_le _

/-- A bound that is not fine: a repetition is in the wrong order, or a number is decided wrongly. -/
theorem wrong_of_not_fineBound (hpos : 0 < n) (hbad : ¬FineBound n) (h : AtLeast n 16 topLevel text L) :
    HasDisorder text ∨ ∃ t, Canonical t ∧ t.length ≤ 16 ∧ ¬(t ∈ L ↔ n ≤ value t) := by
  cases h with
  | zero => exact absurd hpos (lt_irrefl 0)
  | @digit c hc hcpos _ _ =>
    refine absurd (.inl ?_) hbad
    rw [toDigits_value (canonical_single hc)]
    exact ⟨by simp, by simp⟩
  | @cons c rest hcanonical hrest _ _ inner M h =>
    obtain ⟨hc, hrestDigits⟩ := allDigits_cons.mp hcanonical.digits
    have hcpos := pos_of_canonical hcanonical (.inl hrest)
    rw [fineBound_cons hcanonical hrest] at hbad
    rw [consText_eq]
    have hscanned := scanned_atLeast h (by decide)
    have hfront : Scanned (fun _ => True) (consFront c rest.length 16 topLevel) :=
      scanned_consFront hc le_rfl fun _ => trivial
    by_cases hlength : rest.length + 1 ≤ 15 ∨ rest.length + 1 = 16 ∧ c = '1'
    · have hgood : ¬GoodFrom 15 rest := fun hgood => hbad ⟨hlength, hgood⟩
      rcases wrong_atLeast hgood hrestDigits hrest (by omega) (by decide) h with hdisorder | ⟨t, ht, hlen, hwrong⟩
      · exact .inl (hdisorder.within hfront _)
      · have hct := canonical_of_pos (allDigits_cons.mpr ⟨hc, ht⟩) hcpos
        refine .inr ⟨c :: t, hct, Nat.succ_le_succ hlen, fun hiff => hwrong ?_⟩
        rwa [cons_mem_consLang hc, ← below_iff hcanonical hct, below_cons_self] at hiff
    · push Not at hlength
      obtain ⟨hlong, hone⟩ := hlength
      refine .inl ?_
      rcases lt_or_ge '1' c with hlt | hge
      · -- as many digits as the bound has are asked for in front
        refine ⟨digitRange (lowest topLevel) (prevChar c) ++ [' '], rest.length + 1, 15,
          " | ".toList ++ (digitRange c c ++ " (".toList ++ inner ++ consBack c rest.length 16), ?_,
          by decide, by omega, ?_⟩
        · rw [consFront, if_pos hlt]
          simp
        · exact (scanned_digitRange (isDigit_lowest topLevel) (isDigit_prevChar hc hcpos)).append
            (scanned_plain (by simp))
      · -- the same behind
        have hnine : c < '9' := lt_of_le_of_lt hge (by decide)
        have hcone : c = '1' := le_antisymm hge (char_le_iff.mpr (Nat.succ_le_of_lt (char_lt_iff.mp hcpos)))
        have hlonger : rest.length + 1 ≠ 16 := fun heq => hone heq hcone
        refine ⟨consFront c rest.length 16 topLevel ++ inner ++
            (")".toList ++ " | ".toList ++ digitRange (nextChar c) '9' ++ [' ']), rest.length, 15, [], ?_,
          by decide, by omega, ?_⟩
        · rw [consBack, if_pos hnine]
          simp
        · have hlast : Scanned (fun _ => True) (digitRange (nextChar c) '9') :=
            scanned_digitRange (isDigit_nextChar hc hnine) isDigit_nine
          have hclose : Scanned (fun _ => True) (")".toList ++ " | ".toList) := scanned_plain (by simp)
          exact (hfront.append hscanned).append ((hclose.append hlast).append (scanned_plain (by simp)))

/-- What the repetitions of a bound that is fine look like. -/
theorem ordered_of_fineBound (hpos : 0 < n) (hfine : FineBound n) (h : AtLeast n 16 topLevel text L) :
    Scanned InOrder text := by
  cases h with
  | zero => exact absurd hpos (lt_irrefl 0)
  | digit hc hcpos =>
    exact scanned_digitText hc hcpos le_rfl (inOrder_moreInside (by decide)) (inOrder_moreInside (by decide))
  | @cons c rest hcanonical hrest _ _ inner M h =>
    obtain ⟨hc, hrestDigits⟩ := allDigits_cons.mp hcanonical.digits
    obtain ⟨hlength, hgood⟩ := (fineBound_cons hcanonical hrest).mp hfine
    have hmost : rest.length ≤ 15 := by omega
    rw [consText_eq]
    refine ((scanned_consFront hc le_rfl fun hone => inOrder_moreInside ?_).append ?_).append
      (scanned_consBack hc le_rfl fun _ => inOrder_moreInside hmost)
    · rcases hlength with hlen | ⟨-, rfl⟩
      · exact hlen
      · exact absurd hone (lt_irrefl _)
    · exact ordered_atLeast hgood hrestDigits hmost (by decide) h

/-- The words are strings of digits, hardly longer than the bound. -/
theorem words_atLeast (h : AtLeast n d topLevel text L) :
    ∀ w ∈ L, AllDigits w ∧ w.length ≤ max d ((Nat.toDigits 10 n).length + 1) := by
  have hspan : ∀ {a b : Char} {m k bound : Nat} {w : List Char}, a.isDigit = true → b.isDigit = true →
      k + 1 ≤ bound → w ∈ span a b * someDigits m k → AllDigits w ∧ w.length ≤ bound := by
    intro a b m k bound w ha hb hbound hw
    obtain ⟨c, hac, hcb, t, ⟨ht, -, hlen⟩, rfl⟩ := mem_span_mul.mp hw
    exact ⟨allDigits_cons.mpr ⟨isDigit_of_span ha hb hac hcb, ht⟩, (Nat.succ_le_succ hlen).trans hbound⟩
  induction h with
  | zero d topLevel =>
    intro w hw
    have hone : (Nat.toDigits 10 0).length = 1 := rfl
    unfold zeroLang at hw
    split at hw
    · rcases hw with hw | hw
      · obtain rfl : w = ['0'] := hw
        exact ⟨(canonical_single rfl).digits, by simp⟩
      · exact hspan isDigit_one isDigit_nine (by omega) hw
    · exact ⟨hw.1, hw.2.2.trans (le_max_left _ _)⟩
  | @digit c hc hpos d topLevel =>
    intro w hw
    have hone : (Nat.toDigits 10 (value [c])).length = 1 := by
      rw [toDigits_value (canonical_single hc)]
      rfl
    rcases hw with hw | hw
    · split at hw
      · exact hspan (isDigit_lowest topLevel) (isDigit_prevChar hc hpos) (by omega) hw
      · exact absurd hw (notMem_zero _)
    · exact hspan hc isDigit_nine (by omega) hw
  | @cons c rest hcanonical hrest d topLevel inner L h ih =>
    intro w hw
    obtain ⟨hc, hdigits⟩ := allDigits_cons.mp hcanonical.digits
    have hpos := length_pos_of_ne_nil hrest
    have hless := toDigits_value_le hdigits hrest
    rw [toDigits_value hcanonical, length_cons]
    rcases hw with (hw | hw) | hw
    · split at hw
      · next hone =>
        exact hspan (isDigit_lowest topLevel) (isDigit_prevChar hc (zero_lt_of_one_lt hone)) (by omega) hw
      · exact absurd hw (notMem_zero _)
    · obtain ⟨t, ht, rfl⟩ := mem_one_mul.mp hw
      obtain ⟨htDigits, hlen⟩ := ih t ht
      exact ⟨allDigits_cons.mpr ⟨hc, htDigits⟩, by rw [length_cons]; omega⟩
    · split at hw
      · next hnine => exact hspan (isDigit_nextChar hc hnine) isDigit_nine (by omega) hw
      · exact absurd hw (notMem_zero _)

end LlamaCpp.MinMaxInt
