import LlamaCpp.Schema.MinMaxInt

/-!
# Ranges of integers

What the text of a range of digit strings accepts, and that of two bounds: the strings between
them by length, and digit by digit within one length.
-/

namespace LlamaCpp.MinMaxInt

open RuleText Decimal List
open FormLanguage (repeated)

variable {env : List Char → Language Char} {a b c : Char} {n : Nat} {s w as : List Char}
  {L : Language Char}

/-! ## Digits -/

/-- One character out of a range. -/
def span (a b : Char) : Language Char := letters id fun c => a ≤ c ∧ c ≤ b

/-- Digits, as many as the bounds allow. -/
def someDigits (m n : Nat) : Language Char := {w | AllDigits w ∧ m ≤ w.length ∧ w.length ≤ n}

theorem isDigit_of_span (ha : a.isDigit = true) (hb : b.isDigit = true) (hac : a ≤ c) (hcb : c ≤ b) :
    c.isDigit = true := by
  have ha := isDigit_iff.mp ha
  have hb := isDigit_iff.mp hb
  have hac := char_le_iff.mp hac
  have hcb := char_le_iff.mp hcb
  exact isDigit_iff.mpr ⟨by omega, by omega⟩

theorem digit_ne {d : Char} (hc : c.isDigit = true) (hd : d.isDigit = false) : c ≠ d := by
  rintro rfl
  rw [hc] at hd
  cases hd

theorem itemText_one (ha : a.isDigit = true) : ItemText id env ['[', a, ']'] {[a]} := by
  have hitem : ItemText id env ('[' :: [a] ++ [']']) (letters id (· ∈ [a])) := by
    refine itemText_oneOf [a] (fun c hc => ?_) ?_
    · rw [mem_singleton.mp hc]
      exact ⟨digit_ne ha rfl, digit_ne ha rfl, digit_ne ha rfl⟩
    · simpa using digit_ne ha rfl
  have hlang : letters id (· ∈ [a]) = ({[a]} : Language Char) := by
    refine Set.ext fun w => ⟨?_, fun hw => ⟨a, mem_cons_self, hw⟩⟩
    rintro ⟨c, hc, rfl⟩
    rw [mem_singleton.mp hc]
    rfl
  rwa [hlang] at hitem

theorem itemText_span (ha : a.isDigit = true) (hb : b.isDigit = true) :
    ItemText id env ['[', a, '-', b, ']'] (span a b) := by
  have hread : readChars [a, '-', b] = some (.chars false [(a, b)]) := by
    have hunescape : unescape [a, '-', b] = some [(a, false), ('-', false), (b, false)] := by
      refine unescape_plain fun c hc => ?_
      rcases mem_cons.mp hc with rfl | hc
      · exact digit_ne ha rfl
      · rcases mem_cons.mp hc with rfl | hc
        · decide
        · rw [mem_singleton.mp hc]
          exact digit_ne hb rfl
    rw [readChars]
    · rw [hunescape]
      rfl
    · rintro rest heq
      exact digit_ne ha rfl (List.cons.inj heq).1
  refine ⟨_, pushes_chars (fun c hc => ?_) hread, ?_⟩
  · rcases mem_cons.mp hc with rfl | hc
    · exact ⟨digit_ne ha rfl, digit_ne ha rfl⟩
    · rcases mem_cons.mp hc with rfl | hc
      · decide
      · rw [mem_singleton.mp hc]
        exact ⟨digit_ne hb rfl, digit_ne hb rfl⟩
  · simp [Expr.lang, span, inRanges]

theorem itemText_digitRange (ha : a.isDigit = true) (hb : b.isDigit = true) :
    ItemText id env (digitRange a b) (span a b) := by
  unfold digitRange
  split
  · next heq =>
    subst heq
    have hspan : span a a = {[a]} := by
      refine Set.ext fun w => ⟨?_, fun hw => ⟨a, ⟨le_rfl, le_rfl⟩, hw⟩⟩
      rintro ⟨c, ⟨hac, hca⟩, rfl⟩
      rw [le_antisymm hca hac]
      rfl
    rw [hspan]
    exact itemText_one ha
  · exact itemText_span ha hb

theorem span_pow (k : Nat) : span '0' '9' ^ k = someDigits k k := by
  induction k with
  | zero =>
    refine Set.ext fun w => ⟨?_, fun hw => eq_nil_of_length_eq_zero (Nat.le_zero.mp hw.2.2)⟩
    rintro rfl
    exact ⟨by simp [AllDigits], le_rfl, le_rfl⟩
  | succ k ih =>
    rw [pow_succ', ih]
    refine Set.ext fun w => ⟨?_, fun hw => ?_⟩
    · rintro ⟨_, ⟨c, ⟨hc0, hc9⟩, rfl⟩, t, ⟨ht, hlow, hhigh⟩, rfl⟩
      exact ⟨allDigits_cons.mpr ⟨isDigit_of_span rfl rfl hc0 hc9, ht⟩, Nat.succ_le_succ hlow, Nat.succ_le_succ hhigh⟩
    · obtain ⟨hdigits, hlow, hhigh⟩ := hw
      cases w with
      | nil => cases hlow
      | cons c t =>
        obtain ⟨hc, ht⟩ := allDigits_cons.mp hdigits
        have hdigit := isDigit_iff.mp hc
        exact ⟨[c], ⟨c, ⟨char_le_iff.mpr hdigit.1, char_le_iff.mpr hdigit.2⟩, rfl⟩, t,
          ⟨ht, Nat.le_of_succ_le_succ hlow, Nat.le_of_succ_le_succ hhigh⟩, rfl⟩

theorem repeated_span (m n : Nat) : repeated (span '0' '9') m (some n) = someDigits m n := by
  refine Set.ext fun w => ⟨?_, fun hw => ?_⟩
  · rintro ⟨k, hm, hn, hw⟩
    rw [span_pow] at hw
    exact ⟨hw.1, hm.trans hw.2.1, hw.2.2.trans (hn n rfl)⟩
  · refine ⟨w.length, hw.2.1, fun b hb => Option.some.inj hb ▸ hw.2.2, ?_⟩
    rw [span_pow]
    exact ⟨hw.1, le_rfl, le_rfl⟩

theorem itemText_moreDigits (m : Nat) (hn : n ≠ intMax) : ItemText id env (moreDigits m n) (someDigits m n) := by
  have hdigit : ItemText id env "[0-9]".toList (span '0' '9') := itemText_span rfl rfl
  unfold moreDigits
  by_cases hone : m = n ∧ m = 1
  · obtain ⟨rfl, rfl⟩ := hone
    have hdigits : someDigits 1 1 = span '0' '9' := by rw [← span_pow, pow_one]
    rw [if_pos ⟨rfl, rfl⟩, hdigits]
    exact hdigit
  · rw [if_neg hone, ← repeated_span]
    by_cases heq : n = m
    · subst heq
      simpa using hdigit.exactly n
    · simpa [heq, hn] using hdigit.between m n

/-! ## Strings of one length -/

/-- The digit strings between two of the same length. -/
def between (a b : List Char) : Language Char := {s | AllDigits s ∧ s.length = a.length ∧ a ≤ s ∧ s ≤ b}

theorem zeros_le (h : AllDigits s) : zeros s.length ≤ s := by
  induction s with
  | nil => exact le_rfl
  | cons c s ih =>
    obtain ⟨hc, hs⟩ := allDigits_cons.mp h
    refine cons_le_cons_iff.mpr ?_
    rcases (isDigit_iff.mp hc).1.lt_or_eq with hlt | heq
    · exact .inl (char_lt_iff.mpr hlt)
    · exact .inr ⟨Char.toNat_inj.mp heq, ih hs⟩

theorem le_nines (h : AllDigits s) : s ≤ nines s.length := by
  induction s with
  | nil => exact le_rfl
  | cons c s ih =>
    obtain ⟨hc, hs⟩ := allDigits_cons.mp h
    refine cons_le_cons_iff.mpr ?_
    rcases (isDigit_iff.mp hc).2.lt_or_eq with hlt | heq
    · exact .inl (char_lt_iff.mpr hlt)
    · exact .inr ⟨Char.toNat_inj.mp heq, ih hs⟩

theorem between_nines {a : List Char} (h : s.length = a.length) :
    s ∈ between a (nines a.length) ↔ AllDigits s ∧ a ≤ s := by
  refine ⟨fun hs => ⟨hs.1, hs.2.2.1⟩, fun hs => ⟨hs.1, h, hs.2, ?_⟩⟩
  exact h ▸ le_nines hs.1

theorem between_zeros {b : List Char} (h : s.length = b.length) :
    s ∈ between (zeros b.length) b ↔ AllDigits s ∧ s ≤ b := by
  refine ⟨fun hs => ⟨hs.1, hs.2.2.2⟩, fun hs => ⟨hs.1, by simp [zeros, h], ?_, hs.2⟩⟩
  exact h ▸ zeros_le hs.1

theorem mem_one_mul : w ∈ {[a]} * L ↔ ∃ t ∈ L, w = a :: t := by
  constructor
  · rintro ⟨_, rfl, t, ht, rfl⟩
    exact ⟨t, ht, rfl⟩
  · rintro ⟨t, ht, rfl⟩
    exact ⟨[a], rfl, t, ht, rfl⟩

theorem mem_span_mul : w ∈ span a b * L ↔ ∃ c, a ≤ c ∧ c ≤ b ∧ ∃ t ∈ L, w = c :: t := by
  constructor
  · rintro ⟨_, ⟨c, ⟨hac, hcb⟩, rfl⟩, t, ht, rfl⟩
    exact ⟨c, hac, hcb, t, ht, rfl⟩
  · rintro ⟨c, hac, hcb, t, ht, rfl⟩
    exact ⟨[c], ⟨c, ⟨hac, hcb⟩, rfl⟩, t, ht, rfl⟩

theorem mem_someDigits_same {k : Nat} : w ∈ someDigits k k ↔ AllDigits w ∧ w.length = k :=
  ⟨fun h => ⟨h.1, le_antisymm h.2.2 h.2.1⟩, fun h => ⟨h.1, h.2.ge, h.2.le⟩⟩

theorem between_append {p a b : List Char} (hp : AllDigits p) : between (p ++ a) (p ++ b) = {p} * between a b := by
  induction p with
  | nil =>
    rw [nil_append, nil_append]
    exact (one_mul (between a b)).symm
  | cons c p ih =>
    obtain ⟨hc, hp⟩ := allDigits_cons.mp hp
    have hcons : ({c :: p} : Language Char) = {[c]} * {p} := by
      refine Language.ext fun w => ?_
      rw [mem_one_mul]
      constructor
      · rintro rfl
        exact ⟨p, rfl, rfl⟩
      · rintro ⟨t, rfl, rfl⟩
        rfl
    rw [hcons, mul_assoc, ← ih hp]
    refine Language.ext fun w => ?_
    rw [mem_one_mul]
    constructor
    · rintro ⟨hdigits, hlen, hlow, hhigh⟩
      cases w with
      | nil => cases hlen
      | cons d w =>
        have hcd : d = c := by
          rcases cons_le_cons_iff.mp hlow with hlt | ⟨heq, -⟩
          · rcases cons_le_cons_iff.mp hhigh with hgt | ⟨heq, -⟩
            · exact absurd hlt hgt.not_gt
            · exact heq
          · exact heq.symm
        subst hcd
        refine ⟨w, ⟨(allDigits_cons.mp hdigits).2, Nat.succ.inj hlen, ?_, ?_⟩, rfl⟩
        · exact ((cons_le_cons_iff.mp hlow).resolve_left (lt_irrefl d)).2
        · exact ((cons_le_cons_iff.mp hhigh).resolve_left (lt_irrefl d)).2
    · rintro ⟨t, ⟨hdigits, hlen, hlow, hhigh⟩, rfl⟩
      exact ⟨allDigits_cons.mpr ⟨hc, hdigits⟩, congrArg Nat.succ hlen,
        cons_le_cons_iff.mpr (.inr ⟨rfl, hlow⟩), cons_le_cons_iff.mpr (.inr ⟨rfl, hhigh⟩)⟩

/-- Between two strings that differ at once: by the first digit. -/
theorem mem_between_cons {bs t : List Char} (hab : a < b) (hlen : as.length = bs.length)
    (ha : a.isDigit = true) (hb : b.isDigit = true) : c :: t ∈ between (a :: as) (b :: bs) ↔
      c = a ∧ t ∈ between as (nines as.length) ∨ (a < c ∧ c < b) ∧ t ∈ someDigits as.length as.length ∨
        c = b ∧ t ∈ between (zeros as.length) bs := by
  constructor
  · rintro ⟨hdigits, hlength, hlow, hhigh⟩
    obtain ⟨hc, ht⟩ := allDigits_cons.mp hdigits
    have hlength : t.length = as.length := Nat.succ.inj hlength
    rcases cons_le_cons_iff.mp hlow with hac | ⟨hac, hlowRest⟩
    · rcases cons_le_cons_iff.mp hhigh with hcb | ⟨hcb, hhighRest⟩
      · exact .inr (.inl ⟨⟨hac, hcb⟩, mem_someDigits_same.mpr ⟨ht, hlength⟩⟩)
      · refine .inr (.inr ⟨hcb, ?_⟩)
        rw [hlen]
        exact (between_zeros (hlength.trans hlen)).mpr ⟨ht, hhighRest⟩
    · exact .inl ⟨hac.symm, (between_nines hlength).mpr ⟨ht, hlowRest⟩⟩
  · rintro (⟨rfl, ht⟩ | ⟨⟨hac, hcb⟩, ht⟩ | ⟨rfl, ht⟩)
    · exact ⟨allDigits_cons.mpr ⟨ha, ht.1⟩, congrArg Nat.succ ht.2.1,
        cons_le_cons_iff.mpr (.inr ⟨rfl, ht.2.2.1⟩), cons_le_cons_iff.mpr (.inl hab)⟩
    · obtain ⟨hdigits, hlength⟩ := mem_someDigits_same.mp ht
      exact ⟨allDigits_cons.mpr ⟨isDigit_of_span ha hb hac.le hcb.le, hdigits⟩, congrArg Nat.succ hlength,
        cons_le_cons_iff.mpr (.inl hac), cons_le_cons_iff.mpr (.inl hcb)⟩
    · have hlength : t.length = as.length := by simpa [zeros] using ht.2.1
      exact ⟨allDigits_cons.mpr ⟨hb, ht.1⟩, congrArg Nat.succ hlength,
        cons_le_cons_iff.mpr (.inl hab), cons_le_cons_iff.mpr (.inr ⟨rfl, ht.2.2.2⟩)⟩

/-! ## The text of a range -/

theorem commonLen_append (p a b : List Char) : commonLen (p ++ a) (p ++ b) = p.length + commonLen a b := by
  induction p with
  | nil => simp
  | cons c p ih =>
    rw [cons_append, cons_append, commonLen, if_pos rfl, ih, length_cons]
    omega

theorem commonLen_cons (h : a ≠ b) (as bs : List Char) : commonLen (a :: as) (b :: bs) = 0 := by
  rw [commonLen, if_neg h]

theorem uniformRange_self (hs : s ≠ []) : uniformRange s s = '"' :: s ++ ['"'] := by
  have hlen : commonLen s s = s.length := by
    have happend := commonLen_append s [] []
    simpa [commonLen] using happend
  rw [uniformRange]
  simp [hlen, length_pos_of_ne_nil hs]

theorem uniformRange_append {p : List Char} (hp : p ≠ []) (hab : a ≠ b) (as bs : List Char) :
    uniformRange (p ++ a :: as) (p ++ b :: bs) = '"' :: p ++ ['"'] ++ ' ' :: uniformRange (a :: as) (b :: bs) := by
  have hpos := length_pos_of_ne_nil hp
  rw [uniformRange, uniformRange]
  simp [commonLen_append, commonLen_cons hab, hpos]

theorem uniformRange_single (hab : a ≠ b) (bs : List Char) : uniformRange [a] (b :: bs) = ['[', a, '-', b, ']'] := by
  rw [uniformRange]
  simp [commonLen_cons hab]

theorem uniformRange_cons (hab : a ≠ b) (has : as ≠ []) (bs : List Char) :
    uniformRange (a :: as) (b :: bs) =
      '(' ::
        (if as = zeros as.length then
            digitRange a (prevChar b) ++ ' ' :: moreDigits as.length as.length
          else
            '[' :: a :: "] (".toList ++ uniformRange as (nines as.length) ++ ")".toList ++
              if a < prevChar b then
                " | ".toList ++
                  (if bs = nines as.length then digitRange (nextChar a) b
                    else digitRange (nextChar a) (prevChar b)) ++
                  ' ' :: moreDigits as.length as.length
              else []) ++
        (if as ≠ zeros as.length ∧ a < prevChar b ∧ bs = nines as.length then []
          else " | ".toList ++ digitRange b b ++ ' ' :: uniformRange (zeros as.length) bs) ++ [')'] := by
  have hpos := length_pos_of_ne_nil has
  rw [uniformRange]
  simp only [commonLen_cons hab, lt_irrefl, if_false, nil_append, length_cons, Nat.zero_lt_succ,
    and_self, dif_pos, getElem_cons_zero, Nat.sub_zero, Nat.add_sub_cancel, hpos, if_true,
    drop_succ_cons, drop_zero, Nat.zero_add]

theorem toNat_ofNat_digit (h : n < 0xd800) : (Char.ofNat n).toNat = n := by
  have hvalid : n.isValidChar := .inl h
  simp [Char.toNat_ofNat, hvalid]

theorem le_prevChar (hb : b.isDigit = true) (hpos : '0' < b) : c ≤ prevChar b ↔ c < b := by
  have hb := isDigit_iff.mp hb
  have hpos : 48 < b.toNat := char_lt_iff.mp hpos
  rw [char_le_iff, char_lt_iff, prevChar, toNat_ofNat_digit (by omega)]
  omega

theorem isDigit_prevChar (hb : b.isDigit = true) (hpos : '0' < b) : (prevChar b).isDigit = true := by
  have hb := isDigit_iff.mp hb
  have hpos : 48 < b.toNat := char_lt_iff.mp hpos
  rw [isDigit_iff, prevChar, toNat_ofNat_digit (by omega)]
  omega

theorem nextChar_le (ha : a.isDigit = true) : nextChar a ≤ c ↔ a < c := by
  have ha := isDigit_iff.mp ha
  rw [char_le_iff, char_lt_iff, nextChar, toNat_ofNat_digit (by omega)]
  omega

theorem isDigit_nextChar (ha : a.isDigit = true) (hless : a < '9') : (nextChar a).isDigit = true := by
  have ha := isDigit_iff.mp ha
  have hless : a.toNat < 57 := char_lt_iff.mp hless
  rw [isDigit_iff, nextChar, toNat_ofNat_digit (by omega)]
  omega

/-- Two strings of one length part at some digit. -/
theorem exists_split {a b : List Char} (hlen : a.length = b.length) (hle : a ≤ b) (hne : a ≠ b) :
    ∃ p c d as bs, a = p ++ c :: as ∧ b = p ++ d :: bs ∧ c < d ∧ as.length = bs.length := by
  induction a generalizing b with
  | nil =>
    cases b with
    | nil => exact absurd rfl hne
    | cons d b => cases hlen
  | cons c a ih =>
    cases b with
    | nil => cases hlen
    | cons d b =>
      have htail : a.length = b.length := Nat.succ.inj hlen
      rcases cons_le_cons_iff.mp hle with hlt | ⟨rfl, hleTail⟩
      · exact ⟨[], c, d, a, b, rfl, rfl, hlt, htail⟩
      · obtain ⟨p, x, y, as, bs, rfl, rfl, hxy, hrest⟩ :=
          ih htail hleTail fun heq => hne (heq ▸ rfl)
        exact ⟨c :: p, x, y, as, bs, rfl, rfl, hxy, hrest⟩

/-- One character strictly between two. -/
def middle (a b : Char) : Language Char := letters id fun c => a < c ∧ c < b

theorem between_eq {bs : List Char} (hab : a < b) (hlen : as.length = bs.length) (ha : a.isDigit = true)
    (hb : b.isDigit = true) : between (a :: as) (b :: bs) =
      {[a]} * between as (nines as.length) + middle a b * someDigits as.length as.length +
        {[b]} * between (zeros as.length) bs := by
  refine Language.ext fun w => ?_
  rw [Language.mem_add, Language.mem_add, mem_one_mul, mem_one_mul]
  constructor
  · intro hw
    cases w with
    | nil => cases hw.2.1
    | cons c t =>
      rcases (mem_between_cons hab hlen ha hb).mp hw with ⟨rfl, ht⟩ | ⟨hc, ht⟩ | ⟨rfl, ht⟩
      · exact .inl (.inl ⟨t, ht, rfl⟩)
      · exact .inl (.inr ⟨[c], ⟨c, hc, rfl⟩, t, ht, rfl⟩)
      · exact .inr ⟨t, ht, rfl⟩
  · rintro ((⟨t, ht, rfl⟩ | ⟨_, ⟨c, hc, rfl⟩, t, ht, rfl⟩) | ⟨t, ht, rfl⟩)
    · exact (mem_between_cons hab hlen ha hb).mpr (.inl ⟨rfl, ht⟩)
    · exact (mem_between_cons hab hlen ha hb).mpr (.inr (.inl ⟨hc, ht⟩))
    · exact (mem_between_cons hab hlen ha hb).mpr (.inr (.inr ⟨rfl, ht⟩))

theorem between_zeros_nines (k : Nat) : between (zeros k) (nines k) = someDigits k k := by
  refine Language.ext fun w => ?_
  rw [mem_someDigits_same]
  constructor
  · intro hw
    exact ⟨hw.1, by simpa [zeros] using hw.2.1⟩
  · rintro ⟨hdigits, rfl⟩
    exact ⟨hdigits, by simp [zeros], zeros_le hdigits, le_nines hdigits⟩

theorem mem_one : w ∈ ({[a]} : Language Char) ↔ ∃ c, c = a ∧ w = [c] :=
  ⟨fun h => ⟨a, rfl, h⟩, fun ⟨_, rfl, h⟩ => h⟩

/-- Languages of one character are the same if their characters are. -/
theorem letters_ext {P Q : Char → Prop} (h : ∀ c, P c ↔ Q c) : (letters id P : Language Char) = letters id Q := by
  rw [funext fun c => propext (h c)]

theorem one_add_letters (a : Char) (P : Char → Prop) :
    ({[a]} : Language Char) + letters id P = letters id fun c => c = a ∨ P c := by
  refine Language.ext fun w => ?_
  rw [Language.mem_add, mem_one]
  constructor
  · rintro (⟨c, hc, rfl⟩ | ⟨c, hc, rfl⟩)
    · exact ⟨c, .inl hc, rfl⟩
    · exact ⟨c, .inr hc, rfl⟩
  · rintro ⟨c, hc | hc, rfl⟩
    · exact .inl ⟨c, hc, rfl⟩
    · exact .inr ⟨c, hc, rfl⟩

theorem altsText_bar {a b : List Char} {M : Language Char} (ha : AltsText id env a L)
    (hb : AltsText id env b M) : AltsText id env (a ++ " | ".toList ++ b) (L + M) := by
  have hor := ha.blank_right.or hb.blank_left
  simpa using hor

/-- The digits of two bounds that differ at once. -/
theorem itemText_uniformRange {bs : List Char} (hab : a < b) (hlen : as.length = bs.length)
    (ha : a.isDigit = true) (hb : b.isDigit = true) (has : as ≠ []) (hmax : as.length ≠ intMax)
    (hfrom : SeqText id env (uniformRange as (nines as.length)) (between as (nines as.length)))
    (hto : SeqText id env (uniformRange (zeros as.length) bs) (between (zeros as.length) bs)) :
    ItemText id env (uniformRange (a :: as) (b :: bs)) (between (a :: as) (b :: bs)) := by
  have hbpos : '0' < b := lt_of_le_of_lt (char_le_iff.mpr (isDigit_iff.mp ha).1) hab
  have hanine : a < '9' := lt_of_lt_of_le hab (char_le_iff.mpr (isDigit_iff.mp hb).2)
  have hprev := isDigit_prevChar hb hbpos
  have hnext := isDigit_nextChar ha hanine
  have hmore : ItemText id env (moreDigits as.length as.length) (someDigits as.length as.length) :=
    itemText_moreDigits _ hmax
  have hlast : AltsText id env (digitRange b b ++ ' ' :: uniformRange (zeros as.length) bs)
      ({[b]} * between (zeros as.length) bs) := by
    have hone : digitRange b b = ['[', b, ']'] := if_pos rfl
    rw [hone]
    exact ((itemText_one hb).seq.then hto).alts
  have hfirst : AltsText id env
      ('[' :: a :: "] (".toList ++ uniformRange as (nines as.length) ++ ")".toList)
      ({[a]} * between as (nines as.length)) := by
    have hthen := (itemText_one ha).seq.then hfrom.alts.group.seq
    simpa using hthen.alts
  rw [uniformRange_cons hab.ne has, between_eq hab hlen ha hb]
  by_cases hzeros : as = zeros as.length
  · rw [if_pos hzeros, if_neg fun h => h.1 hzeros]
    have hrange := ((itemText_digitRange ha hprev).seq.then hmore.seq).alts
    have hspan : span a (prevChar b) = {[a]} + middle a b := by
      unfold middle span
      rw [one_add_letters]
      refine letters_ext fun c => ?_
      rw [le_prevChar hb hbpos, le_iff_lt_or_eq]
      constructor
      · rintro ⟨h | h, hcb⟩
        · exact .inr ⟨h, hcb⟩
        · exact .inl h.symm
      · rintro (h | ⟨h, hcb⟩)
        · exact ⟨.inr h.symm, h ▸ hab⟩
        · exact ⟨.inl h, hcb⟩
    have hall := altsText_bar hrange hlast
    rw [hspan, add_mul] at hall
    have hdigits : between as (nines as.length) = someDigits as.length as.length := by
      rw [← between_zeros_nines, ← hzeros]
    rw [hdigits]
    simpa using hall.group
  · rw [if_neg hzeros]
    by_cases hgap : a < prevChar b
    · rw [if_pos hgap]
      by_cases hnines : bs = nines as.length
      · rw [if_pos hnines, if_pos ⟨hzeros, hgap, hnines⟩]
        have hspan : span (nextChar a) b = {[b]} + middle a b := by
          unfold middle span
          rw [one_add_letters]
          refine letters_ext fun c => ?_
          rw [nextChar_le ha, le_iff_lt_or_eq]
          constructor
          · rintro ⟨hac, h | h⟩
            · exact .inr ⟨hac, h⟩
            · exact .inl h
          · rintro (h | ⟨hac, h⟩)
            · exact ⟨h ▸ hab, .inr h⟩
            · exact ⟨hac, .inl h⟩
        have hrange := ((itemText_digitRange hnext hb).seq.then hmore.seq).alts
        have hall := altsText_bar hfirst hrange
        rw [hspan, add_comm {[b]}, add_mul, ← add_assoc] at hall
        rw [hnines, between_zeros_nines]
        simpa using hall.group
      · rw [if_neg hnines, if_neg fun h => hnines h.2.2]
        have hspan : span (nextChar a) (prevChar b) = middle a b :=
          letters_ext fun c => by rw [nextChar_le ha, le_prevChar hb hbpos]
        have hrange := ((itemText_digitRange hnext hprev).seq.then hmore.seq).alts
        rw [hspan] at hrange
        simpa using (altsText_bar (altsText_bar hfirst hrange) hlast).group
    · rw [if_neg hgap, if_neg fun h => hgap h.2.1]
      have hempty : middle a b = 0 := by
        refine Language.ext fun w => ⟨?_, fun h => absurd h (Language.notMem_zero w)⟩
        rintro ⟨c, ⟨hac, hcb⟩, rfl⟩
        exact absurd (hac.trans_le ((le_prevChar hb hbpos).mpr hcb)) hgap
      rw [hempty, zero_mul, add_zero]
      simpa using (altsText_bar hfirst hlast).group

theorem between_single {d : Char} (hc : c.isDigit = true) (hd : d.isDigit = true) : between [c] [d] = span c d := by
  refine Language.ext fun w => ⟨fun hw => ?_, ?_⟩
  · obtain ⟨e, rfl⟩ := length_eq_one_iff.mp hw.2.1
    have hlow := cons_le_cons_iff.mp hw.2.2.1
    have hhigh := cons_le_cons_iff.mp hw.2.2.2
    exact ⟨e, ⟨hlow.elim le_of_lt fun h => h.1.le, hhigh.elim le_of_lt fun h => h.1.le⟩, rfl⟩
  · rintro ⟨e, ⟨hce, hed⟩, rfl⟩
    refine ⟨allDigits_cons.mpr ⟨isDigit_of_span hc hd hce hed, by simp [AllDigits]⟩, rfl, ?_, ?_⟩
    · exact cons_le_cons_iff.mpr (hce.lt_or_eq.imp_right fun h => ⟨h, le_rfl⟩)
    · exact cons_le_cons_iff.mpr (hed.lt_or_eq.imp_right fun h => ⟨h, le_rfl⟩)

/-- Between two strings: by the length of what is behind their first difference. -/
theorem seqText_uniformRange {a b : List Char} (ha : AllDigits a) (hb : AllDigits b)
    (hlen : a.length = b.length) (hle : a ≤ b) (hne : a ≠ []) (hmax : a.length < intMax) :
    SeqText id env (uniformRange a b) (between a b) := by
  induction hn : a.length using Nat.strongRecOn generalizing a b with
  | _ n ih =>
    subst hn
    by_cases heq : a = b
    · subst heq
      have hself : between a a = {a.map id} := by
        rw [List.map_id]
        refine Language.ext fun w => ⟨fun hw => le_antisymm hw.2.2.2 hw.2.2.1, ?_⟩
        rintro rfl
        exact ⟨ha, rfl, le_rfl, le_rfl⟩
      rw [uniformRange_self hne, hself]
      exact (itemText_literal a fun c hc => ⟨digit_ne (ha c hc) rfl, digit_ne (ha c hc) rfl⟩).seq
    · obtain ⟨p, c, d, as, bs, rfl, rfl, hcd, hrest⟩ := exists_split hlen hle heq
      obtain ⟨hp, has⟩ := forall_mem_append.mp ha
      obtain ⟨-, hbs⟩ := forall_mem_append.mp hb
      obtain ⟨hc, has⟩ := allDigits_cons.mp has
      obtain ⟨hd, hbs⟩ := allDigits_cons.mp hbs
      have hless : as.length < (p ++ c :: as).length := by
        rw [length_append, length_cons]
        omega
      have hitem : ItemText id env (uniformRange (c :: as) (d :: bs)) (between (c :: as) (d :: bs)) := by
        by_cases hnil : as = []
        · subst hnil
          obtain rfl : bs = [] := eq_nil_of_length_eq_zero hrest.symm
          rw [uniformRange_single hcd.ne, between_single hc hd]
          exact itemText_span hc hd
        · refine itemText_uniformRange hcd hrest hc hd hnil (by omega) ?_ ?_
          · exact ih _ hless has (allDigits_replicate rfl _) (by simp [nines]) (le_nines has) hnil (by omega)
              rfl
          · exact ih _ hless (allDigits_replicate rfl _) hbs (by simp [zeros, hrest])
              (hrest ▸ zeros_le hbs) (by simpa [zeros] using hnil) (by simp [zeros]; omega) (by simp [zeros])
      by_cases hnil : p = []
      · subst hnil
        exact hitem.seq
      · rw [uniformRange_append hnil hcd.ne, between_append hp]
        have hliteral : ItemText id env ('"' :: p ++ ['"']) {p.map id} :=
          itemText_literal p fun c hc => ⟨digit_ne (hp c hc) rfl, digit_ne (hp c hc) rfl⟩
        rw [List.map_id] at hliteral
        exact hliteral.seq.then hitem.seq

/-! ## Two bounds -/

theorem allDigits_oneZeros (n : Nat) : AllDigits ('1' :: zeros n) :=
  allDigits_cons.mpr ⟨rfl, allDigits_replicate rfl n⟩

/-- The least number of more digits. -/
theorem oneZeros_below (hs : Canonical s) (hn : 0 < n) (hlen : n < s.length) : Below ('1' :: zeros n) s := by
  have hlength : ('1' :: zeros n).length = n + 1 := by simp [zeros]
  rcases Nat.lt_or_eq_of_le (Nat.succ_le_of_lt hlen) with hlt | heq
  · exact .inl (hlength ▸ hlt)
  · refine .inr ⟨hlength.trans heq, ?_⟩
    cases s with
    | nil => cases heq
    | cons c s =>
      obtain ⟨hc, hdigits⟩ := allDigits_cons.mp hs.digits
      have hsn : n = s.length := Nat.succ.inj heq
      have hne : c ≠ '0' := by
        rintro rfl
        have hone : s.length + 1 = 1 := hs.leading rfl
        omega
      have hpos : '0' < c :=
        lt_of_le_of_ne (char_le_iff.mpr (isDigit_iff.mp hc).1) (Ne.symm hne)
      refine cons_le_cons_iff.mpr ?_
      rcases (Nat.succ_le_of_lt (char_lt_iff.mp hpos)).lt_or_eq with hlt | heq
      · exact .inl (char_lt_iff.mpr hlt)
      · exact .inr ⟨Char.toNat_inj.mp heq, hsn ▸ zeros_le hdigits⟩

/-- The loop over the numbers of digits: the digit strings from the lower bound to the upper one,
by induction on how many more digits the upper one has. -/
theorem altsText_rangesFrom {longer : Nat} {minS maxS : List Char} (hmin : AllDigits minS) (hne : minS ≠ [])
    (hcanonical : Canonical maxS) (hlen : maxS.length = minS.length + longer) (hbelow : Below minS maxS)
    (hmax : maxS.length < intMax) :
    ∃ L, AltsText id env (rangesFrom longer minS maxS) L ∧ (∀ w ∈ L, AllDigits w) ∧
      ∀ s, Canonical s → (s ∈ L ↔ Below minS s ∧ Below s maxS) := by
  induction longer generalizing minS with
  | zero =>
    have hlength : minS.length = maxS.length := hlen.symm
    have hle : minS ≤ maxS := by
      rcases hbelow with hlt | ⟨-, hle⟩
      · omega
      · exact hle
    refine ⟨_, (seqText_uniformRange hmin hcanonical.digits hlength hle hne (hlength ▸ hmax)).alts,
      fun w hw => hw.1, fun s hs => ?_⟩
    constructor
    · rintro ⟨-, heq, hlow, hhigh⟩
      exact ⟨.inr ⟨heq.symm, hlow⟩, .inr ⟨heq.trans hlength, hhigh⟩⟩
    · rintro ⟨hlow | ⟨heq, hlow⟩, hhigh | ⟨heq', hhigh⟩⟩
      · omega
      · omega
      · omega
      · exact ⟨hs.digits, heq.symm, hlow, hhigh⟩
  | succ longer ih =>
    have hpos : 0 < minS.length := length_pos_of_ne_nil hne
    obtain ⟨L, halts, hdigits, hL⟩ := ih (allDigits_oneZeros minS.length) (cons_ne_nil _ _)
      (by simp [zeros]; omega) (oneZeros_below hcanonical hpos (by omega))
    have hfirst : AltsText id env (uniformRange minS (nines minS.length)) (between minS (nines minS.length)) :=
      (seqText_uniformRange hmin (allDigits_replicate rfl minS.length) (by simp) (le_nines hmin) hne
        (by omega)).alts
    have hlength : ('1' :: zeros minS.length).length = minS.length + 1 := by simp [zeros]
    refine ⟨_, altsText_bar hfirst halts, fun w hw => hw.elim (fun h => h.1) (hdigits w), fun s hs => ?_⟩
    rw [Language.mem_add, hL s hs]
    rcases Nat.lt_trichotomy s.length minS.length with hlt | heq | hgt
    · constructor
      · rintro (hbetween | ⟨hlow, -⟩)
        · exact absurd hbetween.2.1 hlt.ne
        · have hge := hlow.length_le
          omega
      · rintro ⟨hlow, -⟩
        exact absurd hlow.length_le hlt.not_ge
    · have hshort : Below s maxS := .inl (by omega)
      rw [between_nines heq]
      constructor
      · rintro (⟨-, hle⟩ | ⟨hlow, -⟩)
        · exact ⟨.inr ⟨heq.symm, hle⟩, hshort⟩
        · have hge := hlow.length_le
          omega
      · rintro ⟨hlow | ⟨-, hle⟩, -⟩
        · exact absurd heq hlow.ne'
        · exact .inl ⟨hs.digits, hle⟩
    · constructor
      · rintro (hbetween | ⟨-, hhigh⟩)
        · exact absurd hbetween.2.1 hgt.ne'
        · exact ⟨.inl hgt, hhigh⟩
      · rintro ⟨-, hhigh⟩
        exact .inr ⟨oneZeros_below hs hpos hgt, hhigh⟩

theorem length_toDigits_lt (h : n < 10 ^ 20) : (Nat.toDigits 10 n).length < intMax := by
  have hle := (Nat.length_toDigits_le_iff (b := 10) (by decide) (by decide)).mpr h
  exact hle.trans_lt (by decide)

/-- Two bounds that are not negative. -/
theorem altsText_rangeText {minValue maxValue : Nat} (hle : minValue ≤ maxValue) (hmax : maxValue < 10 ^ 20) :
    ∃ L, AltsText id env (rangeText minValue maxValue) L ∧ (∀ w ∈ L, AllDigits w) ∧
      ∀ s, Canonical s → (s ∈ L ↔ minValue ≤ value s ∧ value s ≤ maxValue) := by
  have hmin := canonical_toDigits minValue
  have hcanonical := canonical_toDigits maxValue
  have hbelow : Below (Nat.toDigits 10 minValue) (Nat.toDigits 10 maxValue) := by
    rw [below_iff hmin hcanonical, value_toDigits, value_toDigits]
    exact hle
  have hlen := hbelow.length_le
  obtain ⟨L, halts, hdigits, hL⟩ := altsText_rangesFrom hmin.digits hmin.ne_nil hcanonical
    (Nat.add_sub_of_le hlen).symm hbelow (length_toDigits_lt hmax)
  refine ⟨L, halts, hdigits, fun s hs => ?_⟩
  rw [hL s hs, below_iff hmin hs, below_iff hs hcanonical, value_toDigits, value_toDigits]

end LlamaCpp.MinMaxInt
