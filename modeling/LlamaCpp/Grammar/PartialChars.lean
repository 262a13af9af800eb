import LlamaCpp.Grammar.Accept
import LlamaCpp.Grammar.Utf8

/-!
# Incomplete characters at a char range

A candidate whose text ends inside a character is kept if the rest may still be completed to
a character that the char range takes.  `llama_grammar_match_partial_char` compares the
ranges with the interval of the possible code points.  For `[^...]` that is not enough: one
range that meets the interval rejects the candidate, whatever else is in the interval
(`matchPartialChar_exact_iff`, `negatedClass_rejects`).
-/

namespace LlamaCpp

open List

/-! ## The possible code points -/

/-- The code point has the incomplete sequence in front of its last bytes. -/
def Completes (s : PartialUtf8) (c : Char) : Prop :=
  0 < s.nRemain ∧ ∃ front back, front ++ back = String.utf8EncodeChar c ∧
    (decodeUtf8 front ⟨0, 0⟩).2 = s

/-- The incomplete sequence behind the first bytes of a text. -/
def PartialOf (s : PartialUtf8) : Prop :=
  0 < s.nRemain ∧ ∃ (text : List Char) (front back : List UInt8),
    front ++ back = text.flatMap String.utf8EncodeChar ∧ (decodeUtf8 front ⟨0, 0⟩).2 = s

/-- `low`, the least code point that the sequence could complete to. -/
def PartialUtf8.low (s : PartialUtf8) : Nat :=
  let low := s.value * 2 ^ (s.nRemain.toNat * 6) % 2 ^ 32
  if low = 0 then
    if s.nRemain = 2 then 2 ^ 11 else if s.nRemain = 3 then 2 ^ 16 else low
  else low

/-- `high`, the greatest one. -/
def PartialUtf8.high (s : PartialUtf8) : Nat :=
  s.value * 2 ^ (s.nRemain.toNat * 6) % 2 ^ 32 ||| (2 ^ (s.nRemain.toNat * 6) - 1)

theorem InClass.unique {n k k' : Nat} (h : InClass n k) (h' : InClass n k') : k = k' := by
  rcases k with _ | _ | _ | _ | k <;> rcases k' with _ | _ | _ | _ | k' <;>
    simp only [InClass] at h h' <;> omega

/-- The least code points with one, two and three continuation bytes. -/
theorem inClass_le_iff {n k j : Nat} (h : InClass n k) (hj : 0 < j) (hj3 : j ≤ 3) :
    j ≤ k ↔ [0, 0x80, 0x800, 0x10000].getD j 0 ≤ n := by
  obtain rfl | rfl | rfl : j = 1 ∨ j = 2 ∨ j = 3 := by omega
  all_goals
    rcases k with _ | _ | _ | _ | k <;> simp only [InClass] at h <;>
      simp only [getD_cons_succ, getD_cons_zero] <;> omega

theorem inClass_le {n k : Nat} (h : InClass n k) : k ≤ 3 := by
  rcases k with _ | _ | _ | _ | k <;> simp only [InClass] at h <;> omega

theorem completes_iff {s : PartialUtf8} {c : Char} :
    Completes s c ↔ ∃ k j, InClass c.toNat k ∧ 0 < j ∧ j ≤ k ∧ s = ⟨c.toNat / 64 ^ j, j⟩ := by
  obtain ⟨lead, k, hclass, heq, -⟩ := utf8EncodeChar_eq c
  constructor
  · rintro ⟨hpos, front, back, hcut, rfl⟩
    have hfront : front ≠ [] := by
      rintro rfl
      exact absurd hpos (by decide)
    have hc : c ≠ '\x00' := by
      rintro rfl
      have hone : front = [0] ∧ back = [] := by
        have henc : String.utf8EncodeChar '\x00' = [0] := by decide
        rw [henc] at hcut
        rcases append_eq_singleton_iff.mp hcut with h | h
        · exact absurd h.1 hfront
        · exact h
      rw [hone.1] at hpos
      exact absurd hpos (by decide)
    have hdec := decodes_part hc hcut.symm hfront (s := ⟨0, 0⟩) (by decide)
    rw [hdec.decodeUtf8_eq] at hpos ⊢
    have hlen := congrArg List.length (hcut.trans heq)
    rw [length_append, length_cons, continuationBytes_length] at hlen
    have hfrontpos := length_pos_iff.mpr hfront
    exact ⟨k, back.length, hclass, by simpa using hpos, by omega, rfl⟩
  · rintro ⟨k', j, hclass', hpos, hle, rfl⟩
    obtain rfl := hclass.unique hclass'
    have hlt := char_toNat_lt c
    obtain ⟨xs, hxs, -⟩ := decodes_continuationBytes (n := c.toNat) (by omega) hle
    have hc : c ≠ '\x00' := by
      rintro rfl
      have hzero := (inClass_le_iff hclass hpos (hle.trans (inClass_le hclass))).mp hle
      have hj3 := hle.trans (inClass_le hclass)
      obtain rfl | rfl | rfl : j = 1 ∨ j = 2 ∨ j = 3 := by omega
      all_goals exact absurd hzero (by decide)
    have hcut : String.utf8EncodeChar c = (lead :: xs) ++ continuationBytes c.toNat j := by
      rw [heq, hxs, cons_append]
    have hdec := decodes_part hc hcut (cons_ne_nil _ _) (s := ⟨0, 0⟩) (by decide)
    refine ⟨by simpa using hpos, _, _, hcut.symm, ?_⟩
    rw [hdec.decodeUtf8_eq, continuationBytes_length]

theorem decodeUtf8_whole (xs : List UInt8) (value : Nat) :
    decodeUtf8 xs ⟨value, 0⟩ = decodeSequences xs value 0 [] := by
  cases xs with
  | nil => rfl
  | cons x xs => simp [decodeUtf8, continueSequence]

/-- The incomplete sequence behind the first bytes of a text can be completed. -/
theorem exists_completes {s : PartialUtf8} (hpos : 0 < s.nRemain) (text : List Char)
    {front back : List UInt8} (hcut : front ++ back = text.flatMap String.utf8EncodeChar)
    {value : Nat} {before : List Nat} (hs : (decodeSequences front value 0 before).2 = s) :
    ∃ c, Completes s c := by
  induction text generalizing front value before with
  | nil =>
    obtain rfl := (append_eq_nil_iff.mp hcut).1
    rw [← hs] at hpos
    exact absurd hpos (lt_irrefl _)
  | cons c text ih =>
    rw [flatMap_cons] at hcut
    by_cases hc : c = '\x00'
    · subst hc
      have hstop : (decodeSequences front value 0 before).2 = ⟨value, 0⟩ := by
        cases front with
        | nil => rfl
        | cons x front =>
          obtain ⟨rfl, -⟩ := List.cons.inj hcut
          rfl
      rw [← hs, hstop] at hpos
      exact absurd hpos (lt_irrefl _)
    · rcases append_eq_append_iff.mp hcut with ⟨rest, henc, -⟩ | ⟨front', hfront, hrest⟩
      · have hne : front ≠ [] := by
          rintro rfl
          rw [← hs] at hpos
          exact absurd hpos (lt_irrefl _)
        have hhere := decodes_part hc henc hne (s := ⟨value, 0⟩) (lt_irrefl _)
        have hzero := decodes_part hc henc hne (s := ⟨0, 0⟩) (lt_irrefl _)
        have hend := hhere.decodeSequences_eq before
        refine ⟨c, hpos, front, rest, henc.symm, ?_⟩
        rw [hzero.decodeUtf8_eq, ← hs, hend]
      · have hone := decodes_part hc (append_nil _).symm String.utf8EncodeChar_ne_nil
          (s := ⟨value, 0⟩) (lt_irrefl _)
        rw [hfront] at hs
        rw [hone.decodeSequences_append front' before] at hs
        exact ih hrest.symm hs

theorem PartialOf.completes {s : PartialUtf8} (h : PartialOf s) : ∃ c, Completes s c := by
  obtain ⟨hpos, text, front, back, hcut, hs⟩ := h
  rw [decodeUtf8_whole] at hs
  exact exists_completes hpos text hcut hs

/-- The bounds, where nothing is shifted out of the 32 bits -/
theorem low_high {v j : Nat} (hpos : 0 < j) (hj3 : j ≤ 3) (hlt : v * 64 ^ j < 2 ^ 32) :
    (⟨v, j⟩ : PartialUtf8).low = (if v = 0 then [0, 0, 0x800, 0x10000].getD j 0 else v * 64 ^ j) ∧
    (⟨v, j⟩ : PartialUtf8).high = v * 64 ^ j + (64 ^ j - 1) := by
  have hpow : 2 ^ (((j : Int)).toNat * 6) = 64 ^ j := by
    rw [Int.toNat_natCast, Nat.mul_comm, Nat.pow_mul]
  have hor : v * 64 ^ j ||| (64 ^ j - 1) = v * 64 ^ j + (64 ^ j - 1) := by
    have hsix : 64 ^ j = 2 ^ (6 * j) := by rw [Nat.pow_mul]
    rw [hsix, Nat.mul_comm, Nat.two_pow_add_eq_or_of_lt (Nat.sub_lt (Nat.two_pow_pos _) Nat.one_pos)]
  unfold PartialUtf8.low PartialUtf8.high
  simp only [hpow, Nat.mod_eq_of_lt hlt, hor]
  have hzero : v * 64 ^ j = 0 ↔ v = 0 := by simp
  refine ⟨?_, trivial⟩
  simp only [hzero]
  obtain rfl | rfl | rfl : j = 1 ∨ j = 2 ∨ j = 3 := by omega
  all_goals
    split
    · next h => simp [h]
    · rfl

/-- The code points that complete the sequence are an interval. -/
theorem completes_iff_interval {s : PartialUtf8} (h : PartialOf s) (c : Char) :
    Completes s c ↔ s.low ≤ c.toNat ∧ c.toNat ≤ s.high := by
  obtain ⟨c₀, h₀⟩ := h.completes
  obtain ⟨k₀, j, hclass₀, hpos, hle, rfl⟩ := completes_iff.mp h₀
  have hj3 := hle.trans (inClass_le hclass₀)
  have hleast₀ := (inClass_le_iff hclass₀ hpos hj3).mp hle
  have hlt := char_toNat_lt c
  have hlt₀ := char_toNat_lt c₀
  obtain ⟨-, k, hclass, -⟩ := utf8EncodeChar_eq c
  have hcompletes : Completes ⟨c₀.toNat / 64 ^ j, j⟩ c ↔
      [0, 0x80, 0x800, 0x10000].getD j 0 ≤ c.toNat ∧ c.toNat / 64 ^ j = c₀.toNat / 64 ^ j := by
    rw [completes_iff, ← inClass_le_iff hclass hpos hj3]
    constructor
    · rintro ⟨k', j', hclass', hpos', hle', heq⟩
      obtain rfl := hclass.unique hclass'
      obtain ⟨hvalue, hremain⟩ := PartialUtf8.mk.inj heq
      obtain rfl : j = j' := Int.ofNat.inj hremain
      exact ⟨hle', hvalue.symm⟩
    · rintro ⟨hle', hvalue⟩
      exact ⟨k, j, hclass, hpos, hle', by rw [hvalue]⟩
  rw [hcompletes]
  obtain ⟨hlow, hhigh⟩ := low_high (v := c₀.toNat / 64 ^ j) hpos hj3 (by
    obtain rfl | rfl | rfl : j = 1 ∨ j = 2 ∨ j = 3 := by omega
    all_goals omega)
  rw [hlow, hhigh]
  obtain rfl | rfl | rfl : j = 1 ∨ j = 2 ∨ j = 3 := by omega
  all_goals
    simp only [getD_cons_succ, getD_cons_zero] at hleast₀ ⊢
    split <;> omega

/-! ## The loops -/

/-- `.`, which is no bound of a range. -/
def anyHead : List GrammarElement → Bool
  | e :: u :: _ => e.type = .charAny && u.type ≠ .charRngUpper
  | [e] => e.type = .charAny
  | [] => false

variable {es : List GrammarElement}

/-- The bounds decide the loop of `llama_grammar_match_char`, also where they start with `.` -/
theorem matchCharLoop_bounds (chr : Nat) (found : Bool) (n : Nat) (hes : es ≠ [])
    (hany : anyHead es = false) : (matchCharLoop chr es found n).1 = true ↔
      found = true ∨ ∃ b ∈ charBounds es, b.1 ≤ chr ∧ chr ≤ b.2 := by
  by_cases hhead : (headElement es).type = .charAny
  · cases es with
    | nil => exact absurd rfl hes
    | cons e es =>
      have he : e.type = .charAny := hhead
      cases es with
      | nil => simp [anyHead, he] at hany
      | cons u es =>
        have hrng : u.type = .charRngUpper := by simpa [anyHead, he] using hany
        rw [matchCharLoop, charBounds, if_pos hrng, if_pos hrng]
        by_cases halt : (headElement es).type = .charAlt
        · have hne : es ≠ [] := by
            rintro rfl
            exact absurd halt (by decide)
          simp only [if_pos halt]
          rw [matchCharLoop_fst chr es _ _ hne (by rw [halt]; decide)]
          simp [or_assoc]
        · simp [halt]
  · exact matchCharLoop_fst chr es found n hes hhead

/-- `.` takes every character. -/
theorem matchCharLoop_any (chr : Nat) (hany : anyHead es = true) : (matchCharLoop chr es false 0).1 = true := by
  cases es with
  | nil => simp [anyHead] at hany
  | cons e es =>
    cases es with
    | nil =>
      have he : e.type = .charAny := by simpa [anyHead] using hany
      simp [matchCharLoop, he]
    | cons u es =>
      obtain ⟨he, hrng⟩ : e.type = .charAny ∧ u.type ≠ .charRngUpper := by
        simpa [anyHead] using hany
      rw [matchCharLoop, if_neg hrng]
      by_cases halt : u.type = .charAlt
      · simp only [if_pos halt]
        rw [matchCharLoop_fst chr (u :: es) _ _ (cons_ne_nil _ _)
          (by change u.type ≠ _; rw [halt]; decide)]
        simp [he]
      · simp [halt, he]

/-- A range has a code point in common with the interval. -/
def Meets (low high : Nat) (b : Nat × Nat) : Prop := b.1 ≤ high ∧ low ≤ b.2

theorem anyHead_of_charAlt (h : (headElement es).type = .charAlt) : anyHead es = false := by
  cases es with
  | nil => rfl
  | cons e es =>
    have he : e.type = .charAlt := h
    cases es <;> simp [anyHead, he]

/-- The loop of `llama_grammar_match_partial_char` looks for a range that meets the interval. -/
theorem matchPartialCharLoop_eq (positive : Bool) (low high : Nat) (hany : anyHead es = false) :
    (matchPartialCharLoop positive low high es = positive ↔ ∃ b ∈ charBounds es, Meets low high b) := by
  fun_induction matchPartialCharLoop positive low high es with
  | case1 e u es hrng hmeets =>
    rw [charBounds, if_pos hrng]
    have hmeets : e.value ≤ high ∧ low ≤ u.value := by simpa using hmeets
    simp [Meets, hmeets]
  | case2 e u es hrng hmeets halt ih =>
    have hmeets : ¬(e.value ≤ high ∧ low ≤ u.value) := by simpa using hmeets
    rw [charBounds, if_pos hrng, if_pos halt, ih (anyHead_of_charAlt halt)]
    simp [Meets, hmeets]
  | case3 e u es hrng hmeets halt =>
    have hmeets : ¬(e.value ≤ high ∧ low ≤ u.value) := by simpa using hmeets
    rw [charBounds, if_pos hrng, if_neg halt]
    simp [Meets, hmeets]
  | case4 e u es hrng hcharAny => simp [anyHead, hrng, hcharAny] at hany
  | case5 e u es hrng hcharAny hin =>
    have hin : low ≤ e.value ∧ e.value ≤ high := by simpa using hin
    rw [charBounds, if_neg hrng]
    simp [Meets, hin]
  | case6 e u es hrng hcharAny hin halt ih =>
    have hin : ¬(e.value ≤ high ∧ low ≤ e.value) := by simpa [and_comm] using hin
    rw [charBounds, if_neg hrng, if_pos halt, ih (@anyHead_of_charAlt (u :: es) halt)]
    simp [Meets, hin]
  | case7 e u es hrng hcharAny hin halt =>
    have hin : ¬(e.value ≤ high ∧ low ≤ e.value) := by simpa [and_comm] using hin
    rw [charBounds, if_neg hrng, if_neg halt]
    simp [Meets, hin]
  | case8 e hcharAny => simp [anyHead, hcharAny] at hany
  | case9 e hcharAny hin =>
    have hin : low ≤ e.value ∧ e.value ≤ high := by simpa using hin
    simp [charBounds, Meets, hin]
  | case10 e hcharAny hin =>
    have hin : ¬(e.value ≤ high ∧ low ≤ e.value) := by simpa [and_comm] using hin
    simp [charBounds, Meets, hin]
  | case11 => simp [charBounds]

theorem matchPartialCharLoop_any (positive : Bool) (low high : Nat) (hany : anyHead es = true) :
    matchPartialCharLoop positive low high es = true := by
  cases es with
  | nil => simp [anyHead] at hany
  | cons e es =>
    cases es with
    | nil =>
      have he : e.type = .charAny := by simpa [anyHead] using hany
      simp [matchPartialCharLoop, he]
    | cons u es =>
      obtain ⟨he, hrng⟩ : e.type = .charAny ∧ u.type ≠ .charRngUpper := by
        simpa [anyHead] using hany
      simp [matchPartialCharLoop, he, hrng]

/-! ## What the check decides -/

section Exact

variable (rules : GrammarRules) (pos : GrammarPos) (s : PartialUtf8)

def AtCharRange : Prop :=
  (rules.at pos).type = .char ∨ (rules.at pos).type = .charNot ∨ (rules.at pos).type = .charAny

/-- `llama_grammar_match_partial_char` says whether some code point that completes the sequence
matches. -/
def PartialExact : Prop :=
  matchPartialChar rules pos s = .ok true ↔
    ∃ c, Completes s c ∧ ∃ next, matchChar rules pos c.toNat = .ok (true, next)

/-- A range that meets the interval settles the answer: in `[...]` one of the ranges has a code
point of the interval, in `[^...]` they have all of them. -/
def RangesSettle : Prop :=
  anyHead (rules.from pos) = true ∨
    ((∃ b ∈ charBounds (rules.from pos), Meets s.low s.high b) →
      if isPositiveChar (rules.at pos) then
        ∃ b ∈ charBounds (rules.from pos), ∃ c : Char,
          (s.low ≤ c.toNat ∧ c.toNat ≤ s.high) ∧ b.1 ≤ c.toNat ∧ c.toNat ≤ b.2
      else
        ∀ c : Char, s.low ≤ c.toNat ∧ c.toNat ≤ s.high →
          ∃ b ∈ charBounds (rules.from pos), b.1 ≤ c.toNat ∧ c.toNat ≤ b.2)

variable {rules pos s}

theorem AtCharRange.checked (h : AtCharRange rules pos) :
    (isPositiveChar (rules.at pos) || (rules.at pos).type = .charNot) = true := by
  rcases h with h | h | h <;> simp [isPositiveChar, h]

theorem AtCharRange.from_ne_nil (h : AtCharRange rules pos) : rules.from pos ≠ [] := by
  intro hnil
  have hat : (rules.at pos).type = .endOfRule := by
    unfold GrammarRules.at
    rw [hnil]
    rfl
  rcases h with h | h | h <;> exact absurd (hat.symm.trans h) (by decide)

theorem isPositiveChar_of_anyHead (h : anyHead (rules.from pos) = true) : isPositiveChar (rules.at pos) = true := by
  have hhead : (headElement (rules.from pos)).type = .charAny := by
    revert h
    cases rules.from pos with
    | nil => simp [anyHead]
    | cons e es => cases es <;> simp +contextual [anyHead, headElement]
  have hat : (rules.at pos).type = .charAny := hhead
  simp [isPositiveChar, hat]

theorem AtCharRange.matchChar_iff (h : AtCharRange rules pos) (chr : Nat) :
    (∃ next, matchChar rules pos chr = .ok (true, next)) ↔
      (matchCharLoop chr (rules.from pos) false 0).1 = isPositiveChar (rules.at pos) := by
  unfold matchChar
  rw [if_pos h.checked]
  simp

/-- What is left of a sequence is never two overlong bytes or an invalid byte. -/
theorem PartialOf.valid (h : PartialOf s) : (s.nRemain < 0 || (s.nRemain = 1 && s.value < 2)) = false := by
  obtain ⟨c, hc⟩ := h.completes
  obtain ⟨k, j, hclass, hpos, hle, rfl⟩ := completes_iff.mp hc
  have hj3 := hle.trans (inClass_le hclass)
  have hleast := (inClass_le_iff hclass hpos hj3).mp hle
  obtain rfl | rfl | rfl : j = 1 ∨ j = 2 ∨ j = 3 := by omega
  · simp only [getD_cons_succ, getD_cons_zero] at hleast
    simp
    omega
  · simp
  · simp

theorem matchPartialChar_eq (h : AtCharRange rules pos) (hs : PartialOf s) :
    matchPartialChar rules pos s =
      .ok (matchPartialCharLoop (isPositiveChar (rules.at pos)) s.low s.high (rules.from pos)) := by
  have hcheck : partialCharMatches rules pos s =
      if s.nRemain < 0 || (s.nRemain = 1 && s.value < 2) then false
      else matchPartialCharLoop (isPositiveChar (rules.at pos)) s.low s.high (rules.from pos) := rfl
  unfold matchPartialChar
  rw [if_pos h.checked, hcheck, hs.valid, if_neg Bool.false_ne_true]

/-- The check is exact where the ranges that meet the interval settle the answer. -/
theorem matchPartialChar_exact_iff (h : AtCharRange rules pos) (hs : PartialOf s) :
    PartialExact rules pos s ↔ RangesSettle rules pos s := by
  unfold PartialExact RangesSettle
  rw [matchPartialChar_eq h hs]
  simp only [h.matchChar_iff, completes_iff_interval hs, Except.ok.injEq]
  obtain ⟨c₀, hc₀⟩ := hs.completes
  have hc₀ := (completes_iff_interval hs c₀).mp hc₀
  cases hany : anyHead (rules.from pos) with
  | true =>
    have hpositive : isPositiveChar (rules.at pos) = true := isPositiveChar_of_anyHead hany
    rw [matchPartialCharLoop_any _ _ _ hany]
    exact iff_of_true
      (iff_of_true rfl ⟨c₀, hc₀, (matchCharLoop_any _ hany).trans hpositive.symm⟩) (.inl rfl)
  | false =>
    have hloop := matchPartialCharLoop_eq (isPositiveChar (rules.at pos)) s.low s.high hany
    have hmatch : ∀ chr, (matchCharLoop chr (rules.from pos) false 0).1 = true ↔
        ∃ b ∈ charBounds (rules.from pos), b.1 ≤ chr ∧ chr ≤ b.2 := fun chr => by
      simpa using matchCharLoop_bounds chr false 0 h.from_ne_nil hany
    -- a range with a code point of the interval meets it
    have hmeets : ∀ c : Char, (s.low ≤ c.toNat ∧ c.toNat ≤ s.high) →
        (∃ b ∈ charBounds (rules.from pos), b.1 ≤ c.toNat ∧ c.toNat ≤ b.2) →
        ∃ b ∈ charBounds (rules.from pos), Meets s.low s.high b := by
      rintro c hc ⟨b, hb, hlow, hhigh⟩
      exact ⟨b, hb, hlow.trans hc.2, hc.1.trans hhigh⟩
    simp only [Bool.false_eq_true, false_or]
    cases hpositive : isPositiveChar (rules.at pos) with
    | true =>
      rw [hpositive] at hloop
      rw [hloop, if_pos rfl]
      simp only [hmatch]
      constructor
      · intro hexact hsome
        obtain ⟨c, hc, b, hb, hin⟩ := hexact.mp hsome
        exact ⟨b, hb, c, hc, hin⟩
      · intro hsettle
        constructor
        · intro hsome
          obtain ⟨b, hb, c, hc, hin⟩ := hsettle hsome
          exact ⟨c, hc, b, hb, hin⟩
        · rintro ⟨c, hc, hin⟩
          exact hmeets c hc hin
    | false =>
      rw [hpositive] at hloop
      rw [← Bool.not_eq_false, hloop, if_neg Bool.false_ne_true]
      simp only [← Bool.not_eq_true, hmatch]
      constructor
      · intro hexact hsome c hc
        by_contra hnot
        exact hexact.mpr ⟨c, hc, hnot⟩ hsome
      · intro hsettle
        constructor
        · exact fun hnone => ⟨c₀, hc₀, fun hin => hnone (hmeets c₀ hc₀ hin)⟩
        · rintro ⟨c, hc, hnot⟩ hsome
          exact hnot (hsettle hsome c hc)

end Exact

/-! ## One range that rejects everything -/

def notEAcute : GrammarRules := [[⟨.charNot, 0xE9⟩, ⟨.endOfRule, 0⟩]]

/-- Behind the byte C3, which starts the letters from `À` to `ÿ`, `[^é]` takes nothing. -/
theorem negatedClass_rejects :
    ¬∀ (rules : GrammarRules) (pos : GrammarPos) (s : PartialUtf8),
      AtCharRange rules pos → PartialOf s → PartialExact rules pos s := by
  intro h
  have hs : PartialOf ⟨3, 1⟩ := ⟨by decide, ['é'], [0xC3], [0xA9], by decide, by decide⟩
  have hexact := h notEAcute ⟨0, 0⟩ ⟨3, 1⟩ (.inr (.inl (by decide))) hs
  have htaken : Completes ⟨3, 1⟩ 'è' := ⟨by decide, [0xC3], [0xA8], by decide, by decide⟩
  have hyes := hexact.mpr ⟨'è', htaken, ⟨0, 1⟩, by decide⟩
  exact absurd hyes (by decide)

/-- `[a-z]` and the first byte of a letter outside of it -/
theorem matchPartialChar_exact_iff_letters :
    AtCharRange [[⟨.char, 97⟩, ⟨.charRngUpper, 122⟩, ⟨.endOfRule, 0⟩]] ⟨0, 0⟩ ∧ PartialOf ⟨3, 1⟩ ∧
      (PartialExact [[⟨.char, 97⟩, ⟨.charRngUpper, 122⟩, ⟨.endOfRule, 0⟩]] ⟨0, 0⟩ ⟨3, 1⟩ ↔
        RangesSettle [[⟨.char, 97⟩, ⟨.charRngUpper, 122⟩, ⟨.endOfRule, 0⟩]] ⟨0, 0⟩ ⟨3, 1⟩) :=
  have hs : PartialOf ⟨3, 1⟩ := ⟨by decide, ['é'], [0xC3], [0xA9], by decide, by decide⟩
  ⟨.inl (by decide), hs, matchPartialChar_exact_iff (.inl (by decide)) hs⟩

end LlamaCpp
