import LlamaCpp.Grammar.Utf8

/-!
# Reading one code point

`common_parse_utf8_codepoint` of unicode.cpp.  On a text it reads one character after the other
(`parseUtf8Codepoint_char`); inside a character it refuses (`boundary_or_invalid`).  So the bytes of
a text are found in another one between characters only (`prefix_drop_encode_iff`).
-/

namespace LlamaCpp.Peg

open List

inductive Utf8ParseResult where
  | success (codepoint bytesConsumed : Nat)
  | incomplete
  | invalid

/-- `common_parse_utf8_codepoint` of the bytes from the offset on.  A test of a bit is a remainder,
and `(b & 0xc0) != 0x80` is `b / 64 ≠ 2`. -/
def parseCodepointFrom : List UInt8 → Utf8ParseResult
  | [] => .incomplete
  | b₀ :: rest =>
    if b₀.toNat / 0x80 % 2 = 0 then .success b₀.toNat 1
    else if b₀.toNat / 0x40 % 2 = 0 then .invalid
    else if b₀.toNat / 0x20 % 2 = 0 then
      match rest with
      | b₁ :: _ =>
        if b₁.toNat / 64 ≠ 2 then .invalid
        else .success (b₀.toNat % 0x20 * 64 + b₁.toNat % 64) 2
      | _ => .incomplete
    else if b₀.toNat / 0x10 % 2 = 0 then
      match rest with
      | b₁ :: b₂ :: _ =>
        if b₁.toNat / 64 ≠ 2 ∨ b₂.toNat / 64 ≠ 2 then .invalid
        else .success (b₀.toNat % 0x10 * 64 ^ 2 + b₁.toNat % 64 * 64 + b₂.toNat % 64) 3
      | _ => .incomplete
    else if b₀.toNat / 0x08 % 2 = 0 then
      match rest with
      | b₁ :: b₂ :: b₃ :: _ =>
        if b₁.toNat / 64 ≠ 2 ∨ b₂.toNat / 64 ≠ 2 ∨ b₃.toNat / 64 ≠ 2 then .invalid
        else .success (b₀.toNat % 0x08 * 64 ^ 3 + b₁.toNat % 64 * 64 ^ 2 + b₂.toNat % 64 * 64 + b₃.toNat % 64) 4
      | _ => .incomplete
    else .invalid

def parseUtf8Codepoint (input : List UInt8) (offset : Nat) : Utf8ParseResult :=
  parseCodepointFrom (input.drop offset)

/-! ## Texts -/

/-- The bytes of a text. -/
def encode (text : List Char) : List UInt8 := text.flatMap String.utf8EncodeChar

@[simp] theorem encode_nil : encode [] = [] := rfl

@[simp] theorem encode_cons (c : Char) (text : List Char) :
    encode (c :: text) = String.utf8EncodeChar c ++ encode text := rfl

@[simp] theorem encode_append (a b : List Char) : encode (a ++ b) = encode a ++ encode b := flatMap_append

theorem continuation_toNat (n : Nat) : (UInt8.ofNat (n % 64 + 0x80)).toNat = n % 64 + 0x80 :=
  UInt8.toNat_ofNat_of_lt' (show n % 64 + 0x80 < 256 by omega)

theorem parseCodepointFrom_char (c : Char) (rest : List UInt8) :
    parseCodepointFrom (String.utf8EncodeChar c ++ rest) = .success c.toNat (String.utf8EncodeChar c).length := by
  obtain ⟨x, k, hx, hclass, heq, hvalue, hlead⟩ := utf8EncodeChar_lead c
  have hx : (UInt8.ofNat x).toNat = x := UInt8.toNat_ofNat_of_lt' hx
  have hlt := char_toNat_lt c
  rw [heq]
  rcases k with _ | _ | _ | _ | k
  · change (if (UInt8.ofNat x).toNat / 0x80 % 2 = 0 then _ else _) = _
    rw [hx, if_pos (by omega)]
    congr 1
    omega
  · simp only [continuationBytes, Nat.pow_zero, Nat.div_one, cons_append, parseCodepointFrom, hx, continuation_toNat]
    rw [if_neg (by omega), if_neg (by omega), if_pos (by omega), if_neg (by omega)]
    refine congrArg (Utf8ParseResult.success · 2) ?_
    omega
  · simp only [continuationBytes, Nat.pow_zero, Nat.pow_one, Nat.div_one, cons_append, parseCodepointFrom,
      hx, continuation_toNat]
    rw [if_neg (by omega), if_neg (by omega), if_neg (by omega), if_pos (by omega), if_neg (by omega)]
    refine congrArg (Utf8ParseResult.success · 3) ?_
    omega
  · simp only [continuationBytes, Nat.pow_zero, Nat.pow_one, Nat.div_one, cons_append, parseCodepointFrom,
      hx, continuation_toNat]
    rw [if_neg (by omega), if_neg (by omega), if_neg (by omega), if_neg (by omega), if_pos (by omega),
      if_neg (by omega)]
    refine congrArg (Utf8ParseResult.success · 4) ?_
    omega
  · exact hclass.elim

theorem parseUtf8Codepoint_char (front : List UInt8) (c : Char) (rest : List UInt8) :
    parseUtf8Codepoint (front ++ (String.utf8EncodeChar c ++ rest)) front.length =
      .success c.toNat (String.utf8EncodeChar c).length := by
  rw [parseUtf8Codepoint, drop_left]
  exact parseCodepointFrom_char c rest

theorem continuation_of_mem {n k : Nat} {b : UInt8} (h : b ∈ continuationBytes n k) : b.toNat / 64 = 2 := by
  induction k with
  | zero => cases h
  | succ k ih =>
    rcases mem_cons.mp h with rfl | h
    · rw [continuation_toNat]
      omega
    · exact ih h

/-- An offset in a text is between two characters, or the reader refuses it. -/
theorem boundary_or_invalid {text : List Char} {p : Nat} (hp : p ≤ (encode text).length) :
    (∃ front rest, text = front ++ rest ∧ p = (encode front).length) ∨
      parseUtf8Codepoint (encode text) p = .invalid := by
  induction text generalizing p with
  | nil => exact .inl ⟨[], [], rfl, Nat.le_zero.mp hp⟩
  | cons c text ih =>
    rw [encode_cons] at hp ⊢
    rw [length_append] at hp
    rcases Nat.eq_zero_or_pos p with rfl | hpos
    · exact .inl ⟨[], c :: text, rfl, rfl⟩
    · rcases Nat.lt_or_ge p (String.utf8EncodeChar c).length with hlt | hge
      · obtain ⟨x, k, -, -, heq, -⟩ := utf8EncodeChar_lead c
        refine .inr ?_
        rw [parseUtf8Codepoint, drop_append_of_le_length hlt.le]
        have hne : (String.utf8EncodeChar c).drop p ≠ [] := drop_eq_nil_iff.not.mpr (Nat.not_le.mpr hlt)
        obtain ⟨b, bs, hdrop⟩ := exists_cons_of_ne_nil hne
        have hb : b ∈ continuationBytes c.toNat k := by
          obtain ⟨i, rfl⟩ := Nat.exists_eq_succ_of_ne_zero hpos.ne'
          rw [heq, drop_succ_cons] at hdrop
          exact mem_of_mem_drop (hdrop ▸ mem_cons_self)
        have hcont := continuation_of_mem hb
        rw [hdrop]
        change (if b.toNat / 0x80 % 2 = 0 then _ else _) = _
        rw [if_neg (by omega), if_pos (by omega)]
      · obtain ⟨i, rfl⟩ := Nat.exists_eq_add_of_le hge
        rcases ih (p := i) (by omega) with ⟨front, rest, rfl, rfl⟩ | hinvalid
        · exact .inl ⟨c :: front, rest, rfl, by rw [encode_cons, length_append]⟩
        · refine .inr ?_
          rw [parseUtf8Codepoint, drop_append, drop_eq_nil_of_le (Nat.le_add_right _ i), Nat.add_sub_cancel_left]
          exact hinvalid

theorem encode_prefix_iff {a b : List Char} : encode a <+: encode b ↔ a <+: b := by
  constructor
  · intro h
    induction a generalizing b with
    | nil => exact nil_prefix
    | cons c a ih =>
      obtain ⟨tail, htail⟩ := h
      rw [encode_cons, append_assoc] at htail
      have hread := parseCodepointFrom_char c (encode a ++ tail)
      rw [htail] at hread
      cases b with
      | nil => cases hread
      | cons d b =>
        rw [encode_cons, parseCodepointFrom_char, Utf8ParseResult.success.injEq, Char.toNat_inj] at hread
        obtain ⟨rfl, -⟩ := hread
        exact cons_prefix_cons.mpr ⟨rfl, ih ⟨tail, append_cancel_left htail⟩⟩
  · rintro ⟨rest, rfl⟩
    exact ⟨encode rest, (encode_append a rest).symm⟩

/-- A text is found in another one between two characters. -/
theorem prefix_drop_encode_iff {d text : List Char} (hd : d ≠ []) {p : Nat} :
    encode d <+: (encode text).drop p ↔
      ∃ front rest, text = front ++ rest ∧ p = (encode front).length ∧ d <+: rest := by
  constructor
  · intro h
    obtain ⟨c, d, rfl⟩ := exists_cons_of_ne_nil hd
    obtain ⟨tail, htail⟩ := id h
    rw [encode_cons, append_assoc] at htail
    have hread := parseCodepointFrom_char c (encode d ++ tail)
    rw [htail] at hread
    have hp : p ≤ (encode text).length := by
      by_contra hlt
      rw [drop_eq_nil_of_le (Nat.le_of_not_le hlt)] at hread
      cases hread
    rcases boundary_or_invalid hp with ⟨front, rest, rfl, rfl⟩ | hinvalid
    · refine ⟨front, rest, rfl, rfl, encode_prefix_iff.mp ?_⟩
      rwa [encode_append, drop_left] at h
    · rw [parseUtf8Codepoint, hread] at hinvalid
      cases hinvalid
  · rintro ⟨front, rest, rfl, rfl, h⟩
    rw [encode_append, drop_left]
    exact encode_prefix_iff.mpr h

end LlamaCpp.Peg
