import LlamaCpp.Grammar.Tokens

/-!
# Decoding UTF-8 in pieces

`decode_utf8` takes up a sequence where the last piece left it.  `Decodes` follows the
bytes one at a time, whichever of the two loops reads them; it splits at any byte, and
so the code points do not depend on where a text is cut (`decodePieces_text`).
-/

namespace LlamaCpp

open List

/-! ## One byte at a time -/

/-- The incomplete sequence behind one more byte. -/
def PartialUtf8.next (s : PartialUtf8) (byte : UInt8) : PartialUtf8 :=
  if 0 < s.nRemain then ⟨utf8Append s.value byte, s.nRemain - 1⟩
  else
    let nRemain := utf8Lookup.getD (byte.toNat / 16) 0 - 1
    ⟨byte.toNat % 2 ^ (7 - nRemain).toNat, nRemain⟩

/-- The byte may stand behind the incomplete sequence. -/
def PartialUtf8.Takes (s : PartialUtf8) (byte : UInt8) : Prop :=
  byte ≠ 0 ∧
    if 0 < s.nRemain then byte.toNat / 64 = 2
    else ¬utf8Lookup.getD (byte.toNat / 16) 0 - 1 < 0

/-- The code point that is complete with the last byte. -/
def PartialUtf8.complete (s : PartialUtf8) : List Nat := if s.nRemain = 0 then [s.value] else []

/-- The bytes can be read from `s` on and give the code points. -/
inductive Decodes : PartialUtf8 → List UInt8 → List Nat → PartialUtf8 → Prop
  | nil (s : PartialUtf8) : Decodes s [] [] s
  | cons {s s' : PartialUtf8} {byte : UInt8} {bytes : List UInt8} {codePoints : List Nat} :
      s.Takes byte → Decodes (s.next byte) bytes codePoints s' →
        Decodes s (byte :: bytes) ((s.next byte).complete ++ codePoints) s'

namespace Decodes

variable {s s' s₁ : PartialUtf8} {xs ys : List UInt8} {codePoints cs cs' : List Nat}

theorem append (hxs : Decodes s xs cs s₁) (hys : Decodes s₁ ys cs' s') : Decodes s (xs ++ ys) (cs ++ cs') s' := by
  induction hxs with
  | nil s => exact hys
  | cons htakes _ ih =>
    rw [append_assoc]
    exact .cons htakes (ih hys)

/-- The bytes may be cut anywhere. -/
theorem split (h : Decodes s (xs ++ ys) codePoints s') :
    ∃ cs cs' s₁, codePoints = cs ++ cs' ∧ Decodes s xs cs s₁ ∧ Decodes s₁ ys cs' s' := by
  induction xs generalizing s codePoints with
  | nil => exact ⟨[], codePoints, s, rfl, .nil s, h⟩
  | cons x xs ih =>
    cases h with
    | cons htakes hrest =>
      obtain ⟨cs, cs', s₁, rfl, hxs, hys⟩ := ih hrest
      exact ⟨_, cs', s₁, (append_assoc _ cs cs').symm, .cons htakes hxs, hys⟩

/-- The second loop of `decode_utf8` passes the bytes. -/
theorem decodeSequences_append (h : Decodes s xs codePoints s') (ys : List UInt8) (before : List Nat) :
    decodeSequences (xs ++ ys) s.value s.nRemain before =
      decodeSequences ys s'.value s'.nRemain (before ++ codePoints) := by
  induction h generalizing before with
  | nil s => simp
  | @cons s s' byte bytes codePoints htakes _ ih =>
    obtain ⟨hne, htakes⟩ := htakes
    have hrest := ih (before ++ (s.next byte).complete)
    rw [append_assoc] at hrest
    rw [cons_append, decodeSequences, if_neg hne]
    by_cases hremain : 0 < s.nRemain
    · have hnext : s.next byte = ⟨utf8Append s.value byte, s.nRemain - 1⟩ := if_pos hremain
      rw [hnext] at hrest ⊢
      rw [if_pos hremain]
      refine Eq.trans ?_ hrest
      unfold PartialUtf8.complete
      split <;> simp
    · rw [if_neg hremain] at htakes
      have hnext : s.next byte = ⟨byte.toNat % 2 ^ (7 - (utf8Lookup.getD (byte.toNat / 16) 0 - 1)).toNat,
        utf8Lookup.getD (byte.toNat / 16) 0 - 1⟩ := if_neg hremain
      rw [hnext] at hrest ⊢
      rw [if_neg hremain]
      simp only [if_neg htakes]
      refine Eq.trans ?_ hrest
      unfold PartialUtf8.complete
      split <;> simp

theorem decodeSequences_eq (h : Decodes s xs codePoints s') (before : List Nat) :
    decodeSequences xs s.value s.nRemain before = (before ++ codePoints ++ [0], s') := by
  have hall := h.decodeSequences_append [] before
  rwa [append_nil] at hall

/-- The first loop of `decode_utf8`, which ends when the sequence is complete. -/
theorem continueSequence_eq (h : Decodes s xs codePoints s') (start : PartialUtf8)
    (hstart : 0 < s.nRemain → 0 < start.nRemain) :
    continueSequence start xs s.value s.nRemain =
      ((if 0 < start.nRemain ∧ s.nRemain = 0 then [s.value] else []) ++ codePoints ++ [0], s') := by
  induction h with
  | nil s => simp [continueSequence, decodeSequences]
  | @cons s s' byte bytes codePoints htakes hrest ih =>
    obtain ⟨hne, hcont⟩ := id htakes
    unfold continueSequence
    by_cases hremain : 0 < s.nRemain
    · rw [if_pos hremain] at hcont
      have hnext : s.next byte = ⟨utf8Append s.value byte, s.nRemain - 1⟩ := if_pos hremain
      have hpos := hstart hremain
      have hrest := ih fun _ => hpos
      rw [hnext] at hrest ⊢
      have hzero : s.nRemain ≠ 0 := by omega
      simp [hne, hremain, hcont, hpos, hzero, hrest, PartialUtf8.complete]
    · have hall := (Decodes.cons htakes hrest).decodeSequences_eq
        (if 0 < start.nRemain ∧ s.nRemain = 0 then [s.value] else [])
      simpa [hremain] using hall

/-- Whichever loop reads a byte, `decode_utf8` reads the same. -/
theorem decodeUtf8_eq (h : Decodes s xs codePoints s') : decodeUtf8 xs s = (codePoints ++ [0], s') := by
  have hrun := h.continueSequence_eq s id
  rw [if_neg (by omega)] at hrun
  exact hrun

end Decodes

/-! ## The bytes of a character -/

/-- The last `k` bytes of a sequence that encodes `n`. -/
def continuationBytes (n : Nat) : Nat → List UInt8
  | 0 => []
  | k + 1 => UInt8.ofNat (n / 64 ^ k % 64 + 0x80) :: continuationBytes n k

/-- Code points with a sequence of `k` continuation bytes. -/
def InClass (n : Nat) : Nat → Prop
  | 0 => n < 0x80
  | 1 => 0x80 ≤ n ∧ n < 0x800
  | 2 => 0x800 ≤ n ∧ n < 0x10000
  | 3 => 0x10000 ≤ n ∧ n < 0x110000
  | _ => False

theorem continuation_takes {n k : Nat} (hn : n < 2 ^ 32) :
    let byte := UInt8.ofNat (n / 64 ^ k % 64 + 0x80)
    let s : PartialUtf8 := ⟨n / 64 ^ (k + 1), (k + 1 : Nat)⟩
    s.Takes byte ∧ s.next byte = ⟨n / 64 ^ k, k⟩ := by
  intro byte s
  have hbyte : byte.toNat = n / 64 ^ k % 64 + 0x80 := by
    rw [UInt8.toNat_ofNat']
    omega
  have hpos : 0 < s.nRemain := by
    change (0 : Int) < (k + 1 : Nat)
    omega
  have hvalue : n / 64 ^ (k + 1) = n / 64 ^ k / 64 := by rw [Nat.pow_succ, Nat.div_div_eq_div_mul]
  have hle : n / 64 ^ k ≤ n := Nat.div_le_self n _
  refine ⟨⟨?_, ?_⟩, ?_⟩
  · intro hzero
    rw [hzero] at hbyte
    simp at hbyte
  · rw [if_pos hpos, hbyte]
    omega
  · unfold PartialUtf8.next
    rw [if_pos hpos]
    have happend : utf8Append s.value byte = n / 64 ^ k := by
      unfold utf8Append
      change (n / 64 ^ (k + 1) * 64 + byte.toNat % 64) % 2 ^ 32 = n / 64 ^ k
      rw [hvalue, hbyte]
      omega
    have hremain : s.nRemain - 1 = k := by
      change ((k + 1 : Nat) : Int) - 1 = k
      omega
    rw [happend, hremain]

theorem continuationBytes_length (n k : Nat) : (continuationBytes n k).length = k := by
  induction k with
  | zero => rfl
  | succ k ih => rw [continuationBytes, length_cons, ih]

/-- All but the last `j` continuation bytes leave `j` to read. -/
theorem decodes_continuationBytes {n : Nat} (hn : n < 2 ^ 32) {k j : Nat} (hj : j ≤ k) :
    ∃ xs, continuationBytes n k = xs ++ continuationBytes n j ∧
      Decodes ⟨n / 64 ^ k, k⟩ xs (if j = 0 ∧ j < k then [n] else []) ⟨n / 64 ^ j, j⟩ := by
  induction k with
  | zero =>
    obtain rfl := Nat.le_zero.mp hj
    exact ⟨[], rfl, .nil _⟩
  | succ k ih =>
    rcases Nat.lt_or_ge k j with hlast | hless
    · obtain rfl : j = k + 1 := by omega
      refine ⟨[], rfl, ?_⟩
      rw [if_neg (by omega)]
      exact .nil _
    · obtain ⟨xs, heq, hrest⟩ := ih hless
      obtain ⟨htakes, hnext⟩ := continuation_takes (k := k) hn
      refine ⟨_ :: xs, congrArg (_ :: ·) heq, ?_⟩
      rw [← hnext] at hrest
      have hall := Decodes.cons htakes hrest
      rw [hnext] at hall
      convert hall using 1
      unfold PartialUtf8.complete
      by_cases hk : k = 0
      · obtain rfl := Nat.le_zero.mp (hk ▸ hless)
        simp [hk]
      · have hremain : (k : Int) ≠ 0 := by omega
        rw [if_neg hremain, nil_append]
        congr 1
        exact propext ⟨fun h => ⟨h.1, by omega⟩, fun h => ⟨h.1, by omega⟩⟩

theorem char_toNat_lt (c : Char) : c.toNat < 0x110000 := by
  have hvalid : c.toNat < 0xd800 ∨ 0xdfff < c.toNat ∧ c.toNat < 0x110000 := c.valid
  omega

section Lead

variable {n x k : Nat}

theorem lead_takes (hx : x < 256) (hpos : 0 < x) (hlookup : utf8Lookup.getD (x / 16) 0 = k + 1)
    (hvalue : x % 2 ^ (7 - k) = n / 64 ^ k) (s : PartialUtf8) (hs : ¬0 < s.nRemain) :
    s.Takes (UInt8.ofNat x) ∧ s.next (UInt8.ofNat x) = ⟨n / 64 ^ k, k⟩ := by
  have hne : UInt8.ofNat x ≠ 0 := by
    intro hzero
    have hnat := congrArg UInt8.toNat hzero
    rw [UInt8.toNat_ofNat_of_lt' hx] at hnat
    exact hpos.ne' hnat
  have hremain : utf8Lookup.getD ((UInt8.ofNat x).toNat / 16) 0 - 1 = k := by
    rw [UInt8.toNat_ofNat_of_lt' hx]
    omega
  refine ⟨⟨hne, ?_⟩, ?_⟩
  · rw [if_neg hs, hremain]
    omega
  · unfold PartialUtf8.next
    have hexp : (7 - (k : Int)).toNat = 7 - k := by omega
    rw [if_neg hs, hremain]
    simp only [hexp, UInt8.toNat_ofNat_of_lt' hx, hvalue]

/-- The first byte of a longer sequence. -/
theorem longLead_takes (hx : x < 256) (hlow : 0xc0 ≤ x) (hk : k = max 1 (x / 16 - 12))
    (hvalue : x % 2 ^ (7 - k) = n / 64 ^ k) (s : PartialUtf8) (hs : ¬0 < s.nRemain) :
    s.Takes (UInt8.ofNat x) ∧ s.next (UInt8.ofNat x) = ⟨n / 64 ^ k, k⟩ := by
  refine lead_takes hx (by omega) ?_ hvalue s hs
  obtain hb | hb | hb | hb : x / 16 = 12 ∨ x / 16 = 13 ∨ x / 16 = 14 ∨ x / 16 = 15 := by omega
  all_goals
    rw [hb] at hk ⊢
    subst hk
    rfl

end Lead

/-- A first byte and the continuation bytes -/
theorem utf8EncodeChar_lead (c : Char) : ∃ x k, x < 256 ∧ InClass c.toNat k ∧
    String.utf8EncodeChar c = UInt8.ofNat x :: continuationBytes c.toNat k ∧
    x % 2 ^ (7 - k) = c.toNat / 64 ^ k ∧ (k = 0 ∧ x < 0x80 ∨ 0xc0 ≤ x ∧ k = max 1 (x / 16 - 12)) := by
  have hlt := char_toNat_lt c
  unfold String.utf8EncodeChar
  change ∃ x k, x < 256 ∧ _ ∧ (if c.toNat ≤ 0x7f then _ else _) = _ ∧ _
  split
  · next hone =>
    refine ⟨c.toNat, 0, by omega, Nat.lt_of_le_of_lt hone (by decide), rfl, ?_, .inl ⟨rfl, by omega⟩⟩
    change c.toNat % 128 = c.toNat / 1
    omega
  · next hone =>
    split
    · next htwo =>
      change c.toNat ≤ 0x7ff at htwo
      refine ⟨c.toNat / 64 % 0x20 + 0xc0, 1, by omega, ⟨by omega, by omega⟩, ?_, ?_, .inr (by omega)⟩
      · exact congrArg (_ :: ·) (by simp [continuationBytes])
      · change _ % 64 = c.toNat / 64
        omega
    · next htwo =>
      change ¬c.toNat ≤ 0x7ff at htwo
      split
      · next hthree =>
        change c.toNat ≤ 0xffff at hthree
        refine ⟨c.toNat / 4096 % 0x10 + 0xe0, 2, by omega, ⟨by omega, by omega⟩, ?_, ?_, .inr (by omega)⟩
        · exact congrArg (_ :: ·) (by simp [continuationBytes])
        · change _ % 32 = c.toNat / 4096
          omega
      · next hthree =>
        change ¬c.toNat ≤ 0xffff at hthree
        refine ⟨c.toNat / 262144 % 0x08 + 0xf0, 3, by omega, ⟨by omega, by omega⟩, ?_, ?_, .inr (by omega)⟩
        · exact congrArg (_ :: ·) (by simp [continuationBytes])
        · change _ % 16 = c.toNat / 262144
          omega

/-- Between characters, a first byte begins one. -/
theorem utf8EncodeChar_eq (c : Char) : ∃ lead k, InClass c.toNat k ∧
    String.utf8EncodeChar c = lead :: continuationBytes c.toNat k ∧
    (c ≠ '\x00' → ∀ s : PartialUtf8, ¬0 < s.nRemain → s.Takes lead ∧ s.next lead = ⟨c.toNat / 64 ^ k, k⟩) := by
  obtain ⟨x, k, hx, hclass, heq, hvalue, ⟨rfl, hlow⟩ | ⟨hlow, hk⟩⟩ := utf8EncodeChar_lead c
  · refine ⟨_, 0, hclass, heq, fun hc => lead_takes hx ?_ ?_ hvalue⟩
    · refine Nat.pos_of_ne_zero fun hzero => hc (Char.toNat_inj.mp ?_)
      change c.toNat < 0x80 at hclass
      change x % 128 = c.toNat / 1 at hvalue
      change c.toNat = 0
      omega
    · have hascii : ∀ b < 8, utf8Lookup.getD b 0 = ((0 : Nat) : Int) + 1 := by decide
      exact hascii _ (by omega)
  · exact ⟨_, k, hclass, heq, fun _ => longLead_takes hx hlow hk hvalue⟩

variable {s : PartialUtf8}

/-- Behind a proper part of a character, the rest of it is to be read. -/
theorem decodes_part {c : Char} (hc : c ≠ '\x00') {front back : List UInt8}
    (hcut : String.utf8EncodeChar c = front ++ back) (hfront : front ≠ []) (hs : ¬0 < s.nRemain) :
    Decodes s front (if back = [] then [c.toNat] else [])
      ⟨c.toNat / 64 ^ back.length, back.length⟩ := by
  obtain ⟨lead, k, hclass, heq, hlead⟩ := utf8EncodeChar_eq c
  obtain ⟨htakes, hnext⟩ := hlead hc s hs
  have hlt : c.toNat < 2 ^ 32 := by
    rcases k with _ | _ | _ | _ | k <;> simp only [InClass] at hclass <;> omega
  rw [heq] at hcut
  cases front with
  | nil => exact absurd rfl hfront
  | cons x xs =>
    obtain ⟨rfl, htail⟩ := List.cons.inj hcut
    have htail : continuationBytes c.toNat k = xs ++ back := htail
    have hlen := congrArg List.length htail
    rw [continuationBytes_length, length_append] at hlen
    obtain ⟨ys, hys, hrest⟩ := decodes_continuationBytes hlt (show back.length ≤ k by omega)
    have hsame : ys = xs ∧ continuationBytes c.toNat back.length = back :=
      append_inj' (hys.symm.trans htail) (continuationBytes_length _ _)
    obtain ⟨rfl, -⟩ := hsame
    rw [← hnext] at hrest
    convert Decodes.cons htakes hrest using 1
    rw [hnext]
    unfold PartialUtf8.complete
    cases back with
    | nil =>
      cases ys with
      | nil =>
        obtain rfl : k = 0 := by simpa using hlen
        simp
      | cons y ys =>
        have hk : k ≠ 0 := by
          rw [length_cons] at hlen
          omega
        have hpos : 0 < k := by omega
        simp [hk, hpos]
    | cons b back =>
      have hk : k ≠ 0 := by
        rw [length_cons] at hlen
        omega
      simp [hk]

/-- A text gives its code points. -/
theorem decodes_text (text : List Char) (hnul : ∀ c ∈ text, c ≠ '\x00') (hs : s.nRemain = 0) :
    ∃ s', s'.nRemain = 0 ∧ Decodes s (text.flatMap String.utf8EncodeChar) (text.map Char.toNat) s' := by
  induction text generalizing s with
  | nil => exact ⟨s, hs, .nil s⟩
  | cons c text ih =>
    have hone := decodes_part (hnul c mem_cons_self) (append_nil _).symm
      String.utf8EncodeChar_ne_nil (s := s) (by omega)
    obtain ⟨s', hs', hrest⟩ := ih (fun c hc => hnul c (mem_cons_of_mem _ hc))
      (s := ⟨c.toNat / 64 ^ 0, 0⟩) rfl
    exact ⟨s', hs', hone.append hrest⟩

/-! ## A text in pieces -/

/-- The pieces in order, each without the 0 that ends its code points. -/
def decodePieces : List (List UInt8) → PartialUtf8 → List Nat × PartialUtf8
  | [], s => ([], s)
  | piece :: pieces, s =>
    let decoded := decodeUtf8 piece s
    let rest := decodePieces pieces decoded.2
    (decoded.1.dropLast ++ rest.1, rest.2)

theorem Decodes.decodePieces_eq {s' : PartialUtf8} {codePoints : List Nat} (pieces : List (List UInt8))
    (h : Decodes s pieces.flatten codePoints s') : decodePieces pieces s = (codePoints, s') := by
  induction pieces generalizing s codePoints with
  | nil =>
    cases h
    rfl
  | cons piece pieces ih =>
    obtain ⟨cs, cs', s₁, rfl, hpiece, hrest⟩ := h.split
    simp [decodePieces, hpiece.decodeUtf8_eq, ih hrest]

/-- The pieces of a text, wherever it is cut, give its code points, and nothing is left over. -/
theorem decodePieces_text (text : List Char) (hnul : ∀ c ∈ text, c ≠ '\x00')
    (pieces : List (List UInt8)) (hcut : pieces.flatten = text.flatMap String.utf8EncodeChar) :
    (decodePieces pieces ⟨0, 0⟩).1 = text.map Char.toNat ∧
      (decodePieces pieces ⟨0, 0⟩).2.nRemain = 0 := by
  obtain ⟨s', hs', h⟩ := decodes_text text hnul (s := ⟨0, 0⟩) rfl
  rw [← hcut] at h
  rw [h.decodePieces_eq]
  exact ⟨rfl, hs'⟩

/-- `é` and `€`, cut inside both. -/
theorem decodePieces_twoChars :
    (decodePieces [[0xC3], [], [0xA9, 0xE2], [0x82], [0xAC]] ⟨0, 0⟩).1 = [0xE9, 0x20AC] ∧
      (decodePieces [[0xC3], [], [0xA9, 0xE2], [0x82], [0xAC]] ⟨0, 0⟩).2.nRemain = 0 :=
  decodePieces_text ['é', '€'] (by simp) _ rfl

end LlamaCpp
