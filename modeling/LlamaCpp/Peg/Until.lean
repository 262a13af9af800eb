import LlamaCpp.Common.Trie
import LlamaCpp.Peg.Codepoint

/-!
# The until parser

`operator()(const common_peg_until_parser &)` of peg-parser.cpp, with `common_trie::check_at` of
trie.cpp.  At each character the scan asks the trie of the delimiters; it stops also where the rest
of the input is the beginning of a delimiter, in a complete input as in a partial one
(`stops_iff`).  So on a complete input it ends at the first delimiter exactly if no delimiter is cut
off by the end (`until_exact_iff`).
-/

namespace LlamaCpp

open Peg List

namespace CommonTrie

inductive MatchResult where
  | noMatch
  | partialMatch
  | completeMatch

/-- `insert(const std::string &)`: the symbols up to the first byte that is not UTF-8. -/
def symbols (word : List UInt8) : Nat → Nat → List Nat
  | 0, _ => []
  | fuel + 1, pos =>
    if pos < word.length then
      match parseUtf8Codepoint word pos with
      | .success codepoint bytesConsumed => codepoint :: symbols word fuel (pos + bytesConsumed)
      | _ => []
    else []

/-- `common_trie(words)` -/
def ofWords (words : List (List UInt8)) : CommonTrie :=
  (insertAll (words.map fun w => symbols w w.length 0)).1

/-- The loop of `check_at`, for at most `fuel` characters. -/
def checkFrom (t : CommonTrie) (sv : List UInt8) : Nat → Nat → Nat → MatchResult
  | 0, current, _ => if current ≠ 0 then .partialMatch else .noMatch
  | fuel + 1, current, pos =>
    let atEnd := if current ≠ 0 then MatchResult.partialMatch else .noMatch
    if pos < sv.length then
      match parseUtf8Codepoint sv pos with
      | .success codepoint bytesConsumed =>
        match t.child current codepoint with
        | none => .noMatch
        | some child =>
          if 0 ≤ (t.nodes child).pattern then .completeMatch
          else checkFrom t sv fuel child (pos + bytesConsumed)
      | _ => atEnd
    else atEnd

def checkAt (t : CommonTrie) (sv : List UInt8) (startPos : Nat) : MatchResult :=
  t.checkFrom sv sv.length 0 startPos

/-! ## What the trie answers -/

theorem length_encode_append (front : List Char) (c : Char) :
    (encode front).length + (String.utf8EncodeChar c).length = (encode (front ++ [c])).length := by
  simp

theorem lt_length_encode (front : List Char) (c : Char) (rest : List Char) :
    (encode front).length < (encode (front ++ c :: rest)).length := by
  have hpos := length_pos_of_ne_nil (String.utf8EncodeChar_ne_nil (c := c))
  simp only [encode_append, encode_cons, length_append]
  omega

theorem parse_encode (front : List Char) (c : Char) (rest : List Char) :
    parseUtf8Codepoint (encode (front ++ c :: rest)) (encode front).length =
      .success c.toNat (String.utf8EncodeChar c).length := by
  rw [encode_append, encode_cons]
  exact parseUtf8Codepoint_char (encode front) c (encode rest)

theorem symbols_encode (front : List Char) {d : List Char} {fuel : Nat} (hfuel : d.length ≤ fuel) :
    symbols (encode (front ++ d)) fuel (encode front).length = d.map Char.toNat := by
  induction d generalizing front fuel with
  | nil =>
    cases fuel with
    | zero => rfl
    | succ fuel => rw [symbols, append_nil, if_neg (Nat.lt_irrefl _), map_nil]
  | cons c d ih =>
    obtain ⟨fuel, rfl⟩ := Nat.exists_eq_succ_of_ne_zero (Nat.ne_zero_of_lt hfuel)
    rw [symbols, if_pos (lt_length_encode front c d), parse_encode]
    dsimp only
    rw [length_encode_append, append_cons, ih _ (Nat.le_of_succ_le_succ hfuel), map_cons]

theorem length_le_encode (text : List Char) : text.length ≤ (encode text).length := by
  induction text with
  | nil => exact Nat.le_refl 0
  | cons c text ih =>
    have hpos := length_pos_of_ne_nil (String.utf8EncodeChar_ne_nil (c := c))
    rw [encode_cons, length_append, length_cons]
    omega

theorem holds_ofWords (delimiters : List (List Char)) : ∃ word patterns,
    (ofWords (delimiters.map encode)).Holds word patterns ∧
      ∀ p, p ∈ patterns ↔ ∃ d ∈ delimiters, p = d.map Char.toNat := by
  obtain ⟨word, patterns, hholds, hmem, -⟩ :=
    holds_insertAll ((delimiters.map encode).map fun w => symbols w w.length 0)
  refine ⟨word, patterns, hholds, fun p => ?_⟩
  have hsymbols : ∀ d, symbols (encode d) (encode d).length 0 = d.map Char.toNat := fun d =>
    symbols_encode [] (length_le_encode d)
  rw [hmem, List.map_map, List.mem_map]
  refine exists_congr fun d => and_congr_right fun _ => ?_
  rw [Function.comp_apply, hsymbols, eq_comm]

variable {t : CommonTrie} {word : Nat → List Nat} {patterns : List (List Nat)}

/-- From node `u`, the rest of the text completes a pattern, or is the beginning of what follows. -/
theorem checkFrom_ne_noMatch (h : t.Holds word patterns) (front : List Char) {rest : List Char} {fuel u : Nat}
    (hfuel : rest.length ≤ fuel) (hu : u < t.size) (hbefore : ∀ p ∈ patterns, ¬p <+: word u) :
    t.checkFrom (encode (front ++ rest)) fuel u (encode front).length ≠ .noMatch ↔
      word u ++ rest.map Char.toNat ≠ [] ∧
        ∃ p ∈ patterns, p <+: word u ++ rest.map Char.toNat ∨ word u ++ rest.map Char.toNat <+: p := by
  induction rest generalizing front fuel u with
  | nil =>
    have hend : t.checkFrom (encode (front ++ [])) fuel u (encode front).length =
        if u ≠ 0 then .partialMatch else .noMatch := by
      cases fuel with
      | zero => rfl
      | succ fuel => rw [checkFrom, append_nil, if_neg (Nat.lt_irrefl _)]
    have hroot := h.labelled.word_eq_nil_iff hu
    rw [hend, map_nil, append_nil]
    by_cases hzero : u = 0
    · rw [if_neg (not_not.mpr hzero)]
      exact iff_of_false (fun hne => hne rfl) fun hword => hword.1 (hroot.mpr hzero)
    · rw [if_pos hzero]
      refine iff_of_true nofun ⟨hroot.not.mpr hzero, ?_⟩
      obtain ⟨p, hp, hprefix⟩ := (h.words u hu).resolve_left (hroot.not.mpr hzero)
      exact ⟨p, hp, .inr hprefix⟩
  | cons c rest ih =>
    obtain ⟨fuel, rfl⟩ := Nat.exists_eq_succ_of_ne_zero (Nat.ne_zero_of_lt hfuel)
    rw [checkFrom, if_pos (lt_length_encode front c rest), parse_encode]
    dsimp only
    have hsplit : word u ++ (c :: rest).map Char.toNat = (word u ++ [c.toNat]) ++ rest.map Char.toNat :=
      append_cons _ _ _
    rw [hsplit]
    cases hchild : t.child u c.toNat with
    | none =>
      refine iff_of_false (fun hne => hne rfl) ?_
      rintro ⟨-, p, hp, hprefix⟩
      -- a pattern that agrees with the text goes on with `c`
      have hgoes : word u ++ [c.toNat] <+: p := by
        rcases hprefix with hprefix | hprefix
        · rcases prefix_or_prefix_of_prefix hprefix (prefix_append _ _) with hle | hle
          · rcases prefix_concat_iff.mp hle with rfl | hle
            · exact prefix_rfl
            · exact absurd hle (hbefore p hp)
          · exact hle
        · exact (prefix_append _ _).trans hprefix
      obtain ⟨v, hv, hword⟩ := h.ends p hp
      obtain ⟨tail, rfl⟩ := hgoes
      obtain ⟨w, hw, hwword⟩ := h.labelled.exists_of_append hv hword
      have hsome := (h.labelled.child_iff u hu c.toNat w).mpr ⟨hw, hwword⟩
      rw [hchild] at hsome
      cases hsome
    | some v =>
      obtain ⟨hv, hword⟩ := (h.labelled.child_iff u hu c.toNat v).mp hchild
      have hpattern := h.pattern v hv
      dsimp only
      rw [hpattern, hword]
      by_cases hmem : word u ++ [c.toNat] ∈ patterns
      · rw [if_pos hmem, if_pos (Int.natCast_nonneg _)]
        exact iff_of_true nofun ⟨by simp, _, hmem, .inl (prefix_append _ _)⟩
      · rw [if_neg hmem, if_neg (by decide), length_encode_append, append_cons, ← hword]
        refine ih _ (Nat.le_of_succ_le_succ hfuel) hv fun p hp hprefix => ?_
        rw [hword] at hprefix
        rcases prefix_concat_iff.mp hprefix with rfl | hle
        · exact hmem hp
        · exact hbefore p hp hle

end CommonTrie

namespace Peg

inductive ParseResultType where
  | fail
  | success
  | needMoreInput

/-- `common_peg_parse_result` without its nodes -/
structure ParseResult where
  type : ParseResultType
  start : Nat
  stop : Nat

/-- The loop of the until parser, for at most `fuel` characters. -/
def untilFrom (matcher : CommonTrie) (input : List UInt8) (lenient : Bool) (startPos : Nat) :
    Nat → Nat → Nat → ParseResult
  | 0, _, lastValidPos => ⟨.fail, startPos, lastValidPos⟩
  | fuel + 1, pos, lastValidPos =>
    if pos < input.length then
      match parseUtf8Codepoint input pos with
      | .incomplete =>
        if lenient then ⟨.needMoreInput, startPos, lastValidPos⟩ else ⟨.fail, startPos, startPos⟩
      | .invalid => ⟨.fail, startPos, startPos⟩
      | .success _ bytesConsumed =>
        match matcher.checkAt input pos with
        | .completeMatch => ⟨.success, startPos, pos⟩
        | .partialMatch => ⟨.success, startPos, pos⟩
        | .noMatch => untilFrom matcher input lenient startPos fuel (pos + bytesConsumed) (pos + bytesConsumed)
    else if lastValidPos = input.length ∧ lenient then ⟨.needMoreInput, startPos, lastValidPos⟩
    else ⟨.success, startPos, lastValidPos⟩

/-- The until parser at `startPos`: every step takes a byte at least. -/
def untilParser (delimiters : List (List UInt8)) (input : List UInt8) (lenient : Bool) (startPos : Nat) :
    ParseResult :=
  untilFrom (.ofWords delimiters) input lenient startPos (input.length + 1) startPos startPos

/-! ## Where the scan stops -/

/-- The text goes on with a delimiter, or ends in one. -/
def Stops (delimiters : List (List Char)) (rest : List Char) : Prop :=
  rest ≠ [] ∧ ∃ d ∈ delimiters, d <+: rest ∨ rest <+: d

section

variable {delimiters : List (List Char)} (hd : ∀ d ∈ delimiters, d ≠ [])
include hd

theorem stops_iff (front rest : List Char) :
    (CommonTrie.ofWords (delimiters.map encode)).checkAt (encode (front ++ rest)) (encode front).length ≠
      .noMatch ↔ Stops delimiters rest := by
  obtain ⟨word, patterns, hholds, hmem⟩ := CommonTrie.holds_ofWords delimiters
  have hroot := hholds.labelled.root
  have hfuel : rest.length ≤ (encode (front ++ rest)).length := by
    have hle := CommonTrie.length_le_encode (front ++ rest)
    rw [length_append] at hle
    omega
  have hmap : ∀ {a b : List Char}, a.map Char.toNat <+: b.map Char.toNat ↔ a <+: b :=
    prefix_map_iff_of_injective fun _ _ => Char.toNat_inj.mp
  have hspec := CommonTrie.checkFrom_ne_noMatch hholds front hfuel hholds.labelled.size_pos
    fun p hp hprefix => by
      obtain ⟨d, hd', rfl⟩ := (hmem p).mp hp
      rw [hroot, prefix_nil, map_eq_nil_iff] at hprefix
      exact hd d hd' hprefix
  rw [hroot, nil_append, ne_eq, ne_eq, map_eq_nil_iff] at hspec
  refine hspec.trans (and_congr_right fun _ => ⟨?_, ?_⟩)
  · rintro ⟨p, hp, hprefix⟩
    obtain ⟨d, hd', rfl⟩ := (hmem p).mp hp
    exact ⟨d, hd', hprefix.imp hmap.mp hmap.mp⟩
  · rintro ⟨d, hd', hprefix⟩
    exact ⟨_, (hmem _).mpr ⟨d, hd', rfl⟩, hprefix.imp hmap.mpr hmap.mpr⟩

/-- The scan passes the characters at which nothing stops it. -/
theorem untilFrom_spec (front : List Char) {rest : List Char} (startPos : Nat) {fuel : Nat}
    (hfuel : rest.length < fuel) :
    ∃ a b, rest = a ++ b ∧
      untilFrom (.ofWords (delimiters.map encode)) (encode (front ++ rest)) false startPos fuel
        (encode front).length (encode front).length = ⟨.success, startPos, (encode (front ++ a)).length⟩ ∧
      (b = [] ∨ Stops delimiters b) ∧ ∀ x y, a = x ++ y → y ≠ [] → ¬Stops delimiters (y ++ b) := by
  induction rest generalizing front fuel with
  | nil =>
    obtain ⟨fuel, rfl⟩ := Nat.exists_eq_succ_of_ne_zero (Nat.ne_zero_of_lt hfuel)
    refine ⟨[], [], rfl, ?_, .inl rfl, ?_⟩
    · rw [untilFrom, append_nil, if_neg (Nat.lt_irrefl _), if_neg (by simp)]
    · intro x y hxy hy
      exact absurd (append_eq_nil_iff.mp hxy.symm).2 hy
  | cons c rest ih =>
    obtain ⟨fuel, rfl⟩ := Nat.exists_eq_succ_of_ne_zero (Nat.ne_zero_of_lt hfuel)
    have hiff := stops_iff hd front (c :: rest)
    rw [untilFrom, if_pos (CommonTrie.lt_length_encode front c rest), CommonTrie.parse_encode]
    dsimp only
    by_cases hstop : Stops delimiters (c :: rest)
    · refine ⟨[], c :: rest, rfl, ?_, .inr hstop, ?_⟩
      · have hne := hiff.mpr hstop
        rw [append_nil]
        generalize CommonTrie.checkAt _ _ _ = answer at hne
        cases answer with
        | noMatch => exact absurd rfl hne
        | partialMatch => rfl
        | completeMatch => rfl
      · intro x y hxy hy
        exact absurd (append_eq_nil_iff.mp hxy.symm).2 hy
    · obtain ⟨a, b, rfl, hrun, hb, ha⟩ := ih (front ++ [c]) (Nat.lt_of_succ_lt_succ hfuel)
      refine ⟨c :: a, b, rfl, ?_, hb, ?_⟩
      · rw [not_not.mp (hiff.not.mpr hstop)]
        rw [CommonTrie.length_encode_append, append_cons, hrun, append_cons front c a]
      · intro x y hxy hy
        cases x with
        | nil =>
          obtain rfl : c :: a = y := hxy
          exact hstop
        | cons x xs => exact ha xs y (List.cons.inj hxy).2 hy

end

/-! ## Exactness -/

/-- A delimiter occurs in full at byte `j` of the input. -/
def Occurs (delimiters : List (List UInt8)) (input : List UInt8) (j : Nat) : Prop :=
  ∃ d ∈ delimiters, d <+: input.drop j

/-- The parser succeeds and ends where the first delimiter from `p` on is, or at the end of the input. -/
def UntilExact (delimiters : List (List UInt8)) (input : List UInt8) (p : Nat) : Prop :=
  ∃ e, untilParser delimiters input false p = ⟨.success, p, e⟩ ∧ p ≤ e ∧
    (∀ j, p ≤ j → j < e → ¬Occurs delimiters input j) ∧ (Occurs delimiters input e ∨ e = input.length)

/-- No delimiter begins with what is left of the text behind `p` and has none in full in front of it. -/
def NoneCutOff (delimiters : List (List Char)) (text : List Char) (p : Nat) : Prop :=
  ∀ front rest, text = front ++ rest → rest ≠ [] → p ≤ (encode front).length →
    (∀ j, p ≤ j → j ≤ (encode front).length → ¬Occurs (delimiters.map encode) (encode text) j) →
    ∀ d ∈ delimiters, ¬rest <+: d

theorem encode_eq_nil_iff {text : List Char} : encode text = [] ↔ text = [] := by
  constructor
  · intro h
    have hle := CommonTrie.length_le_encode text
    rw [h] at hle
    exact eq_nil_of_length_eq_zero (Nat.le_zero.mp hle)
  · rintro rfl
    rfl

/-- Of two fronts of a text, the one with fewer bytes begins the other. -/
theorem prefix_of_length_le {f f' r r' : List Char} (h : f ++ r = f' ++ r')
    (hle : (encode f).length ≤ (encode f').length) : f <+: f' := by
  rcases prefix_or_prefix_of_prefix (prefix_append f r) (h ▸ prefix_append f' r') with hp | ⟨z, rfl⟩
  · exact hp
  · rw [encode_append, length_append] at hle
    have hz : encode z = [] := eq_nil_of_length_eq_zero (by omega)
    rw [encode_eq_nil_iff.mp hz, append_nil]

section

variable {delimiters : List (List Char)} (hd : ∀ d ∈ delimiters, d ≠ [])
include hd

theorem occurs_iff {text : List Char} {j : Nat} : Occurs (delimiters.map encode) (encode text) j ↔
    ∃ front rest, text = front ++ rest ∧ j = (encode front).length ∧ ∃ d ∈ delimiters, d <+: rest := by
  constructor
  · rintro ⟨_, hmem, hprefix⟩
    obtain ⟨d, hd', rfl⟩ := List.mem_map.mp hmem
    obtain ⟨front, rest, htext, hj, hrest⟩ := (prefix_drop_encode_iff (hd d hd')).mp hprefix
    exact ⟨front, rest, htext, hj, d, hd', hrest⟩
  · rintro ⟨front, rest, htext, hj, d, hd', hrest⟩
    exact ⟨_, List.mem_map_of_mem hd', (prefix_drop_encode_iff (hd d hd')).mpr ⟨front, rest, htext, hj, hrest⟩⟩

theorem until_boundary {front rest : List Char} :
    UntilExact (delimiters.map encode) (encode (front ++ rest)) (encode front).length ↔
      NoneCutOff delimiters (front ++ rest) (encode front).length := by
  have hfuel : rest.length < (encode (front ++ rest)).length + 1 := by
    have hle := CommonTrie.length_le_encode (front ++ rest)
    rw [length_append] at hle
    omega
  obtain ⟨a, b, rfl, hrun, hb, ha⟩ := untilFrom_spec hd front (encode front).length hfuel
  rw [← append_assoc] at *
  have hle : (encode front).length ≤ (encode (front ++ a)).length := by
    rw [encode_append, length_append]
    omega
  -- nothing stops the scan in front of its end
  have hpassed : ∀ f r, front ++ a ++ b = f ++ r → (encode front).length ≤ (encode f).length →
      (encode f).length < (encode (front ++ a)).length → ¬Stops delimiters r := by
    intro f r htext hlow hhigh
    obtain ⟨x, rfl⟩ := prefix_of_length_le ((append_assoc front a b).symm.trans htext) hlow
    obtain ⟨y, hy⟩ := prefix_of_length_le htext.symm hhigh.le
    rw [← hy, append_assoc] at htext
    obtain rfl := append_cancel_left htext
    rw [append_assoc] at hy
    refine ha x y (append_cancel_left hy).symm ?_
    rintro rfl
    rw [← hy, append_nil] at hhigh
    exact Nat.lt_irrefl _ hhigh
  have hnone : ∀ j, (encode front).length ≤ j → j < (encode (front ++ a)).length →
      ¬Occurs (delimiters.map encode) (encode (front ++ a ++ b)) j := by
    intro j hlow hhigh hocc
    obtain ⟨f, r, htext, rfl, d, hd', hprefix⟩ := (occurs_iff hd).mp hocc
    refine hpassed f r htext hlow hhigh ⟨?_, d, hd', .inl hprefix⟩
    rintro rfl
    exact hd d hd' (prefix_nil.mp hprefix)
  constructor
  · rintro ⟨e, hexact, -, -, hend⟩ f r htext hne hlow hnot d hd' hprefix
    obtain rfl : (encode (front ++ a)).length = e := congrArg ParseResult.stop (hrun.symm.trans hexact)
    have hreach : (encode (front ++ a)).length ≤ (encode f).length :=
      Nat.le_of_not_lt fun hlt => hpassed f r htext hlow hlt ⟨hne, d, hd', .inr hprefix⟩
    rcases hend with hocc | hend
    · exact hnot _ hle hreach hocc
    · rw [htext, encode_append f r, length_append] at hend
      have hr : encode r = [] := eq_nil_of_length_eq_zero (by omega)
      exact hne (encode_eq_nil_iff.mp hr)
  · intro hnocut
    refine ⟨_, hrun, hle, hnone, ?_⟩
    rcases hb with rfl | ⟨hne, d, hd', hprefix | hprefix⟩
    · exact .inr (by rw [append_nil])
    · exact .inl ((occurs_iff hd).mpr ⟨_, _, rfl, rfl, d, hd', hprefix⟩)
    · refine .inl (by_contra fun hno => ?_)
      refine hnocut (front ++ a) b rfl hne hle (fun j hlow hhigh => ?_) d hd' hprefix
      rcases Nat.lt_or_eq_of_le hhigh with hlt | rfl
      · exact hnone j hlow hlt
      · exact hno

/-- The parser is exact from `p` on if and only if `p` is between two characters and no delimiter is cut off by the end
of the input. -/
theorem until_exact_iff {text : List Char} {p : Nat} (hp : p ≤ (encode text).length) :
    UntilExact (delimiters.map encode) (encode text) p ↔
      (∃ front rest, text = front ++ rest ∧ p = (encode front).length) ∧ NoneCutOff delimiters text p := by
  constructor
  · intro h
    rcases boundary_or_invalid hp with ⟨front, rest, rfl, rfl⟩ | hinvalid
    · exact ⟨⟨front, rest, rfl, rfl⟩, (until_boundary hd).mp h⟩
    · obtain ⟨e, hrun, -⟩ := h
      have hlt : p < (encode text).length := by
        refine Nat.lt_of_not_le fun hge => ?_
        rw [parseUtf8Codepoint, drop_eq_nil_of_le hge] at hinvalid
        cases hinvalid
      rw [untilParser, untilFrom, if_pos hlt, hinvalid] at hrun
      cases hrun
  · rintro ⟨⟨front, rest, rfl, rfl⟩, hnocut⟩
    exact (until_boundary hd).mpr hnocut

end

theorem until_exact_iff_tag : UntilExact [encode "</a>".toList] (encode "x<</a>".toList) 0 ↔
    (∃ front rest, "x<</a>".toList = front ++ rest ∧ 0 = (encode front).length) ∧
      NoneCutOff ["</a>".toList] "x<</a>".toList 0 :=
  @until_exact_iff ["</a>".toList] (by simp) _ _ (Nat.zero_le _)

/-- A delimiter `ab` is cut off by the end of `xa`: the last character is left out. -/
theorem until_not_exact_cutOff : ¬∀ (delimiters : List (List Char)) (text : List Char) (p : Nat),
    (∀ d ∈ delimiters, d ≠ []) → p ≤ (encode text).length →
      UntilExact (delimiters.map encode) (encode text) p := by
  intro hall
  obtain ⟨e, hrun, -, -, hend⟩ := hall ["ab".toList] "xa".toList 0 (by simp) (Nat.zero_le _)
  obtain rfl : 1 = e := congrArg ParseResult.stop hrun
  exact absurd hend (by unfold Occurs; decide)

end Peg

end LlamaCpp
