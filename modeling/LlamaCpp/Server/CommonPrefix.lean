import LlamaCpp.Server.TokenRuns

/-!
# The reuse of a common prefix

`get_common_prefix` finds the longest prefix that two prompts share and that ends inside no chunk
(`getCommonPrefix_spec`).  `keep_first` throws where a cut is inside a chunk, except one place behind the
first of several places of a chunk; and it throws at the end of such a chunk if the next chunk starts there
(`keepFirst_throws_iff_inside`).
-/

namespace LlamaCpp.Server

open List Option

/-- The first `n` entries are equal, token by token and chunk by chunk. -/
structure Agree (a b : ServerTokens) (n : Nat) : Prop where
  left : n ≤ a.tokens.length
  right : n ≤ b.tokens.length
  token : ∀ i < n, a.tokens[i]? = b.tokens[i]?
  chunk : ∀ i < n, (a.chunkAt i).map (fun c => (c.id, c.nTokens)) = (b.chunkAt i).map (fun c => (c.id, c.nTokens))

/-- The entries of the two prompts agree up to `n`, which is inside no chunk. -/
structure CommonCut (a b : ServerTokens) (n : Nat) : Prop where
  agree : Agree a b n
  outside : ¬InsideChunk a n
  outside' : ¬InsideChunk b n

/-- The longest common prefix. -/
def IsCommonPrefix (a b : ServerTokens) (n : Nat) : Prop :=
  CommonCut a b n ∧ ∀ m, CommonCut a b m → m ≤ n

def HasTokens (s : ServerTokens) : Prop := ∀ k chunk, s.chunkAt k = some chunk → 0 < chunk.nTokens

/-! ## One prompt -/

section Prompt

variable {s : ServerTokens} {chunk : MediaChunk} {k i : Nat}

theorem InsideChunk.intro {n : Nat} (hchunk : s.chunkAt k = some chunk) (hlt : k < n)
    (hlt' : n < k + chunk.nTokens) : InsideChunk s n := ⟨k, chunk, hchunk, hlt, hlt'⟩

theorem HasTokens.placeOf (h : HasTokens s) (hchunk : s.chunkAt k = some chunk) :
    PlaceOf s k k := ⟨chunk, hchunk, Nat.le_refl k, Nat.lt_add_of_pos_right (h k chunk hchunk)⟩

/-- A place of media that is inside no chunk starts one. -/
theorem chunkAt_of_outside (h : Represented s) (hnull : s.tokens[i]? = some llamaTokenNull)
    (hout : ¬InsideChunk s i) : ∃ chunk, s.chunkAt i = some chunk := by
  obtain ⟨k, chunk, hchunk, hle, hlt⟩ := (h.null_iff i).mp hnull
  rcases Nat.eq_or_lt_of_le hle with rfl | hki
  · exact ⟨chunk, hchunk⟩
  · exact absurd (InsideChunk.intro hchunk hki hlt) hout

theorem chunk_le_length (h : Represented s) (htok : HasTokens s) (hchunk : s.chunkAt k = some chunk) :
    k + chunk.nTokens ≤ s.tokens.length := by
  have hpos := htok k chunk hchunk
  have hlast := PlaceOf.lt h ⟨chunk, hchunk, Nat.le_add_right k (chunk.nTokens - 1), by omega⟩
  omega

theorem outside_end (h : Represented s) (htok : HasTokens s) (hchunk : s.chunkAt k = some chunk) :
    ¬InsideChunk s (k + chunk.nTokens) := by
  rintro ⟨k', chunk', hchunk', hlt, hlt'⟩
  have hpos := htok k chunk hchunk
  -- the last place of the one is a place of the other
  have hlast : PlaceOf s k (k + chunk.nTokens - 1) := ⟨chunk, hchunk, by omega, by omega⟩
  have hlast' : PlaceOf s k' (k + chunk.nTokens - 1) := ⟨chunk', hchunk', by omega, by omega⟩
  obtain rfl := h.disjoint _ _ _ hlast hlast'
  obtain rfl := some.inj (hchunk.symm.trans hchunk')
  omega

/-- Behind text there is no chunk inside. -/
theorem outside_succ (h : Represented s) (hne : s.tokens[i]? ≠ some llamaTokenNull) : ¬InsideChunk s (i + 1) := by
  rintro ⟨k, chunk, hchunk, hlt, hlt'⟩
  exact hne ((h.null_iff i).mpr ⟨k, chunk, hchunk, by omega, by omega⟩)

theorem outside_zero : ¬InsideChunk s 0 := fun ⟨_, _, _, hlt, _⟩ => Nat.not_lt_zero _ hlt

theorem chunkAt_of_text (h : Represented s) (htok : HasTokens s)
    (hne : s.tokens[i]? ≠ some llamaTokenNull) : s.chunkAt i = none := by
  cases hchunk : s.chunkAt i with
  | none => rfl
  | some chunk => exact absurd ((h.null_iff i).mpr ⟨i, htok.placeOf hchunk⟩) hne

/-- No chunk starts at another place of a chunk. -/
theorem chunkAt_of_inside (h : Represented s) (htok : HasTokens s) (hchunk : s.chunkAt k = some chunk)
    (hlt : k < i) (hlt' : i < k + chunk.nTokens) : s.chunkAt i = none := by
  cases hchunk' : s.chunkAt i with
  | none => rfl
  | some chunk' =>
    have hsame := h.disjoint k i i ⟨chunk, hchunk, Nat.le_of_lt hlt, hlt'⟩ (htok.placeOf hchunk')
    exact absurd hsame (Nat.ne_of_lt hlt)

end Prompt

/-! ## The common prefix of two prompts -/

section Prefix

variable {a b : ServerTokens} {i n : Nat}

theorem CommonCut.zero : CommonCut a b 0 where
  agree := ⟨Nat.zero_le _, Nat.zero_le _, fun _ hi => absurd hi (Nat.not_lt_zero _), fun _ hi => absurd hi (Nat.not_lt_zero _)⟩
  outside := outside_zero
  outside' := outside_zero

theorem CommonCut.text (h : CommonCut a b i) (ha : Represented a) (hb : Represented b) (hta : HasTokens a)
    (htb : HasTokens b) {tok : Int} (hai : a.tokens[i]? = some tok) (hbi : b.tokens[i]? = some tok)
    (hne : tok ≠ llamaTokenNull) : CommonCut a b (i + 1) := by
  have hna : a.tokens[i]? ≠ some llamaTokenNull := fun hnull => hne (some.inj (hai.symm.trans hnull))
  have hnb : b.tokens[i]? ≠ some llamaTokenNull := fun hnull => hne (some.inj (hbi.symm.trans hnull))
  refine ⟨⟨?_, ?_, fun j hj => ?_, fun j hj => ?_⟩, outside_succ ha hna, outside_succ hb hnb⟩
  · exact (List.getElem?_eq_some_iff.mp hai).1
  · exact (List.getElem?_eq_some_iff.mp hbi).1
  · rcases Nat.lt_succ_iff_lt_or_eq.mp hj with hlt | rfl
    · exact h.agree.token j hlt
    · rw [hai, hbi]
  · rcases Nat.lt_succ_iff_lt_or_eq.mp hj with hlt | rfl
    · exact h.agree.chunk j hlt
    · rw [chunkAt_of_text ha hta hna, chunkAt_of_text hb htb hnb]

theorem CommonCut.chunk (h : CommonCut a b i) (ha : Represented a) (hb : Represented b) (hta : HasTokens a)
    (htb : HasTokens b) {ca cb : MediaChunk} (hca : a.chunkAt i = some ca) (hcb : b.chunkAt i = some cb)
    (hid : ca.id = cb.id) (hn : ca.nTokens = cb.nTokens) : CommonCut a b (i + ca.nTokens) := by
  have hend' : ¬InsideChunk b (i + ca.nTokens) := by
    rw [hn]
    exact outside_end hb htb hcb
  have hlen' : i + ca.nTokens ≤ b.tokens.length := by
    rw [hn]
    exact chunk_le_length hb htb hcb
  refine ⟨⟨chunk_le_length ha hta hca, hlen', fun j hj => ?_, fun j hj => ?_⟩, outside_end ha hta hca, hend'⟩
  · rcases Nat.lt_or_ge j i with hlt | hge
    · exact h.agree.token j hlt
    · rw [(ha.null_iff j).mpr ⟨i, ca, hca, hge, hj⟩, (hb.null_iff j).mpr ⟨i, cb, hcb, hge, by omega⟩]
  · rcases Nat.lt_trichotomy j i with hlt | rfl | hgt
    · exact h.agree.chunk j hlt
    · rw [hca, hcb, map_some, map_some, hid, hn]
    · rw [chunkAt_of_inside ha hta hca hgt hj, chunkAt_of_inside hb htb hcb hgt (by omega)]

/-- A common cut at the end of one of the prompts is the last. -/
theorem CommonCut.isCommonPrefix_of_end (h : CommonCut a b n) (hend : min a.tokens.length b.tokens.length ≤ n) :
    IsCommonPrefix a b n := by
  refine ⟨h, fun m hm => ?_⟩
  have hleft := hm.agree.left
  have hright := hm.agree.right
  omega

/-- A common cut is the last if the next entries differ. -/
theorem CommonCut.isCommonPrefix_of_ne (h : CommonCut a b n)
    (hne : ¬(a.tokens[n]? = b.tokens[n]? ∧
      (a.chunkAt n).map (fun c => (c.id, c.nTokens)) = (b.chunkAt n).map (fun c => (c.id, c.nTokens)))) :
    IsCommonPrefix a b n := by
  refine ⟨h, fun m hm => Nat.not_lt.mp fun hlt => ?_⟩
  exact hne ⟨hm.agree.token n hlt, hm.agree.chunk n hlt⟩

theorem commonPrefixLoop_spec (ha : Represented a) (hb : Represented b) (hta : HasTokens a) (htb : HasTokens b)
    {fuel : Nat} (h : CommonCut a b i) (hfuel : min a.tokens.length b.tokens.length ≤ i + fuel) :
    ∃ n, commonPrefixLoop a b (min a.tokens.length b.tokens.length) fuel i = some n ∧ IsCommonPrefix a b n := by
  induction fuel generalizing i with
  | zero =>
    have hle := h.agree.left
    have hle' := h.agree.right
    have hi : min a.tokens.length b.tokens.length = i := by omega
    exact ⟨i, congrArg some hi, h.isCommonPrefix_of_end hfuel⟩
  | succ fuel ih =>
    unfold commonPrefixLoop
    split
    · next hend =>
      have hle := h.agree.left
      have hle' := h.agree.right
      have hi : min a.tokens.length b.tokens.length = i := by omega
      exact ⟨i, congrArg some hi, h.isCommonPrefix_of_end hend⟩
    · next hlt =>
      obtain ⟨ai, hai⟩ : ∃ ai, a.tokens[i]? = some ai := ⟨_, getElem?_eq_getElem (by omega)⟩
      obtain ⟨bi, hbi⟩ : ∃ bi, b.tokens[i]? = some bi := ⟨_, getElem?_eq_getElem (by omega)⟩
      dsimp only
      rw [getD_eq_getElem?_getD, getD_eq_getElem?_getD, hai, hbi]
      split
      · next hnull =>
        obtain ⟨rfl, rfl⟩ := hnull
        obtain ⟨ca, hca⟩ := chunkAt_of_outside ha hai h.outside
        obtain ⟨cb, hcb⟩ := chunkAt_of_outside hb hbi h.outside'
        rw [hca, hcb]
        dsimp only
        split
        · next hsame =>
          have hpos := hta i ca hca
          rw [if_neg (by omega)]
          exact ih (h.chunk ha hb hta htb hca hcb hsame.1 hsame.2) (by omega)
        · next hdiff =>
          refine ⟨i, rfl, h.isCommonPrefix_of_ne fun ⟨_, hchunk⟩ => hdiff ?_⟩
          rw [hca, hcb] at hchunk
          exact Prod.mk.inj (some.inj hchunk)
      · next hnull =>
        split
        · next heq =>
          subst heq
          exact ih (h.text ha hb hta htb hai hbi fun hai' => hnull ⟨hai', hai'⟩) (by omega)
        · next hne =>
          refine ⟨i, rfl, h.isCommonPrefix_of_ne fun ⟨htok, _⟩ => hne ?_⟩
          rw [hai, hbi] at htok
          exact some.inj htok

theorem textPrefix_spec (as bs : List Int) :
    textPrefix as bs ≤ as.length ∧ textPrefix as bs ≤ bs.length ∧ (∀ i < textPrefix as bs, as[i]? = bs[i]?) ∧
      (min as.length bs.length ≤ textPrefix as bs ∨ as[textPrefix as bs]? ≠ bs[textPrefix as bs]?) := by
  fun_induction textPrefix as bs with
  | case1 tok as bs ih =>
    obtain ⟨hle, hle', heq, hend⟩ := ih
    refine ⟨Nat.succ_le_succ hle, Nat.succ_le_succ hle', fun i hi => ?_, ?_⟩
    · cases i with
      | zero => rfl
      | succ i => exact heq i (Nat.lt_of_succ_lt_succ hi)
    · rcases hend with hend | hne
      · refine .inl ?_
        rw [length_cons, length_cons]
        omega
      · exact .inr hne
  | case2 a as b bs hne => exact ⟨Nat.zero_le _, Nat.zero_le _, nofun, .inr fun heq => hne (some.inj heq)⟩
  | case3 as bs hnil =>
    refine ⟨Nat.zero_le _, Nat.zero_le _, nofun, .inl ?_⟩
    cases as with
    | nil => exact Nat.min_le_left _ _
    | cons a as =>
      cases bs with
      | nil => exact Nat.min_le_right _ _
      | cons b bs => exact absurd rfl (hnil a as b bs rfl)

/-- Entries of text that are equal. -/
theorem commonCut_of_text (ha : Represented a) (hb : Represented b) (hta : HasTokens a) (htb : HasTokens b)
    (htext : llamaTokenNull ∉ a.tokens) (hle : n ≤ a.tokens.length) (hle' : n ≤ b.tokens.length)
    (heq : ∀ i < n, a.tokens[i]? = b.tokens[i]?) : CommonCut a b n := by
  induction n with
  | zero => exact CommonCut.zero
  | succ n ih =>
    have hcut := ih (Nat.le_of_succ_le hle) (Nat.le_of_succ_le hle') fun i hi => heq i (Nat.lt_succ_of_lt hi)
    have hai : a.tokens[n]? = some a.tokens[n] := getElem?_eq_getElem hle
    refine hcut.text ha hb hta htb hai ((heq n (Nat.lt_succ_self n)).symm.trans hai) fun hnull => htext ?_
    exact hnull ▸ getElem_mem hle

theorem getCommonPrefix_spec (ha : WellFormed a) (hb : WellFormed b) (hta : HasTokens a) (htb : HasTokens b) :
    ∃ n, a.getCommonPrefix b = some n ∧ IsCommonPrefix a b n := by
  unfold ServerTokens.getCommonPrefix
  split
  · next hno =>
    obtain ⟨hle, hle', heq, hend⟩ := textPrefix_spec a.tokens b.tokens
    have htext := ha.text (ha.noMedia (by simpa using hno))
    have hcut := commonCut_of_text ha.represented hb.represented hta htb htext hle hle' heq
    refine ⟨_, rfl, ?_⟩
    rcases hend with hend | hne
    · exact hcut.isCommonPrefix_of_end hend
    · exact hcut.isCommonPrefix_of_ne fun hsame => hne hsame.1
  · exact commonPrefixLoop_spec ha.represented hb.represented hta htb CommonCut.zero (Nat.le_add_left _ _)

end Prefix

/-! ## Cuts -/

section Cut

variable {s : ServerTokens} {n : Nat}

/-- `keep_first` throws. -/
def Throws (s : ServerTokens) (n : Nat) : Prop := s.keepFirst n = .threw s

/-- A cut that `keep_first` sees as it is: not one place behind the start of a chunk of several places, and not
between such a chunk and another one. -/
def SeenRight (s : ServerTokens) (n : Nat) : Prop :=
  ∀ k chunk, s.chunkAt k = some chunk → 1 < chunk.nTokens →
    n ≠ k + 1 ∧ (n = k + chunk.nTokens → s.chunkAt n = none)

/-- `keep_first` keeps the tokens before `n` and the chunks that end there. -/
def Keeps (s : ServerTokens) (n : Nat) : Prop :=
  ∃ s', s.keepFirst n = .returned s' ∧ s'.tokens = s.tokens.take n ∧
    ∀ k chunk, s'.chunkAt k = some chunk ↔ s.chunkAt k = some chunk ∧ k + chunk.nTokens ≤ n

theorem hasMtmd_of_null (h : WellFormed s) {i : Nat} (hnull : s.tokens[i]? = some llamaTokenNull) : s.hasMtmd = true := by
  refine Bool.not_eq_false _ |>.mp fun hno => ?_
  exact h.text (h.noMedia hno) (mem_of_getElem? hnull)

theorem throws_iff (h : WellFormed s) (hle : n ≤ s.tokens.length) :
    Throws s n ↔ s.CutInMedia n ∧ s.chunkAt (n - 1) = none := by
  unfold Throws ServerTokens.keepFirst
  rw [if_neg (Nat.not_lt.mpr hle)]
  constructor
  · intro hthrow
    split at hthrow
    · split at hthrow
      · cases hthrow
      · split at hthrow
        · next hcut => exact hcut
        · cases hthrow
    · cases hthrow
  · intro hcut
    have hlt := (List.getElem?_eq_some_iff.mp hcut.1.2.2).1
    rw [if_pos (hasMtmd_of_null h hcut.1.2.2), if_neg (Nat.ne_of_lt hlt), if_pos hcut]

/-- `keep_first` throws as it should at exactly the cuts that it sees as they are. -/
theorem throws_iff_inside (h : WellFormed s) (htok : HasTokens s) (hle : n ≤ s.tokens.length) :
    (Throws s n ↔ InsideChunk s n) ↔ SeenRight s n := by
  have hrep := h.represented
  rw [throws_iff h hle]
  constructor
  · intro hiff k chunk hchunk hmany
    constructor
    · rintro rfl
      have hin : InsideChunk s (k + 1) := InsideChunk.intro hchunk (Nat.lt_succ_self k) (by omega)
      have hnone := (hiff.mpr hin).2
      rw [Nat.add_sub_cancel, hchunk] at hnone
      cases hnone
    · rintro rfl
      refine not_isSome_iff_eq_none.mp fun hnext => ?_
      obtain ⟨chunk', hchunk'⟩ := isSome_iff_exists.mp hnext
      refine outside_end hrep htok hchunk (hiff.mp ⟨⟨by omega, ?_, ?_⟩, ?_⟩)
      · exact (hrep.null_iff _).mpr ⟨k, chunk, hchunk, by omega, by omega⟩
      · exact (hrep.null_iff _).mpr ⟨_, htok.placeOf hchunk'⟩
      · exact chunkAt_of_inside hrep htok hchunk (by omega) (by omega)
  · intro hseen
    constructor
    · rintro ⟨⟨hpos, hleft, hright⟩, hnone⟩
      by_contra hout
      -- the chunk of the last place that is kept ends at the cut, and another one starts there
      obtain ⟨k, chunk, hchunk, hk, hlt⟩ := (hrep.null_iff _).mp hleft
      have hne : k ≠ n - 1 := by
        rintro rfl
        rw [hchunk] at hnone
        cases hnone
      have hend : n = k + chunk.nTokens := by
        have hge : ¬n < k + chunk.nTokens := fun hlt' => hout (InsideChunk.intro hchunk (by omega) hlt')
        omega
      obtain ⟨chunk', hchunk'⟩ := chunkAt_of_outside hrep hright hout
      have hnext := (hseen k chunk hchunk (by omega)).2 hend
      rw [hchunk'] at hnext
      cases hnext
    · intro hin
      refine ⟨hrep.cutInMedia hin, ?_⟩
      obtain ⟨k, chunk, hchunk, hlt, hlt'⟩ := hin
      have hne := (hseen k chunk hchunk (by omega)).1
      exact chunkAt_of_inside hrep htok hchunk (by omega) (by omega)

/-- What is kept at a cut inside no chunk at which `keep_first` does not throw. -/
theorem keeps_of_outside (h : WellFormed s) (htok : HasTokens s) (hle : n ≤ s.tokens.length)
    (hout : ¬InsideChunk s n) (hthrow : ¬Throws s n) : Keeps s n := by
  have hends : ∀ k chunk, s.chunkAt k = some chunk → (k < n ↔ k + chunk.nTokens ≤ n) := by
    intro k chunk hchunk
    have hpos := htok k chunk hchunk
    exact ⟨fun hlt => Nat.not_lt.mp fun hlt' => hout (InsideChunk.intro hchunk hlt hlt'), fun hle => by omega⟩
  have hall : n = s.tokens.length → ∀ k chunk, s.chunkAt k = some chunk → k + chunk.nTokens ≤ n := by
    rintro rfl k chunk hchunk
    exact chunk_le_length h.represented htok hchunk
  rw [throws_iff h hle] at hthrow
  unfold Keeps ServerTokens.keepFirst
  rw [if_neg (Nat.not_lt.mpr hle)]
  split
  · split
    · next hn => exact ⟨s, rfl, by rw [hn, take_length], fun k chunk =>
        ⟨fun hchunk => ⟨hchunk, hall hn k chunk hchunk⟩, And.left⟩⟩
    · refine ⟨_, rfl, rfl, fun k chunk => ?_⟩
      unfold ServerTokens.chunkAt
      rw [lookup_filter (fun i => decide (i < n))]
      split
      · next hk => exact ⟨fun hchunk => ⟨hchunk, (hends k chunk hchunk).mp (of_decide_eq_true hk)⟩, And.left⟩
      · next hk => exact ⟨nofun, fun hchunk => absurd (decide_eq_true ((hends k chunk hchunk.1).mpr hchunk.2)) hk⟩
  · next hmtmd =>
    refine ⟨_, rfl, rfl, fun k chunk => ⟨fun hchunk => ⟨hchunk, ?_⟩, And.left⟩⟩
    have hchunk' : s.chunkAt k = some chunk := hchunk
    unfold ServerTokens.chunkAt at hchunk'
    rw [h.noMedia (Bool.eq_false_iff.mpr hmtmd)] at hchunk'
    cases hchunk'

theorem keeps_iff (h : WellFormed s) (htok : HasTokens s) (hle : n ≤ s.tokens.length)
    (hout : ¬InsideChunk s n) : Keeps s n ↔ SeenRight s n := by
  rw [← throws_iff_inside h htok hle]
  constructor
  · rintro ⟨s', hreturn, -⟩
    refine iff_of_false (fun hthrow => ?_) hout
    unfold Throws at hthrow
    rw [hreturn] at hthrow
    cases hthrow
  · exact fun hiff => keeps_of_outside h htok hle hout fun hthrow => hout (hiff.mp hthrow)

theorem hasTokens_of_mem (h : ∀ e ∈ s.mapIdxToMedia, 0 < e.2.nTokens) : HasTokens s := by
  intro k chunk hchunk
  obtain ⟨l, l', hm, -⟩ := List.lookup_eq_some_iff.mp hchunk
  exact h (k, chunk) (hm ▸ by simp)

end Cut

/-! ## Reuse -/

/-- The longest common prefix is found, and is what `keep_first` keeps; `keep_first` throws exactly inside
chunks. -/
structure ReuseOk (a b : ServerTokens) : Prop where
  found : ∃ n, a.getCommonPrefix b = some n ∧ IsCommonPrefix a b n ∧ Keeps a n
  throws : ∀ m ≤ a.tokens.length, Throws a m ↔ InsideChunk a m

/-- The longest common prefix is always found, and each cut is dealt with as it should be exactly if `keep_first`
sees it as it is; both hold throughout exactly if every chunk has a single place. -/
theorem reuseOk_iff {a b : ServerTokens} (ha : WellFormed a) (hb : WellFormed b) (hta : HasTokens a) (htb : HasTokens b) :
    (∃ n, a.getCommonPrefix b = some n ∧ IsCommonPrefix a b n ∧ (Keeps a n ↔ SeenRight a n)) ∧
      (∀ m ≤ a.tokens.length, (Throws a m ↔ InsideChunk a m) ↔ SeenRight a m) ∧
      (ReuseOk a b ↔ ∀ k chunk, a.chunkAt k = some chunk → chunk.nTokens = 1) := by
  obtain ⟨n, hn, hprefix⟩ := getCommonPrefix_spec ha hb hta htb
  have hkeeps := keeps_iff ha hta hprefix.1.agree.left hprefix.1.outside
  refine ⟨⟨n, hn, hprefix, hkeeps⟩, fun m hm => throws_iff_inside ha hta hm, fun hok k chunk hchunk => ?_, fun hone => ?_⟩
  · have hpos := hta k chunk hchunk
    have hle := chunk_le_length ha.represented hta hchunk
    have hseen := (throws_iff_inside ha hta (by omega)).mp (hok.throws (k + 1) (by omega))
    refine Nat.le_antisymm (Nat.not_lt.mp fun hmany => ?_) hpos
    exact (hseen k chunk hchunk hmany).1 rfl
  · have hseen : ∀ m, SeenRight a m := fun m k chunk hchunk hmany => by
      have hsingle := hone k chunk hchunk
      omega
    exact ⟨⟨n, hn, hprefix, hkeeps.mpr (hseen n)⟩, fun m hm => (throws_iff_inside ha hta hm).mpr (hseen m)⟩

/-- Text between two images of one place, and its first two entries. -/
theorem reuseOk_iff_single :
    let a : ServerTokens := ⟨true, [(0, ⟨"a", 1, 1⟩), (2, ⟨"b", 1, 1⟩)], [-1, 7, -1]⟩
    let b : ServerTokens := ⟨true, [(0, ⟨"a", 1, 1⟩)], [-1, 7]⟩
    (∃ n, a.getCommonPrefix b = some n ∧ IsCommonPrefix a b n ∧ (Keeps a n ↔ SeenRight a n)) ∧
      (∀ m ≤ a.tokens.length, (Throws a m ↔ InsideChunk a m) ↔ SeenRight a m) ∧
      (ReuseOk a b ↔ ∀ k chunk, a.chunkAt k = some chunk → chunk.nTokens = 1) :=
  reuseOk_iff
    (@WellFormed.pushChunks _ _ (wellFormed_ofTokens not_mem_nil true) [.image ⟨"a", 1, 1⟩, .text [7], .image ⟨"b", 1, 1⟩] rfl)
    (@WellFormed.pushChunks _ _ (wellFormed_ofTokens not_mem_nil true) [.image ⟨"a", 1, 1⟩, .text [7]] rfl)
    (hasTokens_of_mem (by decide)) (hasTokens_of_mem (by decide))

/-- Two images of two places: the second one cannot be removed, and the first one can be cut. -/
theorem keepFirst_throws_between_images :
    ¬∀ a b : ServerTokens, WellFormed a → WellFormed b → HasTokens a → HasTokens b → ReuseOk a b := by
  intro hall
  have hwell := @WellFormed.pushChunks _ ⟨true, [(0, ⟨"a", 2, 1⟩), (2, ⟨"b", 2, 1⟩)], [-1, -1, -1, -1]⟩
    (wellFormed_ofTokens not_mem_nil true) [.image ⟨"a", 2, 1⟩, .image ⟨"b", 2, 1⟩] rfl
  have htok := @hasTokens_of_mem ⟨true, [(0, ⟨"a", 2, 1⟩), (2, ⟨"b", 2, 1⟩)], [-1, -1, -1, -1]⟩ (by decide)
  obtain ⟨k, chunk, hchunk, hlt, hlt'⟩ := ((hall _ _ hwell hwell htok htok).throws 2 (by decide)).mp (by unfold Throws; decide)
  have hk : k = 0 ∨ k = 1 := by omega
  rcases hk with rfl | rfl
  · cases hchunk
    exact absurd hlt' (by decide)
  · cases hchunk

end LlamaCpp.Server
