import LlamaCpp.Server.CommonPrefix
import Mathlib

/-!
# Indices and positions

`pos_next` and `size_up_to_pos` walk over the same steps, one text token or one chunk each.  `trail` is
that walk, which moves both the index and the position (`trail_strictMono`) and visits every index that
is inside no chunk (`exists_trail`).  `size_up_to_pos` makes its first step before it compares, so for
position 0 it returns the first step and not 0 (`conversions_iff`).
-/

namespace LlamaCpp.Server

open List Option

/-- Every chunk moves the position. -/
def HasPositions (s : ServerTokens) : Prop := ∀ k chunk, s.chunkAt k = some chunk → 0 < chunk.nPos

/-- How far the index and the position move at an index. -/
def stride (s : ServerTokens) (idx : Nat) : Nat × Nat :=
  match s.chunkAt idx with
  | some chunk => (chunk.nTokens, chunk.nPos)
  | none => (1, 1)

/-- The index and the position after some steps. -/
def trail (s : ServerTokens) : Nat → Nat × Nat
  | 0 => (0, 0)
  | k + 1 => ((trail s k).1 + (stride s (trail s k).1).1, (trail s k).2 + (stride s (trail s k).1).2)

/-- The index at which the tokens have reached a position. -/
def Candidate (s : ServerTokens) (p : Int) (n : Nat) : Prop :=
  n ≤ s.tokens.length ∧ ¬InsideChunk s n ∧ ∃ q, s.posNext n = some q ∧ p ≤ (q : Int)

/-- The first such index, or the number of tokens if there is none. -/
def FirstAt (s : ServerTokens) (p : Int) (n : Nat) : Prop :=
  IsLeast {n | Candidate s p n} n ∨ (∀ n, ¬Candidate s p n) ∧ n = s.tokens.length

section Trail

variable {s : ServerTokens}

theorem stride_fst_pos (htok : HasTokens s) (idx : Nat) : 0 < (stride s idx).1 := by
  unfold stride
  split
  · next chunk hchunk => exact htok idx chunk hchunk
  · exact Nat.one_pos

theorem stride_snd_pos (hpos : HasPositions s) (idx : Nat) : 0 < (stride s idx).2 := by
  unfold stride
  split
  · next chunk hchunk => exact hpos idx chunk hchunk
  · exact Nat.one_pos

theorem trail_strictMono (htok : HasTokens s) : StrictMono fun k => (trail s k).1 :=
  strictMono_nat_of_lt_succ fun k => Nat.lt_add_of_pos_right (stride_fst_pos htok (trail s k).1)

theorem trail_snd_strictMono (hpos : HasPositions s) : StrictMono fun k => (trail s k).2 :=
  strictMono_nat_of_lt_succ fun k => Nat.lt_add_of_pos_right (stride_snd_pos hpos (trail s k).1)

/-- A step stays within the tokens. -/
theorem stride_le (h : Represented s) (htok : HasTokens s) {idx : Nat} (hidx : idx < s.tokens.length) :
    idx + (stride s idx).1 ≤ s.tokens.length := by
  unfold stride
  split
  · next chunk hchunk => exact chunk_le_length h htok hchunk
  · exact hidx

/-- Every index inside no chunk is visited. -/
theorem exists_trail (htok : HasTokens s) {n : Nat} (hout : ¬InsideChunk s n) : ∃ k, (trail s k).1 = n := by
  have hex : ∃ k, n ≤ (trail s k).1 := ⟨n, (trail_strictMono htok).le_apply⟩
  have hle := Nat.find_spec hex
  have hmin (k : Nat) (hk : k < Nat.find hex) : (trail s k).1 < n := Nat.not_le.mp (Nat.find_min hex hk)
  refine ⟨Nat.find hex, ?_⟩
  generalize Nat.find hex = k at hle hmin
  cases k with
  | zero => exact Nat.le_antisymm (Nat.zero_le n) hle
  | succ k =>
    have hlt := hmin k (Nat.lt_succ_self k)
    refine Nat.le_antisymm (Nat.not_lt.mp fun hpast => hout ?_) hle
    -- the step passed the index, so it was the step of a chunk
    have hpast' : n < (trail s k).1 + (stride s (trail s k).1).1 := hpast
    unfold stride at hpast'
    split at hpast'
    · next chunk hchunk => exact ⟨_, chunk, hchunk, hlt, hpast'⟩
    · omega

/-- Only indices inside no chunk are visited. -/
theorem trail_outside (h : Represented s) (htok : HasTokens s) (k : Nat) : ¬InsideChunk s (trail s k).1 := by
  induction k with
  | zero =>
    rintro ⟨i, chunk, -, hlt, -⟩
    exact Nat.not_lt_zero i hlt
  | succ k ih =>
    show ¬InsideChunk s ((trail s k).1 + (stride s (trail s k).1).1)
    unfold stride
    split
    · next chunk hchunk => exact outside_end h htok hchunk
    · next hnone =>
        rintro ⟨i, chunk, hchunk, hlt, hlt'⟩
        rcases Nat.eq_or_lt_of_le (Nat.le_of_lt_succ hlt) with rfl | hi
        · rw [hnone] at hchunk
          cases hchunk
        · exact ih ⟨i, chunk, hchunk, hi, Nat.lt_of_succ_lt hlt'⟩

end Trail

/-! ## The two loops -/

section Loops

variable {s : ServerTokens}

theorem posNextLoop_succ (htok : HasTokens s) (n fuel idx pos : Nat) :
    posNextLoop s n (fuel + 1) idx pos =
      if n ≤ idx then some pos else posNextLoop s n fuel (idx + (stride s idx).1) (pos + (stride s idx).2) := by
  have hpos := htok idx
  rw [posNextLoop]
  unfold stride
  cases hchunk : s.chunkAt idx with
  | none => rfl
  | some chunk => simp only [if_neg (hpos chunk hchunk).ne']

theorem posNextLoop_trail (htok : HasTokens s) (m fuel k : Nat) (hk : k ≤ m) (hfuel : m ≤ fuel + k) :
    posNextLoop s (trail s m).1 fuel (trail s k).1 (trail s k).2 = some (trail s m).2 := by
  induction fuel generalizing k with
  | zero =>
    obtain rfl : k = m := by omega
    rfl
  | succ fuel ih =>
    rw [posNextLoop_succ htok]
    split
    · next hle =>
        obtain rfl := Nat.le_antisymm hk ((trail_strictMono htok).le_iff_le.mp hle)
        rfl
    · next hle =>
        have hne : k ≠ m := fun heq => hle (heq ▸ Nat.le_refl _)
        exact ih (k + 1) (by omega) (by omega)

/-- `pos_next` of what has been visited. -/
theorem posNext_trail (htok : HasTokens s) (hmtmd : s.hasMtmd = true) {m : Nat}
    (hle : (trail s m).1 ≤ s.tokens.length) : s.posNext (trail s m).1 = some (trail s m).2 := by
  unfold ServerTokens.posNext
  rw [hmtmd, if_neg (by decide), if_neg (Nat.not_lt.mpr hle)]
  exact posNextLoop_trail htok m (trail s m).1 0 (Nat.zero_le m) (trail_strictMono htok).le_apply

/-- The loop of `size_up_to_pos` ends after this many steps. -/
structure StopsAt (s : ServerTokens) (p : Int) (m : Nat) : Prop where
  pos : 0 < m
  stops : s.tokens.length ≤ (trail s m).1 ∨ p ≤ ((trail s m).2 : Int)
  goesOn : ∀ j, 0 < j → j < m → (trail s j).1 < s.tokens.length ∧ ((trail s j).2 : Int) < p

theorem sizeUpToPosLoop_succ (htok : HasTokens s) (p : Int) (fuel idx pos : Nat) :
    sizeUpToPosLoop s p (fuel + 1) idx pos =
      if s.tokens.length ≤ idx then some idx
      else if p ≤ ((pos + (stride s idx).2 : Nat) : Int) then some (idx + (stride s idx).1)
      else sizeUpToPosLoop s p fuel (idx + (stride s idx).1) (pos + (stride s idx).2) := by
  have hpos := stride_fst_pos htok idx
  rw [sizeUpToPosLoop]
  unfold stride at hpos ⊢
  cases hchunk : s.chunkAt idx with
  | none => rfl
  | some chunk =>
    rw [hchunk] at hpos
    simp only [if_neg hpos.ne']

theorem sizeUpToPosLoop_of_length (p : Int) (fuel : Nat) {idx : Nat} (pos : Nat) (hidx : s.tokens.length ≤ idx) :
    sizeUpToPosLoop s p fuel idx pos = some idx := by
  cases fuel with
  | zero => rfl
  | succ fuel =>
    rw [sizeUpToPosLoop]
    exact if_pos hidx

theorem StopsAt.loop {p : Int} {m : Nat} (h : StopsAt s p m) (htok : HasTokens s) (fuel k : Nat) (hk : k < m)
    (hidx : (trail s k).1 < s.tokens.length) (hfuel : s.tokens.length ≤ fuel + (trail s k).1) :
    sizeUpToPosLoop s p fuel (trail s k).1 (trail s k).2 = some (trail s m).1 := by
  induction fuel generalizing k with
  | zero => omega
  | succ fuel ih =>
    rw [sizeUpToPosLoop_succ htok, if_neg (Nat.not_le.mpr hidx)]
    have hmove : (trail s k).1 < (trail s (k + 1)).1 := trail_strictMono htok (Nat.lt_succ_self k)
    change (if p ≤ ((trail s (k + 1)).2 : Int) then some (trail s (k + 1)).1
      else sizeUpToPosLoop s p fuel (trail s (k + 1)).1 (trail s (k + 1)).2) = some (trail s m).1
    rcases Nat.lt_or_ge (k + 1) m with hlt | hge
    · obtain ⟨hin, hbelow⟩ := h.goesOn (k + 1) k.succ_pos hlt
      rw [if_neg (Int.not_le.mpr hbelow)]
      exact ih (k + 1) hlt hin (hfuel.trans (by omega))
    · obtain rfl : k + 1 = m := by omega
      split
      · rfl
      · next hbelow => exact sizeUpToPosLoop_of_length p fuel _ (h.stops.resolve_right hbelow)

theorem sizeUpToPos_spec (htok : HasTokens s) (hmtmd : s.hasMtmd = true) (hne : 0 < s.tokens.length) (p : Int) :
    ∃ m, StopsAt s p m ∧ s.sizeUpToPos p = some (trail s m).1 := by
  have hex : ∃ m, 0 < m ∧ (s.tokens.length ≤ (trail s m).1 ∨ p ≤ ((trail s m).2 : Int)) :=
    ⟨s.tokens.length, hne, .inl (trail_strictMono htok).le_apply⟩
  have hstops : StopsAt s p (Nat.find hex) := by
    refine ⟨(Nat.find_spec hex).1, (Nat.find_spec hex).2, fun j hpos hj => ?_⟩
    have hmin := Nat.find_min hex hj
    push Not at hmin
    exact hmin hpos
  refine ⟨_, hstops, ?_⟩
  unfold ServerTokens.sizeUpToPos
  rw [hmtmd, if_neg (by decide)]
  exact hstops.loop htok s.tokens.length 0 hstops.pos hne (Nat.le_add_right _ _)

end Loops

/-! ## The conversions -/

section Conversions

variable {s : ServerTokens} {n : Nat} {p : Int}

theorem candidate_iff (h : Represented s) (htok : HasTokens s) (hmtmd : s.hasMtmd = true) :
    Candidate s p n ↔ ∃ k, (trail s k).1 = n ∧ (trail s k).1 ≤ s.tokens.length ∧ p ≤ ((trail s k).2 : Int) := by
  constructor
  · rintro ⟨hle, hout, q, hq, hp⟩
    obtain ⟨k, rfl⟩ := exists_trail htok hout
    obtain rfl := some.inj ((posNext_trail htok hmtmd hle).symm.trans hq)
    exact ⟨k, rfl, hle, hp⟩
  · rintro ⟨k, rfl, hle, hp⟩
    exact ⟨hle, trail_outside h htok k, _, posNext_trail htok hmtmd hle, hp⟩

/-- Up to a position behind 0, the first index is found. -/
theorem StopsAt.firstAt {m : Nat} (hm : StopsAt s p m) (h : Represented s) (htok : HasTokens s)
    (hmtmd : s.hasMtmd = true) (hne : 0 < s.tokens.length) (hp : 0 < p) : FirstAt s p (trail s m).1 := by
  have hle : (trail s m).1 ≤ s.tokens.length := by
    obtain ⟨k, rfl⟩ := Nat.exists_eq_succ_of_ne_zero hm.pos.ne'
    refine stride_le h htok ?_
    rcases Nat.eq_zero_or_pos k with rfl | hk
    · exact hne
    · exact (hm.goesOn k hk (Nat.lt_succ_self k)).1
  have hlater (j : Nat) (hj : p ≤ ((trail s j).2 : Int)) : m ≤ j := by
    rcases Nat.eq_zero_or_pos j with rfl | hj0
    · exact absurd hj (Int.not_le.mpr hp)
    · exact Nat.not_lt.mp fun hlt => Int.not_le.mpr (hm.goesOn j hj0 hlt).2 hj
  by_cases hreach : p ≤ ((trail s m).2 : Int)
  · refine .inl ⟨(candidate_iff h htok hmtmd).mpr ⟨m, rfl, hle, hreach⟩, fun n hn => ?_⟩
    obtain ⟨j, rfl, -, hj⟩ := (candidate_iff h htok hmtmd).mp hn
    exact (trail_strictMono htok).monotone (hlater j hj)
  · refine .inr ⟨fun n hn => ?_, Nat.le_antisymm hle (hm.stops.resolve_right hreach)⟩
    obtain ⟨j, rfl, hjle, hj⟩ := (candidate_iff h htok hmtmd).mp hn
    have hjm := (trail_strictMono htok).le_iff_le.mp (hjle.trans (hm.stops.resolve_right hreach))
    obtain rfl := Nat.le_antisymm hjm (hlater j hj)
    exact hreach hj

/-- Up to the position of an index behind 0, that index is found. -/
theorem StopsAt.eq {j m : Nat} (hm : StopsAt s (trail s j).2 m) (htok : HasTokens s) (hpos : HasPositions s)
    (hle : (trail s j).1 ≤ s.tokens.length) (hj : 0 < j) : m = j := by
  refine Nat.le_antisymm (Nat.not_lt.mp fun hlt => ?_) (Nat.not_lt.mp fun hlt => ?_)
  · exact (hm.goesOn j hj hlt).2.false
  · have hidx : (trail s m).1 < (trail s j).1 := trail_strictMono htok hlt
    have hat : (trail s m).2 < (trail s j).2 := trail_snd_strictMono hpos hlt
    rcases hm.stops with hstop | hstop <;> omega

/-- Without media, an index is its own position. -/
theorem candidate_text (h : WellFormed s) (hmtmd : s.hasMtmd = false) :
    Candidate s p n ↔ n ≤ s.tokens.length ∧ p ≤ (n : Int) := by
  have hnext : s.posNext n = some n := if_pos (by rw [hmtmd]; rfl)
  have hout : ¬InsideChunk s n := by
    rintro ⟨k, chunk, hchunk, -, -⟩
    rw [ServerTokens.chunkAt, h.noMedia hmtmd] at hchunk
    cases hchunk
  unfold Candidate
  rw [hnext]
  constructor
  · rintro ⟨hle, -, q, hq, hp⟩
    obtain rfl := some.inj hq
    exact ⟨hle, hp⟩
  · rintro ⟨hle, hp⟩
    exact ⟨hle, hout, n, rfl, hp⟩

theorem firstAt_text (h : WellFormed s) (hmtmd : s.hasMtmd = false) (hp : 0 ≤ p) :
    FirstAt s p (min p.toNat s.tokens.length) := by
  rcases Nat.le_total p.toNat s.tokens.length with hle | hle
  · rw [Nat.min_eq_left hle]
    refine .inl ⟨(candidate_text h hmtmd).mpr ⟨hle, Int.self_le_toNat p⟩, fun n hn => ?_⟩
    exact Int.toNat_le.mpr ((candidate_text h hmtmd).mp hn).2
  · rw [Nat.min_eq_right hle]
    rcases Nat.eq_or_lt_of_le hle with heq | hlt
    · refine .inl ⟨(candidate_text h hmtmd).mpr ⟨Nat.le_refl _, by omega⟩, fun n hn => ?_⟩
      have hn' := ((candidate_text h hmtmd).mp hn).2
      omega
    · refine .inr ⟨fun n hn => ?_, rfl⟩
      have hn' := (candidate_text h hmtmd).mp hn
      omega

/-- With media, nothing is in front of position 0, and one step is counted all the same. -/
theorem StopsAt.not_firstAt {m : Nat} (hm : StopsAt s 0 m) (h : Represented s) (htok : HasTokens s)
    (hmtmd : s.hasMtmd = true) : ¬FirstAt s 0 (trail s m).1 := by
  have hzero : Candidate s 0 0 := (candidate_iff h htok hmtmd).mpr ⟨0, rfl, Nat.zero_le _, Int.le_refl 0⟩
  have hmove : 0 < (trail s m).1 := trail_strictMono htok hm.pos
  rintro (⟨-, hleast⟩ | ⟨hnone, -⟩)
  · exact Nat.not_le.mpr hmove (hleast hzero)
  · exact hnone 0 hzero

/-- With media, an index gets its position back unless it is 0. -/
theorem back_iff (htok : HasTokens s) (hpos : HasPositions s) (hmtmd : s.hasMtmd = true)
    (hne : 0 < s.tokens.length) (hle : n ≤ s.tokens.length) (hout : ¬InsideChunk s n) :
    (∃ q, s.posNext n = some q ∧ s.sizeUpToPos q = some n) ↔ 0 < n := by
  obtain ⟨j, rfl⟩ := exists_trail htok hout
  obtain ⟨m, hm, hsize⟩ := sizeUpToPos_spec htok hmtmd hne (trail s j).2
  rw [posNext_trail htok hmtmd hle]
  constructor
  · rintro ⟨q, hq, hback⟩
    obtain rfl := some.inj hq
    have heq := some.inj (hsize.symm.trans hback)
    rw [← heq]
    exact trail_strictMono htok hm.pos
  · intro hj
    have hj0 : 0 < j := (trail_strictMono htok).lt_iff_lt.mp hj
    obtain rfl := hm.eq htok hpos hle hj0
    exact ⟨_, rfl, hsize⟩

/-- With media, the first index at a position is found unless that is 0. -/
theorem first_iff (hrep : Represented s) (htok : HasTokens s) (hmtmd : s.hasMtmd = true)
    (hne : 0 < s.tokens.length) (hp : 0 ≤ p) :
    (∃ n, s.sizeUpToPos p = some n ∧ FirstAt s p n) ↔ 0 < p := by
  obtain ⟨m, hm, hsize⟩ := sizeUpToPos_spec htok hmtmd hne p
  rw [hsize]
  constructor
  · rintro ⟨n, hn, hfirst⟩
    obtain rfl := some.inj hn
    refine lt_of_le_of_ne hp ?_
    rintro rfl
    exact hm.not_firstAt hrep htok hmtmd hfirst
  · intro hlt
    exact ⟨_, rfl, hm.firstAt hrep htok hmtmd hne hlt⟩

/-- No tokens: every position is behind them but 0. -/
theorem firstAt_nil (hrep : Represented s) (htok : HasTokens s) (hmtmd : s.hasMtmd = true)
    (hempty : s.tokens.length = 0) (hp : 0 ≤ p) : FirstAt s p 0 := by
  rcases Int.le_iff_lt_or_eq.mp hp with hlt | rfl
  · refine .inr ⟨fun n hn => ?_, hempty.symm⟩
    obtain ⟨k, rfl, hle, hk⟩ := (candidate_iff hrep htok hmtmd).mp hn
    have hkle : k ≤ (trail s k).1 := (trail_strictMono htok).le_apply
    obtain rfl : k = 0 := by omega
    exact Int.not_le.mpr hlt hk
  · exact .inl ⟨(candidate_iff hrep htok hmtmd).mpr ⟨0, rfl, Nat.zero_le _, Int.le_refl 0⟩, fun n _ => n.zero_le⟩

end Conversions

/-- `size_up_to_pos` takes a position back to its index, and finds the first index at a position, unless tokens
with media are asked for position 0. -/
theorem conversions_iff {s : ServerTokens} (h : WellFormed s) (htok : HasTokens s) (hpos : HasPositions s) :
    (∀ n ≤ s.tokens.length, ¬InsideChunk s n →
      ((∃ q, s.posNext n = some q ∧ s.sizeUpToPos q = some n) ↔ s.hasMtmd = false ∨ s.tokens = [] ∨ 0 < n)) ∧
      ∀ p : Int, 0 ≤ p →
        ((∃ n, s.sizeUpToPos p = some n ∧ FirstAt s p n) ↔ s.hasMtmd = false ∨ s.tokens = [] ∨ 0 < p) := by
  have hrep := h.represented
  cases hmtmd : s.hasMtmd with
  | false =>
    have hsize (p : Int) (hp : 0 ≤ p) : s.sizeUpToPos p = some (min p.toNat s.tokens.length) := by
      unfold ServerTokens.sizeUpToPos
      rw [hmtmd, if_pos (by decide), if_neg (Int.not_lt.mpr hp)]
    constructor
    · intro n hle _
      refine iff_of_true ⟨n, if_pos (by rw [hmtmd]; rfl), ?_⟩ (.inl rfl)
      rw [hsize n (Int.natCast_nonneg n), Int.toNat_natCast, Nat.min_eq_left hle]
    · intro p hp
      exact iff_of_true ⟨_, hsize p hp, firstAt_text h hmtmd hp⟩ (.inl rfl)
  | true =>
    simp only [reduceCtorEq, false_or]
    rcases Nat.eq_zero_or_pos s.tokens.length with hempty | hne
    · have hnil : s.tokens = [] := length_eq_zero_iff.mp hempty
      have hsize (p : Int) : s.sizeUpToPos p = some 0 := by
        unfold ServerTokens.sizeUpToPos
        rw [hmtmd, hempty]
        rfl
      constructor
      · intro n hle _
        obtain rfl : n = 0 := by omega
        exact iff_of_true ⟨0, posNext_trail (m := 0) htok hmtmd (Nat.zero_le _), hsize 0⟩ (.inl hnil)
      · intro p hp
        exact iff_of_true ⟨0, hsize p, firstAt_nil hrep htok hmtmd hempty hp⟩ (.inl hnil)
    · have hcons : s.tokens ≠ [] := length_pos_iff.mp hne
      constructor
      · intro n hle hout
        rw [or_iff_right hcons]
        exact back_iff htok hpos hmtmd hne hle hout
      · intro p hp
        rw [or_iff_right hcons]
        exact first_iff hrep htok hmtmd hne hp

/-- A token, an image of two tokens at one position, and a token. -/
def pictured : ServerTokens := ⟨true, [(1, ⟨"a", 2, 1⟩)], [7, -1, -1, 8]⟩

theorem wellFormed_pictured : WellFormed pictured :=
  @WellFormed.pushChunks _ _ (wellFormed_ofTokens not_mem_nil true) [.text [7], .image ⟨"a", 2, 1⟩, .text [8]] rfl

theorem chunkAt_pictured {k : Nat} {chunk : MediaChunk} (hchunk : pictured.chunkAt k = some chunk) :
    k = 1 ∧ chunk = ⟨"a", 2, 1⟩ := by
  obtain ⟨l, l', hm, -⟩ := List.lookup_eq_some_iff.mp hchunk
  have hmem : (k, chunk) ∈ pictured.mapIdxToMedia := by
    rw [hm]
    exact mem_append_right l mem_cons_self
  exact Prod.mk.inj (mem_singleton.mp hmem)

theorem hasPositions_pictured : HasPositions pictured := by
  intro k chunk hchunk
  obtain ⟨rfl, rfl⟩ := chunkAt_pictured hchunk
  exact Nat.one_pos

theorem outside_pictured : ¬InsideChunk pictured 3 := by
  rintro ⟨k, chunk, hchunk, hlt, hlt'⟩
  obtain ⟨rfl, rfl⟩ := chunkAt_pictured hchunk
  exact Nat.lt_irrefl 3 hlt'

/-- The place behind the image is at position 2 and is found again. -/
theorem conversions_iff_pictured : ∃ q, pictured.posNext 3 = some q ∧ pictured.sizeUpToPos q = some 3 :=
  ((conversions_iff wellFormed_pictured (hasTokens_of_mem (by decide)) hasPositions_pictured).1 3 (by decide)
    outside_pictured).mpr (.inr (.inr (by decide)))

/-- The first token is counted in front of position 0. -/
theorem sizeUpToPos_zero_pictured : ¬∀ s : ServerTokens, WellFormed s → HasTokens s → HasPositions s →
    (∀ n ≤ s.tokens.length, ¬InsideChunk s n → ∃ q, s.posNext n = some q ∧ s.sizeUpToPos q = some n) ∧
      ∀ p : Int, 0 ≤ p → ∃ n, s.sizeUpToPos p = some n ∧ FirstAt s p n := by
  intro hall
  obtain ⟨q, hq, hback⟩ := (hall pictured wellFormed_pictured (hasTokens_of_mem (by decide)) hasPositions_pictured).1 0
    (Nat.zero_le _) fun ⟨_, _, _, hlt, _⟩ => Nat.not_lt_zero _ hlt
  obtain rfl := some.inj hq
  exact absurd hback (by decide)

end LlamaCpp.Server
