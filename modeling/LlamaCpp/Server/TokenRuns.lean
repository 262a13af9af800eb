import LlamaCpp.Server.Tokens

/-!
# The places of the media chunks

`Represented` says that the places with `LLAMA_TOKEN_NULL` are the places of the media chunks.  Every
operation keeps it except `keep_first` with a cut behind the first token of a longer chunk
(`keepFirst_represented`).  `push_back` of other tokens appends them exactly if they have no media
(`pushTokens_iff`).  `Careful` is the condition of both, and `careful_iff` is about every value that is
built with care.
-/

namespace LlamaCpp.Server

open List Option

/-- Index `i` is a place of the chunk that starts at `k`. -/
def PlaceOf (s : ServerTokens) (k i : Nat) : Prop :=
  ∃ chunk, s.chunkAt k = some chunk ∧ k ≤ i ∧ i < k + chunk.nTokens

/-- The places with `LLAMA_TOKEN_NULL` are the disjoint union of the places of the chunks. -/
structure Represented (s : ServerTokens) : Prop where
  null_iff : ∀ i, s.tokens[i]? = some llamaTokenNull ↔ ∃ k, PlaceOf s k i
  disjoint : ∀ k k' i, PlaceOf s k i → PlaceOf s k' i → k = k'

/-- A cut at `n` is inside a chunk. -/
def InsideChunk (s : ServerTokens) (n : Nat) : Prop :=
  ∃ k chunk, s.chunkAt k = some chunk ∧ k < n ∧ n < k + chunk.nTokens

/-- Tokens without `has_mtmd` have no media. -/
structure WellFormed (s : ServerTokens) : Prop where
  represented : Represented s
  noMedia : s.hasMtmd = false → s.mapIdxToMedia = []

/-! ## Appending -/

section Append

variable {s : ServerTokens} {toks : List Int} {s' : ServerTokens}

theorem PlaceOf.lt (h : Represented s) {k i : Nat} (hp : PlaceOf s k i) : i < s.tokens.length :=
  (List.getElem?_eq_some_iff.mp ((h.null_iff i).mpr ⟨k, hp⟩)).1

/-- Text behind the other tokens. -/
theorem Represented.append (h : Represented s) (htext : llamaTokenNull ∉ toks) :
    Represented { s with tokens := s.tokens ++ toks } where
  null_iff i := by
    refine Iff.trans ?_ (h.null_iff i)
    rw [getElem?_append]
    split
    · exact Iff.rfl
    · next hge =>
      rw [getElem?_eq_none (Nat.not_lt.mp hge)]
      exact iff_of_false (fun hmem => htext (mem_of_getElem? hmem)) nofun
  disjoint := h.disjoint

theorem WellFormed.append (h : WellFormed s) (htext : llamaTokenNull ∉ toks) :
    WellFormed { s with tokens := s.tokens ++ toks } := ⟨h.represented.append htext, h.noMedia⟩

theorem pushAll_of_text (htext : llamaTokenNull ∉ toks) :
    s.pushAll toks = .returned { s with tokens := s.tokens ++ toks } := by
  induction toks generalizing s with
  | nil => simp [ServerTokens.pushAll]
  | cons tok toks ih =>
    rw [mem_cons, not_or] at htext
    unfold ServerTokens.pushAll ServerTokens.pushToken
    rw [if_neg (Ne.symm htext.1)]
    dsimp only
    rw [ih htext.2, append_assoc]
    rfl

/-- What a loop of `push_back` leaves: the tokens in front of the first `LLAMA_TOKEN_NULL` are appended. -/
theorem pushAll_after (h : (s.pushAll toks).after = some s') :
    ∃ toks', llamaTokenNull ∉ toks' ∧ s' = { s with tokens := s.tokens ++ toks' } := by
  induction toks generalizing s with
  | nil =>
    obtain rfl := some.inj h
    exact ⟨[], not_mem_nil, by simp⟩
  | cons tok toks ih =>
    unfold ServerTokens.pushAll ServerTokens.pushToken at h
    by_cases htok : tok = llamaTokenNull
    · rw [if_pos htok] at h
      obtain rfl := some.inj h
      exact ⟨[], not_mem_nil, by simp⟩
    · rw [if_neg htok] at h
      obtain ⟨toks', htext, rfl⟩ := ih h
      refine ⟨tok :: toks', ?_, by simp⟩
      rw [mem_cons, not_or]
      exact ⟨Ne.symm htok, htext⟩

theorem pushAll_returned (h : s.pushAll toks = .returned s') : llamaTokenNull ∉ toks := by
  induction toks generalizing s with
  | nil => exact not_mem_nil
  | cons tok toks ih =>
    unfold ServerTokens.pushAll ServerTokens.pushToken at h
    by_cases htok : tok = llamaTokenNull
    · rw [if_pos htok] at h
      cases h
    · rw [if_neg htok] at h
      rw [mem_cons, not_or]
      exact ⟨Ne.symm htok, ih h⟩

theorem WellFormed.pushMedia (h : WellFormed s) {chunk : MediaChunk}
    (hpush : (s.pushMedia chunk).after = some s') : WellFormed s' := by
  unfold ServerTokens.pushMedia at hpush
  split at hpush
  · cases hpush
  · next hmtmd =>
    obtain rfl := some.inj hpush
    have hplace : ∀ k i, PlaceOf { s with
        tokens := s.tokens ++ List.replicate chunk.nTokens llamaTokenNull
        mapIdxToMedia := s.mapIdxToMedia.assign s.tokens.length chunk } k i ↔
        k = s.tokens.length ∧ k ≤ i ∧ i < k + chunk.nTokens ∨ PlaceOf s k i := by
      intro k i
      unfold PlaceOf ServerTokens.chunkAt
      rw [lookup_assign]
      split
      · next hk =>
        constructor
        · rintro ⟨c, hc, hi⟩
          obtain rfl := some.inj hc
          exact .inl ⟨hk, hi⟩
        · rintro (⟨-, hi⟩ | hold)
          · exact ⟨chunk, rfl, hi⟩
          · -- an old chunk at the end has no places
            have hlt := PlaceOf.lt h.represented hold
            obtain ⟨c, -, hle, -⟩ := hold
            omega
      · next hk => exact ⟨.inr, fun hor => hor.resolve_left fun hnew => hk hnew.1⟩
    refine ⟨⟨fun i => ?_, fun k k' i hk hk' => ?_⟩, fun hno => ?_⟩
    · rw [getElem?_append, getElem?_replicate]
      split
      · next hlt =>
        rw [h.represented.null_iff]
        refine exists_congr fun k => Iff.trans ?_ (hplace k i).symm
        exact ⟨.inr, fun hor => hor.resolve_left fun hnew => by omega⟩
      · next hge =>
        constructor
        · intro hnull
          obtain ⟨hlt, -⟩ := ite_none_right_eq_some.mp hnull
          exact ⟨s.tokens.length, (hplace _ _).mpr (.inl ⟨rfl, by omega, by omega⟩)⟩
        · rintro ⟨k, hk⟩
          rcases (hplace k i).mp hk with ⟨rfl, hle, hlt⟩ | hold
          · rw [if_pos (by omega)]
          · exact absurd (PlaceOf.lt h.represented hold) hge
    · rcases (hplace k i).mp hk with ⟨rfl, hle, -⟩ | hold
      · rcases (hplace k' i).mp hk' with ⟨rfl, -⟩ | hold'
        · rfl
        · have hlt := PlaceOf.lt h.represented hold'
          omega
      · rcases (hplace k' i).mp hk' with ⟨rfl, hle, -⟩ | hold'
        · have hlt := PlaceOf.lt h.represented hold
          omega
        · exact h.represented.disjoint k k' i hold hold'
    · have hno' : s.hasMtmd = false := hno
      rw [hno'] at hmtmd
      exact absurd rfl hmtmd

theorem WellFormed.pushChunk (h : WellFormed s) {chunk : InputChunk}
    (hpush : (s.pushChunk chunk).after = some s') : WellFormed s' := by
  cases chunk with
  | text toks =>
    obtain ⟨toks', htext, rfl⟩ := pushAll_after hpush
    exact h.append htext
  | image chunk | audio chunk => exact h.pushMedia hpush

theorem WellFormed.pushChunks (h : WellFormed s) {chunks : List InputChunk}
    (hpush : s.pushChunks chunks = .returned s') : WellFormed s' := by
  induction chunks generalizing s with
  | nil =>
    cases hpush
    exact h
  | cons chunk chunks ih =>
    unfold ServerTokens.pushChunks at hpush
    cases hone : s.pushChunk chunk with
    | returned s₁ =>
      rw [hone] at hpush
      exact ih (h.pushChunk (congrArg Outcome.after hone)) hpush
    | _ =>
      rw [hone] at hpush
      cases hpush

end Append

/-! ## Operations -/

inductive TokensOp where
  | pushToken (tok : Int)
  | pushChunk (chunk : InputChunk)
  | pushTokens (other : ServerTokens)
  | insert (toks : List Int)
  | keepFirst (n : Nat)
  | clear
  | clone

def ServerTokens.apply (s : ServerTokens) : TokensOp → Outcome
  | .pushToken tok => s.pushToken tok
  | .pushChunk chunk => s.pushChunk chunk
  | .pushTokens other => s.pushTokens other
  | .insert toks => .returned (s.insert toks)
  | .keepFirst n => s.keepFirst n
  | .clear => .returned s.clear
  | .clone => .returned s.clone

/-- `insert` is for text. -/
def TokensOp.Text : TokensOp → Prop
  | .insert toks => llamaTokenNull ∉ toks
  | _ => True

/-- The tokens of `other` follow, and its media with them. -/
def Appends (s other s' : ServerTokens) : Prop :=
  s'.tokens = s.tokens ++ other.tokens ∧
    s'.mapIdxToMedia = other.mapIdxToMedia.foldl (fun m (k, chunk) => m.assign (s.tokens.length + k) chunk) s.mapIdxToMedia

/-- An operation does what it should: the places stay represented, and other tokens are appended. -/
def OpOk (s : ServerTokens) (op : TokensOp) : Prop :=
  (∀ s', (s.apply op).after = some s' → Represented s') ∧
    ∀ other, op = .pushTokens other → ∃ s', s.pushTokens other = .returned s' ∧ Appends s other s'

/-- No cut inside a chunk that `keep_first` does not notice, and no append of tokens with media. -/
def Careful (s : ServerTokens) : TokensOp → Prop
  | .keepFirst n => InsideChunk s n → s.chunkAt (n - 1) = none
  | .pushTokens other => other.mapIdxToMedia = [] ∧ (other.hasMtmd = true → s.hasMtmd = true)
  | _ => True

/-- The values that are built from the constructors by operations with `Q`. -/
inductive Built (Q : ServerTokens → TokensOp → Prop) : ServerTokens → Prop
  | ofTokens {toks : List Int} (hasMtmd : Bool) (htext : llamaTokenNull ∉ toks) : Built Q (.ofTokens toks hasMtmd)
  | ofChunks {chunks : List InputChunk} {hasMtmd : Bool} {s : ServerTokens}
      (h : ServerTokens.ofChunks chunks hasMtmd = .returned s) : Built Q s
  | step {s s' : ServerTokens} {op : TokensOp} (hs : Built Q s) (htext : op.Text)
      (hother : ∀ other, op = .pushTokens other → Built Q other) (hq : Q s op) (h : (s.apply op).after = some s') :
      Built Q s'

section Operations

variable {s : ServerTokens} {n : Nat} {s' : ServerTokens}

theorem wellFormed_ofTokens {toks : List Int} (htext : llamaTokenNull ∉ toks) (hasMtmd : Bool) :
    WellFormed (.ofTokens toks hasMtmd) where
  represented :=
    { null_iff := fun _ => iff_of_false (fun hnull => htext (mem_of_getElem? hnull)) fun ⟨_, _, hc, _⟩ => nomatch hc
      disjoint := fun _ _ _ ⟨_, hc, _⟩ => nomatch hc }
  noMedia _ := rfl

theorem placeOf_kept {k i : Nat} {toks : List Int} :
    PlaceOf { s with mapIdxToMedia := s.mapIdxToMedia.filter (·.1 < n), tokens := toks } k i ↔ k < n ∧ PlaceOf s k i := by
  unfold PlaceOf ServerTokens.chunkAt
  rw [lookup_filter (fun i => decide (i < n))]
  by_cases hk : k < n
  · simp [hk]
  · simp [hk]

theorem WellFormed.cut (h : WellFormed s) (hcut : ¬InsideChunk s n) :
    WellFormed { s with mapIdxToMedia := s.mapIdxToMedia.filter (·.1 < n), tokens := s.tokens.take n } where
  represented :=
    { null_iff := fun i => by
        rw [getElem?_take]
        simp only [placeOf_kept]
        split
        · next hi =>
          rw [h.represented.null_iff]
          refine exists_congr fun k => ⟨fun hp => ⟨?_, hp⟩, And.right⟩
          obtain ⟨_, -, hki, -⟩ := hp
          omega
        · next hi =>
          refine iff_of_false nofun ?_
          rintro ⟨k, hk, chunk, hchunk, -, hlt⟩
          exact hcut ⟨k, chunk, hchunk, hk, by omega⟩
      disjoint := fun k k' i hk hk' =>
        h.represented.disjoint k k' i (placeOf_kept.mp hk).2 (placeOf_kept.mp hk').2 }
  noMedia hno := by
    rw [h.noMedia hno]
    rfl

/-- Without media nothing is inside a chunk. -/
theorem not_inside_of_noMedia (hno : s.mapIdxToMedia = []) (n : Nat) : ¬InsideChunk s n := by
  rintro ⟨k, chunk, hchunk, -⟩
  unfold ServerTokens.chunkAt at hchunk
  rw [hno] at hchunk
  cases hchunk

/-- Both neighbours of a cut inside a chunk are places of the chunk. -/
theorem Represented.cutInMedia (h : Represented s) (hin : InsideChunk s n) : s.CutInMedia n := by
  obtain ⟨k, chunk, hchunk, hlt, hlt'⟩ := hin
  exact ⟨by omega, (h.null_iff _).mpr ⟨k, chunk, hchunk, by omega, by omega⟩,
    (h.null_iff _).mpr ⟨k, chunk, hchunk, by omega, hlt'⟩⟩

/-- What `keep_first` leaves. -/
theorem keepFirst_after (h : WellFormed s) (hkeep : (s.keepFirst n).after = some s') :
    s' = s ∨ ¬(s.CutInMedia n ∧ s.chunkAt (n - 1) = none) ∧
      s' = { s with mapIdxToMedia := s.mapIdxToMedia.filter (·.1 < n), tokens := s.tokens.take n } := by
  unfold ServerTokens.keepFirst at hkeep
  split at hkeep
  · cases hkeep
  · split at hkeep
    · split at hkeep
      · exact .inl (some.inj hkeep).symm
      · split at hkeep
        · exact .inl (some.inj hkeep).symm
        · next hcut => exact .inr ⟨hcut, (some.inj hkeep).symm⟩
    · next hmtmd =>
      have hno := h.noMedia (Bool.eq_false_iff.mpr hmtmd)
      refine .inr ⟨?_, ?_⟩
      · rintro ⟨⟨-, hnull, -⟩, -⟩
        obtain ⟨k, chunk, hchunk, -⟩ := (h.represented.null_iff _).mp hnull
        unfold ServerTokens.chunkAt at hchunk
        rw [hno] at hchunk
        cases hchunk
      · rw [← some.inj hkeep, hno]
        rfl

/-- `keep_first` keeps the places represented exactly if it notices a cut inside a chunk. -/
theorem keepFirst_iff (h : WellFormed s) (n : Nat) :
    (∀ s', (s.keepFirst n).after = some s' → Represented s') ↔ Careful s (.keepFirst n) := by
  constructor
  · intro hall hin
    refine not_isSome_iff_eq_none.mp fun hstart => ?_
    have hcut := h.represented.cutInMedia hin
    have hle := (List.getElem?_eq_some_iff.mp hcut.2.2).1
    have hmtmd : s.hasMtmd = true := by
      refine Bool.not_eq_false _ |>.mp fun hno => not_inside_of_noMedia (h.noMedia hno) n hin
    have hkeep : s.keepFirst n = .returned { s with
        mapIdxToMedia := s.mapIdxToMedia.filter (·.1 < n)
        tokens := s.tokens.take n } := by
      unfold ServerTokens.keepFirst
      rw [if_neg (by omega), if_pos hmtmd, if_neg (by omega), if_neg fun hthrow => by simp [hthrow.2] at hstart]
    have hrep := hall _ (congrArg Outcome.after hkeep)
    -- the chunk that was cut still has a place behind the last token
    obtain ⟨k, chunk, hchunk, hlt, hlt'⟩ := hin
    have hend := PlaceOf.lt hrep (placeOf_kept.mpr ⟨hlt, chunk, hchunk, Nat.le_of_lt hlt, hlt'⟩)
    rw [length_take] at hend
    omega
  · intro hcareful s' hkeep
    rcases keepFirst_after h hkeep with rfl | ⟨hnot, rfl⟩
    · exact h.represented
    · exact (h.cut fun hin => hnot ⟨h.represented.cutInMedia hin, hcareful hin⟩).represented

theorem keepFirst_wellFormed (h : WellFormed s) (hcareful : Careful s (.keepFirst n))
    (hkeep : (s.keepFirst n).after = some s') : WellFormed s' := by
  rcases keepFirst_after h hkeep with rfl | ⟨hnot, rfl⟩
  · exact h
  · exact h.cut fun hin => hnot ⟨h.represented.cutInMedia hin, hcareful hin⟩

theorem WellFormed.text (h : WellFormed s) (hno : s.mapIdxToMedia = []) : llamaTokenNull ∉ s.tokens := by
  intro hnull
  obtain ⟨i, hi⟩ := getElem?_of_mem hnull
  obtain ⟨k, chunk, hchunk, -⟩ := (h.represented.null_iff i).mp hi
  unfold ServerTokens.chunkAt at hchunk
  rw [hno] at hchunk
  cases hchunk

/-- `push_back` appends other tokens exactly if they have no media, and their `has_mtmd` is ours. -/
theorem pushTokens_iff {other : ServerTokens} (hother : WellFormed other) :
    (∃ s', s.pushTokens other = .returned s' ∧ Appends s other s') ↔ Careful s (.pushTokens other) := by
  constructor
  · rintro ⟨s', hpush, -⟩
    unfold ServerTokens.pushTokens at hpush
    cases hall : s.pushAll other.tokens with
    | returned s₁ =>
      have hs₁ := pushAll_of_text (s := s) (pushAll_returned hall)
      rw [hall] at hs₁ hpush
      obtain rfl := Outcome.returned.inj hs₁
      dsimp only at hpush
      split at hpush
      · split at hpush
        · cases hpush
        · next hmtmd =>
          split at hpush
          · next hno => exact ⟨hno, fun _ => by simpa using hmtmd⟩
          · cases hpush
      · next hmtmd => exact ⟨hother.noMedia (Bool.eq_false_iff.mpr hmtmd), fun h => absurd h hmtmd⟩
    | _ =>
      rw [hall] at hpush
      cases hpush
  · rintro ⟨hno, hmtmd⟩
    refine ⟨{ s with tokens := s.tokens ++ other.tokens }, ?_, rfl, by rw [hno]; rfl⟩
    unfold ServerTokens.pushTokens
    rw [pushAll_of_text (hother.text hno)]
    dsimp only
    split
    · next hother =>
      rw [if_neg (by simp [hmtmd hother])]
    · rfl

/-- An append leaves tokens, whatever it appends. -/
theorem pushTokens_wellFormed (h : WellFormed s) {other : ServerTokens}
    (hpush : (s.pushTokens other).after = some s') : WellFormed s' := by
  have hafter : ∃ toks', llamaTokenNull ∉ toks' ∧ s' = { s with tokens := s.tokens ++ toks' } := by
    unfold ServerTokens.pushTokens at hpush
    cases hall : s.pushAll other.tokens with
    | returned s₁ =>
      rw [hall] at hpush
      obtain ⟨toks', htext, rfl⟩ := pushAll_after (congrArg Outcome.after hall)
      refine ⟨toks', htext, ?_⟩
      dsimp only at hpush
      split at hpush
      · split at hpush
        · cases hpush
        · split at hpush
          · exact (some.inj hpush).symm
          · cases hpush
      · exact (some.inj hpush).symm
    | threw s₁ =>
      rw [hall] at hpush
      obtain rfl := some.inj hpush
      exact pushAll_after (congrArg Outcome.after hall)
    | _ =>
      rw [hall] at hpush
      cases hpush
  obtain ⟨toks', htext, rfl⟩ := hafter
  exact h.append htext

theorem WellFormed.apply (h : WellFormed s) {op : TokensOp} (htext : op.Text) (hcareful : Careful s op)
    (happly : (s.apply op).after = some s') : WellFormed s' := by
  cases op with
  | pushToken tok =>
    have hall : s.pushAll [tok] = s.pushToken tok := by
      unfold ServerTokens.pushAll
      cases s.pushToken tok <;> rfl
    have hafter : (s.pushAll [tok]).after = some s' := by
      rw [hall]
      exact happly
    obtain ⟨toks', htext, rfl⟩ := pushAll_after hafter
    exact h.append htext
  | pushChunk chunk => exact h.pushChunk happly
  | pushTokens other => exact pushTokens_wellFormed h happly
  | insert toks =>
    obtain rfl := some.inj happly
    exact h.append htext
  | keepFirst n => exact keepFirst_wellFormed h hcareful happly
  | clear =>
    obtain rfl := some.inj happly
    exact wellFormed_ofTokens not_mem_nil s.hasMtmd
  | clone =>
    obtain rfl := some.inj happly
    have hclone : s.clone = s := by
      unfold ServerTokens.clone
      rw [map_id'' fun _ => rfl]
    exact hclone.symm ▸ h

theorem Built.wellFormed (h : Built Careful s) : WellFormed s := by
  induction h with
  | ofTokens hasMtmd htext => exact wellFormed_ofTokens htext hasMtmd
  | ofChunks h => exact (wellFormed_ofTokens not_mem_nil _).pushChunks h
  | step _ htext _ hcareful happly ih => exact ih.apply htext hcareful happly

/-- The places of a value that is built with care are represented, and the next operation does what it should
exactly if it is careful. -/
theorem careful_iff (h : Built Careful s) :
    Represented s ∧ ∀ op : TokensOp, op.Text → (∀ other, op = .pushTokens other → Built Careful other) →
      (OpOk s op ↔ Careful s op) := by
  have hwell := h.wellFormed
  refine ⟨hwell.represented, fun op htext hother => ?_⟩
  cases op with
  | keepFirst n => exact ⟨fun hok => (keepFirst_iff hwell n).mp hok.1, fun hc => ⟨(keepFirst_iff hwell n).mpr hc, nofun⟩⟩
  | pushTokens other =>
    have hiff := @pushTokens_iff s other (hother other rfl).wellFormed
    refine ⟨fun hok => hiff.mp (hok.2 other rfl), fun hc => ⟨fun s' hs' => (pushTokens_wellFormed hwell hs').represented, ?_⟩⟩
    intro other' hsame
    cases hsame
    exact hiff.mpr hc
  | _ => exact ⟨fun _ => trivial, fun _ => ⟨fun s' hs' => (hwell.apply htext trivial hs').represented, nofun⟩⟩

/-- An image in front of text. -/
theorem careful_iff_image :
    let s : ServerTokens := ⟨true, [(0, ⟨"img", 3, 1⟩)], [-1, -1, -1, 7]⟩
    Represented s ∧ ∀ op : TokensOp, op.Text → (∀ other, op = .pushTokens other → Built Careful other) →
      (OpOk s op ↔ Careful s op) :=
  careful_iff (@Built.ofChunks Careful [.image ⟨"img", 3, 1⟩, .text [7]] true _ rfl)

/-- One of the three tokens of an image is kept, and the image with it. -/
theorem keepFirst_in_image :
    ¬∀ s : ServerTokens, Built (fun s op => ∃ s', s.apply op = .returned s') s →
      Represented s ∧ ∀ other, Built (fun s op => ∃ s', s.apply op = .returned s') other →
        ∃ s', s.pushTokens other = .returned s' ∧ Appends s other s' := by
  intro hall
  have himage : ServerTokens.ofChunks [.image ⟨"img", 3, 1⟩] true =
      .returned ⟨true, [(0, ⟨"img", 3, 1⟩)], [-1, -1, -1]⟩ := rfl
  have hcut : ServerTokens.apply ⟨true, [(0, ⟨"img", 3, 1⟩)], [-1, -1, -1]⟩ (.keepFirst 1) =
      .returned ⟨true, [(0, ⟨"img", 3, 1⟩)], [-1]⟩ := by decide
  have hbuilt : Built (fun s op => ∃ s', s.apply op = .returned s') ⟨true, [(0, ⟨"img", 3, 1⟩)], [-1]⟩ :=
    @Built.step _ _ _ (.keepFirst 1) (.ofChunks himage) trivial nofun ⟨_, hcut⟩ (congrArg Outcome.after hcut)
  have hrep := (hall _ hbuilt).1
  exact absurd ((hrep.null_iff 1).mpr ⟨0, _, rfl, by decide, by decide⟩) (by decide)

end Operations

end LlamaCpp.Server
