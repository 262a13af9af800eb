import LlamaCpp.Lib.Runs
import LlamaCpp.Server.Speculative

/-!
# Speculative decoding emits what plain decoding does

Every round starts from a memory that holds the prompt, and a sampler that has seen the tokens so far.  The rows of the
draft are rows of plain decoding as long as the draft is what plain decoding samples, and the rows of the branch are so
behind the alternative.  So what is accepted is what plain decoding samples (`sampleAndAcceptN_rows`), and the rollback
leaves the memory of the prompt (`verify_spec`).

`speculative_plain` is about every run whose drafts have no proposal distributions, up to the place where the context is
full; `speculative_differs` says what is not so.
-/

namespace LlamaCpp.Server

open List Option

universe u v

/-! ## The memory -/

namespace SeqMemory

variable {type : SeqRmType} {toks full : List Int} {tok : Int} {k : Nat}

theorem filter_row (toks : List Int) (start p : Nat) :
    ((MemCell.row toks start).filter fun x => x.pos = ((start + p : Nat) : Int)).map (·.token) = toks[p]?.toList := by
  induction toks generalizing start p with
  | nil => rfl
  | cons tok toks ih =>
    unfold MemCell.row
    cases p with
    | zero =>
      have hrest : (MemCell.row toks (start + 1)).filter (fun x => decide (x.pos = ((start + 0 : Nat) : Int))) = [] :=
        filter_eq_nil_iff.mpr fun x hx => by
          have hlow := (MemCell.row_bounds hx).1
          simp only [decide_eq_true_eq]
          omega
      rw [filter_cons_of_pos (by simp), hrest]
      rfl
    | succ p =>
      rw [filter_cons_of_neg (by simp; omega), show start + (p + 1) = start + 1 + p by omega, ih]
      rfl

theorem seen_ofTokens (toks : List Int) (pos : Nat) : (ofTokens toks).seen pos = toks.take (pos + 1) := by
  unfold seen ofTokens
  generalize pos + 1 = n
  induction n with
  | zero => rfl
  | succ n ih =>
    have hlast := filter_row toks 0 n
    rw [Nat.zero_add] at hlast
    rw [range_succ, flatMap_append, ih, flatMap_singleton, hlast, take_add_one]

theorem push_ofTokens (toks : List Int) (tok : Int) : (ofTokens toks).push toks.length tok = ofTokens (toks ++ [tok]) := by
  unfold push ofTokens
  rw [MemCell.row_append, Nat.zero_add]
  rfl

/-- The cells in front of a position. -/
theorem filter_row_lt (toks : List Int) (k : Nat) :
    (MemCell.row toks 0).filter (fun x => x.pos < (k : Int)) = MemCell.row (toks.take k) 0 := by
  rcases Nat.le_total toks.length k with hle | hle
  · rw [take_of_length_le hle]
    refine filter_eq_self.mpr fun x hx => decide_eq_true ?_
    have hhigh := (MemCell.row_bounds hx).2
    omega
  · rw [MemCell.row_split toks 0 k hle, filter_append]
    have hfront : (MemCell.row (toks.take k) 0).filter (fun x => decide (x.pos < (k : Int))) = MemCell.row (toks.take k) 0 :=
      filter_eq_self.mpr fun x hx => by
        have hhigh := (MemCell.row_bounds hx).2
        rw [length_take] at hhigh
        exact decide_eq_true (by omega)
    have hback : (MemCell.row (toks.drop k) (0 + k)).filter (fun x => decide (x.pos < (k : Int))) = [] :=
      filter_eq_nil_iff.mpr fun x hx => by
        have hlow := (MemCell.row_bounds hx).1
        simp only [decide_eq_true_eq]
        omega
    rw [hfront, hback, append_nil]

theorem seqRm_ofTokens (hroll : type.rollsBack (toks.length - k) = true) :
    (ofTokens toks).seqRm type k = some (ofTokens (toks.take k)) := by
  unfold seqRm ofTokens
  rw [if_pos hroll, filter_row_lt]

/-- The restored part, with the cells cut where it ends. -/
theorem seqRm_restored (hpre : full.take toks.length = toks) (hroll : type.rollsBack 0 = true) :
    ({ ofTokens full with part := toks } : SeqMemory).seqRm type toks.length = some (ofTokens toks) := by
  unfold seqRm ofTokens
  rw [Nat.sub_self, if_pos hroll, filter_row_lt, hpre, take_length]

/-- The cells of the branch behind the prompt that both share, cut where they end. -/
theorem seqRm_graft (hpre : full.take toks.length = toks) (hk : toks.length + k ≤ full.length)
    (hroll : type.rollsBack (full.length - (toks.length + k)) = true) :
    ((ofTokens toks).graft (ofTokens full) toks.length (toks.length + k)).seqRm type (toks.length + k) =
      some (ofTokens (full.take (toks.length + k))) := by
  have hshared : (full.take (toks.length + k)).take toks.length = toks := by
    rw [take_take, Nat.min_eq_left (Nat.le_add_right _ _), hpre]
  have hsplit := MemCell.row_split (full.take (toks.length + k)) 0 toks.length (by rw [length_take]; omega)
  rw [hshared, Nat.zero_add] at hsplit
  have hbranch : (MemCell.row full 0).filter (fun x => decide ((toks.length : Int) ≤ x.pos ∧ x.pos < ((toks.length + k : Nat) : Int))) =
      MemCell.row ((full.take (toks.length + k)).drop toks.length) toks.length := by
    have hcut := congrArg (List.filter fun x => decide ((toks.length : Int) ≤ x.pos)) (filter_row_lt full (toks.length + k))
    have hfront : (MemCell.row toks 0).filter (fun x => decide ((toks.length : Int) ≤ x.pos)) = [] :=
      filter_eq_nil_iff.mpr fun x hx => by
        have hhigh := (MemCell.row_bounds hx).2
        simp only [decide_eq_true_eq]
        omega
    have hback : (MemCell.row ((full.take (toks.length + k)).drop toks.length) toks.length).filter
        (fun x => decide ((toks.length : Int) ≤ x.pos)) = MemCell.row ((full.take (toks.length + k)).drop toks.length) toks.length :=
      filter_eq_self.mpr fun x hx => decide_eq_true (MemCell.row_bounds hx).1
    rw [hsplit, filter_append, hfront, hback, nil_append, List.filter_filter] at hcut
    simpa only [Bool.decide_and] using hcut
  unfold seqRm graft ofTokens
  rw [if_pos hroll, hbranch, ← hsplit, filter_row_lt, take_take, Nat.min_self]

theorem seqPosMax_ofTokens (toks : List Int) : (ofTokens toks).seqPosMax = toks.length - 1 := by
  unfold seqPosMax ofTokens
  cases toks with
  | nil => rfl
  | cons tok toks =>
    have hmax : ((MemCell.row (tok :: toks) 0).map (·.pos)).max? = some (toks.length : Int) := by
      rw [max?_eq_some_iff]
      refine ⟨List.mem_map.mpr ⟨⟨toks.length, (tok :: toks)[toks.length]⟩, MemCell.mem_row.mpr ⟨toks.length, ?_, by simp⟩, rfl⟩, fun p hp => ?_⟩
      · exact getElem?_eq_getElem _
      · obtain ⟨x, hx, rfl⟩ := List.mem_map.mp hp
        have hhigh := (MemCell.row_bounds hx).2
        rw [length_cons] at hhigh
        omega
    rw [hmax, length_cons]
    show (toks.length : Int) = _
    omega

end SeqMemory

/-! ## Sampling -/

namespace SpecTarget

variable {Row : Type u} {Smpl : Type v} (T : SpecTarget Row Smpl)

/-- Behind `toks`, plain sampling without a stop yields `ids`. -/
def Samples : Smpl → List Int → List Int → Smpl → Prop
  | smpl, _, [], smpl' => smpl = smpl'
  | smpl, toks, id :: ids, smpl' =>
    (T.sample (T.logits toks toks) smpl).1 = id ∧
      Samples (T.accept (T.sample (T.logits toks toks) smpl).2 id) (toks ++ [id]) ids smpl'

def rowsAfter (toks : List Int) : List Int → List Row
  | [] => []
  | tok :: rest => T.logits (toks ++ [tok]) (toks ++ [tok]) :: rowsAfter (toks ++ [tok]) rest

variable {T} {prompt toks a b ids draft : List Int} {tok : Int} {smpl smpl' smpl'' : Smpl} {k : Nat}

theorem Samples.append (ha : T.Samples smpl toks a smpl') (hb : T.Samples smpl' (toks ++ a) b smpl'') :
    T.Samples smpl toks (a ++ b) smpl'' := by
  induction a generalizing smpl toks with
  | nil =>
    obtain rfl : smpl = smpl' := ha
    rwa [append_nil] at hb
  | cons id a ih =>
    refine ⟨ha.1, ih ha.2 ?_⟩
    rwa [append_assoc, singleton_append]

theorem Samples.split (h : T.Samples smpl toks (a ++ b) smpl'') :
    ∃ smpl', T.Samples smpl toks a smpl' ∧ T.Samples smpl' (toks ++ a) b smpl'' := by
  induction a generalizing smpl toks with
  | nil =>
    refine ⟨smpl, rfl, ?_⟩
    rwa [append_nil]
  | cons id a ih =>
    obtain ⟨smpl', ha, hb⟩ := ih h.2
    refine ⟨smpl', ⟨h.1, ha⟩, ?_⟩
    rwa [append_assoc, singleton_append] at hb

theorem decode_ofTokens (toks rest : List Int) :
    T.decode (.ofTokens toks) toks.length rest = (.ofTokens (toks ++ rest), T.rowsAfter toks rest) := by
  induction rest generalizing toks with
  | nil => simp [decode, rowsAfter]
  | cons tok rest ih =>
    unfold decode rowsAfter
    have hlen : (toks ++ [tok]).length = toks.length + 1 := length_append
    have hseen : (SeqMemory.ofTokens (toks ++ [tok])).seen toks.length = toks ++ [tok] := by
      rw [SeqMemory.seen_ofTokens, take_of_length_le (Nat.le_of_eq hlen)]
    have hrest := ih (toks ++ [tok])
    rw [hlen, append_assoc, singleton_append] at hrest
    rw [SeqMemory.push_ofTokens]
    dsimp only
    rw [hrest, hseen]
    rfl

/-- What is accepted of a draft behind `tok` is what plain sampling yields, and the draft in front of the last one. -/
theorem sampleAndAcceptN_rows (smpl : Smpl) (toks : List Int) (tok : Int) (draft : List Int) :
    ∃ ids smpl', T.sampleAndAcceptN smpl (T.rowsAfter toks (tok :: draft)) draft = (ids, smpl') ∧
      T.Samples smpl (toks ++ [tok]) ids smpl' ∧ ids ≠ [] ∧ ids.length ≤ draft.length + 1 ∧
      ids.dropLast = draft.take (ids.length - 1) ∧
      ∀ smpl₁, T.Samples smpl (toks ++ [tok]) draft smpl₁ → ids.length = draft.length + 1 := by
  induction draft generalizing smpl toks tok with
  | nil => exact ⟨_, _, rfl, ⟨rfl, rfl⟩, cons_ne_nil _ _, Nat.le_refl _, rfl, fun _ _ => rfl⟩
  | cons next draft ih =>
    unfold rowsAfter sampleAndAcceptN
    dsimp only
    split
    · rename_i hne
      refine ⟨_, _, rfl, ⟨rfl, rfl⟩, cons_ne_nil _ _, Nat.le_add_left _ _, rfl, fun smpl₁ hsamples => ?_⟩
      exact absurd hsamples.1.symm hne
    · rename_i heq
      have hsame : next = (T.sample (T.logits (toks ++ [tok]) (toks ++ [tok])) smpl).1 := Decidable.not_not.mp heq
      obtain ⟨ids, smpl', hrest, hsamples, hne, hlen, hlast, hall⟩ :=
        ih (T.accept (T.sample (T.logits (toks ++ [tok]) (toks ++ [tok])) smpl).2 next) (toks ++ [tok]) next
      rw [← hsame, hrest]
      have hpos := length_pos_of_ne_nil hne
      refine ⟨_, _, rfl, ⟨hsame.symm, hsamples⟩, cons_ne_nil _ _, ?_, ?_, fun smpl₁ hdraft => ?_⟩
      · exact Nat.succ_le_succ hlen
      · rw [dropLast_cons_of_ne_nil hne, hlast, length_cons, Nat.add_sub_cancel, ← Nat.sub_add_cancel hpos,
          take_succ_cons, Nat.sub_add_cancel hpos]
      · exact congrArg (· + 1) (hall smpl₁ hdraft.2)

/-! ## Rolling back -/

theorem rollsBack_zero (type : SeqRmType) : type.rollsBack 0 = true := by
  cases type <;> simp [SeqRmType.rollsBack]

/-- The target gives up what it needs no checkpoint for. -/
theorem rollsBack_of_not_useCkpt (h : T.useCkpt k = false) : T.type.rollsBack k = true := by
  unfold useCkpt at h
  unfold SeqRmType.rollsBack
  cases htype : T.type with
  | part => rfl
  | rs n =>
    rw [htype] at h
    exact decide_eq_true (Nat.not_lt.mp (of_decide_eq_false h))
  | full =>
    rw [htype] at h
    nomatch h

theorem rollsBack_le {type : SeqRmType} {m n : Nat} (h : type.rollsBack n = true) (hle : m ≤ n) : type.rollsBack m = true := by
  unfold SeqRmType.rollsBack at h ⊢
  cases type with
  | part => rfl
  | rs nRs => exact decide_eq_true (hle.trans (of_decide_eq_true h))
  | full => exact decide_eq_true (Nat.le_zero.mp ((of_decide_eq_true h) ▸ hle))

theorem useCkpt_le {m n : Nat} (h : T.useCkpt m = true) (hle : m ≤ n) : T.useCkpt n = true := by
  unfold useCkpt at h ⊢
  cases htype : T.type with
  | part =>
    rw [htype] at h
    exact h
  | rs nRs =>
    rw [htype] at h
    exact decide_eq_true ((of_decide_eq_true h).trans_le hle)
  | full => rfl

/-! ## The slot between rounds -/

variable (T prompt) in
/-- A slot that goes on: it is where plain decoding is after the same tokens.  Tokens that are to be decoded again are
what comes next. -/
structure SpecInv (smpl₀ : Smpl) (s : SpecSlot Smpl) : Prop where
  mem : s.mem = .ofTokens s.tokens
  tokens : s.tokens ++ [s.sampled] = prompt ++ s.emitted
  samples : T.Samples smpl₀ prompt s.emitted s.smpl
  quiet : ∀ ids, ids <+: s.emitted → ids ≠ [] → T.ends prompt ids = false
  replay : s.specDraft ≠ [] → s.specCkpt.part ≠ none ∧ ∃ smpl', T.Samples s.smpl (s.tokens ++ [s.sampled]) s.specDraft smpl'
  nonempty : s.emitted ≠ []

variable (T prompt) in
/-- A slot that was released. -/
structure SpecEnd (smpl₀ : Smpl) (s : SpecSlot Smpl) : Prop where
  mem : s.mem = .ofTokens s.tokens
  samples : ∃ smpl', T.Samples smpl₀ prompt s.emitted smpl'
  quiet : ∀ ids, ids <+: s.emitted → ids ≠ [] → ids ≠ s.emitted → T.ends prompt ids = false
  ended : T.ends prompt s.emitted = true ∨ T.ctxShift = false ∧ T.nCtx ≤ s.tokens.length + 1
  kept : prompt ++ s.emitted.dropLast <+: s.tokens
  nonempty : s.emitted ≠ []

variable (T prompt) in
/-- A slot that goes on, or was released. -/
def SpecOk (smpl₀ : Smpl) (s : SpecSlot Smpl) : Prop :=
  s.released = false ∧ T.SpecInv prompt smpl₀ s ∨ s.released = true ∧ T.SpecEnd prompt smpl₀ s

variable {s : SpecSlot Smpl} {smpl₀ : Smpl} {all : List Int} {r : SpecRound Smpl}

/-- The context fills up as the prompt grows. -/
theorem ends_of_le (hstops : T.stops ids = false) (hroom : (!T.ctxShift && decide (T.nCtx ≤ prompt.length + k)) = false)
    (hle : ids.length ≤ k) : T.ends prompt ids = false := by
  unfold ends
  rw [hstops, Bool.false_or]
  cases hshift : T.ctxShift with
  | true => rfl
  | false =>
    rw [hshift] at hroom
    have hlt := of_decide_eq_false hroom
    exact decide_eq_false (by omega)

/-- The accepted tokens are passed on until one of them stops the generation. -/
theorem processAll_spec (hall : s.emitted ++ ids = all) (hne : all ≠ []) (htokens : s.tokens = prompt ++ all.dropLast)
    (hmem : s.mem = .ofTokens s.tokens) (hsamples : T.Samples smpl₀ prompt all s.smpl)
    (hquiet : ∀ a, a <+: s.emitted → a ≠ [] → T.ends prompt a = false) (hsampled : ids = [] → s.emitted.getLast? = some s.sampled)
    (hreleased : s.released = false) (hdraft : s.specDraft = []) :
    T.SpecOk prompt smpl₀ (T.processAll s ids) ∧ s.emitted.length + min ids.length 1 ≤ (T.processAll s ids).emitted.length ∧
      (T.processAll s ids).specDraft = [] := by
  have hlen : s.tokens.length + 1 = prompt.length + all.length := by
    have hpos := length_pos_of_ne_nil hne
    rw [htokens, length_append, length_dropLast]
    omega
  induction ids generalizing s with
  | nil =>
    rw [append_nil] at hall
    subst hall
    have hlast := dropLast_append_getLast? s.sampled (hsampled rfl)
    have hend : s.tokens ++ [s.sampled] = prompt ++ s.emitted := by rw [htokens, append_assoc, hlast]
    exact ⟨.inl ⟨hreleased, hmem, hend, hsamples, hquiet, fun hyes => absurd hdraft hyes, hne⟩, Nat.le_refl _, hdraft⟩
  | cons id ids ih =>
    have hstep : s.emitted ++ [id] ++ ids = all := by rw [append_assoc, singleton_append, hall]
    have hbefore : (s.emitted ++ [id]).length ≤ all.length := by
      rw [← hstep]
      exact (sublist_append_left _ _).length_le
    unfold processAll processToken
    dsimp only
    cases hstop : T.stops (s.emitted ++ [id]) || !T.ctxShift && decide (T.nCtx ≤ s.tokens.length + 1) with
    | true =>
      refine ⟨.inr ⟨rfl, hmem, ?_, ?_, ?_, ?_, concat_ne_nil _ _⟩, ?_, hdraft⟩
      · obtain ⟨smpl', hfront, -⟩ := (hstep ▸ hsamples).split
        exact ⟨smpl', hfront⟩
      · intro a ha hne hproper
        exact hquiet a ((prefix_concat_iff.mp ha).resolve_left hproper) hne
      · show T.ends prompt (s.emitted ++ [id]) = true ∨ T.ctxShift = false ∧ T.nCtx ≤ s.tokens.length + 1
        unfold ends
        rcases Bool.or_eq_true_iff.mp hstop with hstops | hfull
        · exact .inl (by rw [hstops, Bool.true_or])
        · obtain ⟨hshift, hlimit⟩ := Bool.and_eq_true_iff.mp hfull
          exact .inr ⟨by simpa using hshift, of_decide_eq_true hlimit⟩
      · show prompt ++ (s.emitted ++ [id]).dropLast <+: s.tokens
        rw [dropLast_concat, htokens, ← hall, dropLast_append_of_ne_nil (cons_ne_nil _ _), ← append_assoc]
        exact prefix_append _ _
      · show s.emitted.length + min (id :: ids).length 1 ≤ (s.emitted ++ [id]).length
        rw [length_append, length_cons, length_singleton]
        omega
    | false =>
      obtain ⟨hstops, hroom⟩ := Bool.or_eq_false_iff.mp hstop
      rw [hlen] at hroom
      have hends := ends_of_le hstops hroom hbefore
      have hnext := @ih { s with sampled := id, emitted := s.emitted ++ [id] } hstep htokens hmem hsamples
        (fun a ha hne => (prefix_concat_iff.mp ha).elim (fun heq => heq ▸ hends) fun hpre => hquiet a hpre hne)
        (fun _ => getLast?_concat) hreleased hdraft hlen
      refine ⟨hnext.1, Nat.le_trans ?_ hnext.2.1, hnext.2.2⟩
      show s.emitted.length + min (id :: ids).length 1 ≤ (s.emitted ++ [id]).length + _
      rw [length_append, length_cons, length_singleton]
      omega

/-! ## A round -/

/-- A first token that is the alternative: the branch goes on with what plain sampling yields, and its cells take the
place of the draft's. -/
theorem walkBranch_spec {alt : Int} (ckpt : Bool) (hmem : s.mem = .ofTokens s.tokens) (hdraft : draft ≠ [])
    (hsamples : T.Samples s.smpl (s.tokens ++ [s.sampled]) [alt] smpl) (hroll : ckpt = false → T.type.rollsBack draft.length = true) :
    ∃ ids smpl' mem', T.walkBranch s draft alt ckpt ⟨[alt], smpl, .ofTokens (s.tokens ++ s.sampled :: draft)⟩ =
        some ⟨alt :: ids, smpl', mem'⟩ ∧ T.Samples s.smpl (s.tokens ++ [s.sampled]) (alt :: ids) smpl' ∧
      (ckpt = true → mem' = .ofTokens (s.tokens ++ s.sampled :: draft)) ∧
      (ckpt = false → mem'.seqRm T.type (s.tokens.length + (alt :: ids).length) =
        some (.ofTokens (s.tokens ++ s.sampled :: (alt :: ids).dropLast))) := by
  have hfull : (s.tokens ++ [s.sampled]) ++ alt :: draft.tail = s.tokens ++ s.sampled :: alt :: draft.tail := by
    rw [append_assoc, singleton_append]
  have hlen : (s.tokens ++ [s.sampled]).length = s.tokens.length + 1 := length_append
  have hpos := length_pos_of_ne_nil hdraft
  have htail : draft.tail.length + 1 = draft.length := by
    rw [length_tail]
    omega
  obtain ⟨ids, smpl', hsample, hrest, hne, hle, hlast, -⟩ := T.sampleAndAcceptN_rows smpl (s.tokens ++ [s.sampled]) alt draft.tail
  have hboth : T.Samples s.smpl (s.tokens ++ [s.sampled]) (alt :: ids) smpl' := hsamples.append hrest
  unfold walkBranch
  rw [if_pos rfl, hmem, decode_ofTokens]
  dsimp only [rowsAfter, tail_cons] at hsample ⊢
  rw [hsample]
  cases ckpt with
  | true => exact ⟨ids, smpl', _, rfl, hboth, fun _ => rfl, nofun⟩
  | false =>
    have hmain : (SeqMemory.ofTokens (s.tokens ++ s.sampled :: draft)).seqRm T.type (s.tokens.length + 1) =
        some (.ofTokens (s.tokens ++ [s.sampled])) := by
      have hgone : (s.tokens ++ s.sampled :: draft).length - (s.tokens.length + 1) = draft.length := by
        rw [length_append, length_cons]
        omega
      rw [SeqMemory.seqRm_ofTokens (hgone ▸ hroll rfl), List.take_append, take_of_length_le (Nat.le_succ _),
        Nat.add_sub_cancel_left, take_succ_cons, take_zero]
    rw [if_neg Bool.false_ne_true, hmain]
    refine ⟨ids, smpl', _, rfl, hboth, nofun, fun _ => ?_⟩
    have hfullLen : (s.tokens ++ s.sampled :: alt :: draft.tail).length = s.tokens.length + 1 + draft.length := by
      rw [length_append, length_cons, length_cons]
      omega
    have hpre : (s.tokens ++ s.sampled :: alt :: draft.tail).take (s.tokens ++ [s.sampled]).length = s.tokens ++ [s.sampled] := by
      rw [← hfull, take_left]
    have hgraft := @SeqMemory.seqRm_graft T.type _ _ ids.length hpre (by rw [hlen, hfullLen]; omega)
      (rollsBack_le (hroll rfl) (by rw [hlen, hfullLen]; omega))
    rw [hlen] at hgraft
    have hcut : (s.tokens ++ s.sampled :: alt :: draft.tail).take (s.tokens.length + 1 + ids.length) =
        s.tokens ++ s.sampled :: (alt :: ids).dropLast := by
      have hidsPos := length_pos_of_ne_nil hne
      have hback : (alt :: draft.tail).take ids.length = alt :: draft.tail.take (ids.length - 1) := by
        rw [← Nat.sub_add_cancel hidsPos, take_succ_cons, Nat.sub_add_cancel hidsPos]
      rw [← hfull, ← hlen, take_length_add_append, hback, dropLast_cons_of_ne_nil hne, hlast, append_assoc,
        singleton_append]
    rw [hcut] at hgraft
    rw [length_cons, Nat.add_comm ids.length 1, ← Nat.add_assoc]
    exact hgraft

theorem bank_spec {ver : Verified Smpl} (h : T.SpecInv prompt smpl₀ s) (hreleased : s.released = false)
    (hsamples : T.Samples s.smpl (s.tokens ++ [s.sampled]) ver.accepted ver.smpl) (hne : ver.accepted ≠ [])
    (hmem : ver.mem.seqRm T.type (s.tokens.length + ver.accepted.length) =
      some (.ofTokens (s.tokens ++ s.sampled :: ver.accepted.dropLast))) :
    ∃ s', T.bank s draft ver = some s' ∧ T.SpecOk prompt smpl₀ s' ∧ s.emitted.length < s'.emitted.length := by
  have hpos := length_pos_of_ne_nil hne
  have htoks : (s.tokens ++ s.sampled :: draft).take ((s.tokens ++ s.sampled :: draft).length - draft.length) ++ ver.accepted.dropLast =
      s.tokens ++ s.sampled :: ver.accepted.dropLast := by
    have hkeep : (s.tokens ++ s.sampled :: draft).length - draft.length = s.tokens.length + 1 := by
      rw [length_append, length_cons]
      omega
    rw [hkeep, take_length_add_append, take_succ_cons, take_zero, append_assoc, singleton_append]
  have hlen : (s.tokens ++ s.sampled :: ver.accepted.dropLast).length = s.tokens.length + ver.accepted.length := by
    rw [length_append, length_cons, length_dropLast]
    omega
  have hprompt : s.tokens ++ s.sampled :: ver.accepted.dropLast = prompt ++ (s.emitted ++ ver.accepted).dropLast := by
    rw [dropLast_append_of_ne_nil hne, ← append_assoc, ← h.tokens, append_assoc, singleton_append]
  have hall : T.Samples smpl₀ prompt (s.emitted ++ ver.accepted) ver.smpl := h.samples.append (h.tokens ▸ hsamples)
  unfold bank
  dsimp only
  rw [htoks, hlen, hmem]
  refine ⟨_, rfl, ?_⟩
  have hprocess := @processAll_spec Row Smpl T prompt ver.accepted
    { s with tokens := s.tokens ++ s.sampled :: ver.accepted.dropLast, smpl := ver.smpl
             mem := .ofTokens (s.tokens ++ s.sampled :: ver.accepted.dropLast), specDraft := [] }
    smpl₀ (s.emitted ++ ver.accepted) rfl (append_ne_nil_of_right_ne_nil _ hne) hprompt rfl hall h.quiet
    (fun hnil => absurd hnil hne) hreleased rfl
  refine ⟨hprocess.1, Nat.lt_of_lt_of_le ?_ hprocess.2.1⟩
  show s.emitted.length < s.emitted.length + min ver.accepted.length 1
  omega

/-- The checkpoint was taken before the round. -/
def CkptOf (s : SpecSlot Smpl) : Prop :=
  s.specCkpt = { nTokens := s.tokens.length, posMax := s.tokens.length - 1, part := some s.tokens }

/-- The state before the round is restored, and the accepted tokens are to be decoded again. -/
theorem restore_spec {accepted : List Int} (h : T.SpecInv prompt smpl₀ s) (hckpt : CkptOf s) (hne : accepted ≠ [])
    (hsamples : T.Samples s.smpl (s.tokens ++ [s.sampled]) accepted smpl) :
    ∃ s', T.restore s accepted (.ofTokens (s.tokens ++ s.sampled :: draft)) = some s' ∧ s'.released = s.released ∧
      T.SpecInv prompt smpl₀ s' ∧ s'.specDraft ≠ [] := by
  have hpos : ((s.tokens.length : Int) - 1 + 1).toNat = s.tokens.length := by omega
  have hpre : (s.tokens ++ s.sampled :: draft).take s.tokens.length = s.tokens := take_left
  unfold restore
  rw [hckpt]
  rw [bind_some, hpos, SeqMemory.seqRm_restored hpre (rollsBack_zero _)]
  refine ⟨_, rfl, rfl, ⟨?_, ?_, h.samples, h.quiet, fun _ => ⟨?_, smpl, ?_⟩, h.nonempty⟩, hne⟩
  · rw [take_length]
  · rw [take_length]
    exact h.tokens
  · exact some_ne_none _
  · rw [take_length]
    exact hsamples

/-- What is accepted in the end, with the branch or without it, and the memory that is left for it. -/
theorem verified_spec (replay : Bool) (hmem : s.mem = .ofTokens s.tokens) (hdraft : draft ≠ [])
    (hsamples : T.Samples s.smpl (s.tokens ++ [s.sampled]) ids smpl) (hne : ids ≠ [])
    (hle : ids.length ≤ draft.length + 1) (hlast : ids.dropLast = draft.take (ids.length - 1)) :
    ∃ ver, T.withBranch s r draft replay (T.useCkpt (draft.length + 1 - ids.length))
        ⟨ids, smpl, .ofTokens (s.tokens ++ s.sampled :: draft)⟩ = some ver ∧
      T.Samples s.smpl (s.tokens ++ [s.sampled]) ver.accepted ver.smpl ∧ ver.accepted ≠ [] ∧
      (0 < draft.length + 1 - ids.length ∧ T.useCkpt (draft.length + 1 - ids.length) = true →
        ver.mem = .ofTokens (s.tokens ++ s.sampled :: draft)) ∧
      (¬(0 < draft.length + 1 - ids.length ∧ T.useCkpt (draft.length + 1 - ids.length) = true) →
        ver.mem.seqRm T.type (s.tokens.length + ver.accepted.length) =
          some (.ofTokens (s.tokens ++ s.sampled :: ver.accepted.dropLast))) := by
  have hpos := length_pos_of_ne_nil hne
  have hdraftPos := length_pos_of_ne_nil hdraft
  -- without the branch the rejected part of the draft is removed
  have hplain : ¬(0 < draft.length + 1 - ids.length ∧ T.useCkpt (draft.length + 1 - ids.length) = true) →
      (SeqMemory.ofTokens (s.tokens ++ s.sampled :: draft)).seqRm T.type (s.tokens.length + ids.length) =
        some (.ofTokens (s.tokens ++ s.sampled :: ids.dropLast)) := by
    intro hnot
    have hgone : (s.tokens ++ s.sampled :: draft).length - (s.tokens.length + ids.length) = draft.length + 1 - ids.length := by
      rw [length_append, length_cons]
      omega
    have hroll : T.type.rollsBack (draft.length + 1 - ids.length) = true := by
      rcases Nat.eq_zero_or_pos (draft.length + 1 - ids.length) with hzero | hsome
      · rw [hzero]
        exact rollsBack_zero _
      · exact rollsBack_of_not_useCkpt (Bool.eq_false_iff.mpr fun hyes => hnot ⟨hsome, hyes⟩)
    rw [SeqMemory.seqRm_ofTokens (hgone.symm ▸ hroll), take_length_add_append, ← Nat.sub_add_cancel hpos, take_succ_cons, hlast]
  unfold withBranch
  split
  · rename_i alt harm
    by_cases htaken : ids = [alt]
    · subst htaken
      have hall : draft.length + 1 - [alt].length = draft.length := Nat.add_sub_cancel ..
      rw [hall]
      obtain ⟨rest, smpl', mem', hwalk, hboth, hkept, hcut⟩ :=
        walkBranch_spec (T.useCkpt draft.length) hmem hdraft hsamples rollsBack_of_not_useCkpt
      exact ⟨_, hwalk, hboth, cons_ne_nil _ _, fun hckpt => hkept hckpt.2,
        fun hnot => hcut (Bool.eq_false_iff.mpr fun hyes => hnot ⟨hdraftPos, hyes⟩)⟩
    · exact ⟨_, if_neg htaken, hsamples, hne, fun _ => rfl, hplain⟩
  · exact ⟨_, rfl, hsamples, hne, fun _ => rfl, hplain⟩

/-- A round with a draft emits what plain decoding does, or leaves the accepted tokens to be decoded again. -/
theorem verify_spec (replay : Bool) (h : T.SpecInv prompt smpl₀ s) (hreleased : s.released = false)
    (hcoupled : r.coupled = none) (hdraft : draft ≠ [])
    (hreplay : replay = true → ∃ smpl', T.Samples s.smpl (s.tokens ++ [s.sampled]) draft smpl')
    (hckpt : replay = false → T.useCkpt draft.length = true → CkptOf s) :
    ∃ s', T.verify s r draft replay = some s' ∧ T.SpecOk prompt smpl₀ s' ∧
      (s.emitted.length < s'.emitted.length ∨ replay = false ∧ s'.specDraft ≠ []) := by
  obtain ⟨ids, smpl', haccept, hsamples, hne, hle, hlast, hall⟩ := T.sampleAndAcceptN_rows s.smpl s.tokens s.sampled draft
  obtain ⟨ver, hver, hboth, hverNe, hkept, hcut⟩ := @verified_spec Row Smpl T ids draft smpl' s r replay h.mem hdraft hsamples hne hle hlast
  unfold verify
  rw [h.mem, decode_ofTokens, hcoupled]
  dsimp only [getD_none]
  rw [ite_self, haccept]
  dsimp only
  rw [hver, bind_some]
  split
  · rename_i hrestore
    have hfresh : replay = false := by
      rw [← Bool.not_eq_true]
      intro hyes
      obtain ⟨smpl₁, hdraftSamples⟩ := hreplay hyes
      have heq := hall smpl₁ hdraftSamples
      omega
    have hckpt := hckpt hfresh (useCkpt_le hrestore.2 (by have := length_pos_of_ne_nil hne; omega))
    rw [hkept hrestore]
    obtain ⟨s', hs', hreleased', hinv, hleft⟩ := restore_spec h hckpt hverNe hboth
    exact ⟨s', hs', .inl ⟨hreleased'.trans hreleased, hinv⟩, .inr ⟨hfresh, hleft⟩⟩
  · rename_i hnot
    obtain ⟨s', hs', hok, hmore⟩ := bank_spec h hreleased hboth hverNe (hcut hnot)
    exact ⟨s', hs', hok, .inl hmore⟩

theorem decodeOne_spec (h : T.SpecInv prompt smpl₀ s) (hreleased : s.released = false) (hdraft : s.specDraft = []) :
    T.SpecOk prompt smpl₀ (T.decodeOne s) ∧ s.emitted.length < (T.decodeOne s).emitted.length := by
  obtain ⟨ids, smpl', haccept, hsamples, hne, -, hlast, -⟩ := T.sampleAndAcceptN_rows s.smpl s.tokens s.sampled []
  have hone : ids.dropLast = [] := hlast.trans take_nil
  have hprompt : s.tokens ++ [s.sampled] = prompt ++ (s.emitted ++ ids).dropLast := by
    rw [dropLast_append_of_ne_nil hne, hone, append_nil, h.tokens]
  have hall : T.Samples smpl₀ prompt (s.emitted ++ ids) smpl' := h.samples.append (h.tokens ▸ hsamples)
  unfold decodeOne
  rw [h.mem, decode_ofTokens]
  dsimp only
  rw [haccept]
  have hprocess := @processAll_spec Row Smpl T prompt ids
    { s with tokens := s.tokens ++ [s.sampled], mem := .ofTokens (s.tokens ++ [s.sampled]), smpl := smpl' }
    smpl₀ (s.emitted ++ ids) rfl (append_ne_nil_of_right_ne_nil _ hne) hprompt rfl hall h.quiet
    (fun hnil => absurd hnil hne) hreleased hdraft
  refine ⟨hprocess.1, Nat.lt_of_lt_of_le ?_ hprocess.2.1⟩
  have hpos := length_pos_of_ne_nil hne
  show s.emitted.length < s.emitted.length + min ids.length 1
  omega

/-- What a round is given: a draft that fits, without proposal distributions. -/
def RoundOk (T : SpecTarget Row Smpl) (s : SpecSlot Smpl) (r : SpecRound Smpl) : Prop :=
  r.draft.length ≤ T.nDraftMax s ∧ r.coupled = none

/-- A round of a slot that goes on and has room. -/
theorem round_spec (h : T.SpecInv prompt smpl₀ s) (hreleased : s.released = false) (hok : RoundOk T s r)
    (hroom : s.tokens.length + 1 < T.nCtx) : ∃ s', T.round s r = some s' ∧ T.SpecOk prompt smpl₀ s' ∧
      (s.emitted.length < s'.emitted.length ∨ s.specDraft = [] ∧ s'.specDraft ≠ []) := by
  have hgo : ¬(s.released = true ∨ T.nCtx ≤ s.tokens.length + 1) := by
    rintro (hyes | hfull)
    · exact nomatch hreleased.symm.trans hyes
    · omega
  unfold round
  rw [if_neg hgo]
  by_cases hagain : s.specDraft = []
  · rw [if_neg (not_not_intro hagain)]
    by_cases hdraft : r.draft = []
    · rw [if_pos hdraft]
      obtain ⟨hnext, hmore⟩ := decodeOne_spec h hreleased hagain
      exact ⟨_, rfl, hnext, .inl hmore⟩
    · rw [if_neg hdraft, if_neg (Nat.not_lt.mpr hok.1)]
      have hinv : T.SpecInv prompt smpl₀ (T.checkpoint s r.draft.length) :=
        ⟨h.mem, h.tokens, h.samples, h.quiet, fun hyes => absurd hagain hyes, h.nonempty⟩
      have hckpt (hyes : T.useCkpt r.draft.length = true) : CkptOf (T.checkpoint s r.draft.length) := by
        have hpart : s.mem.part = s.tokens := congrArg SeqMemory.part h.mem
        unfold CkptOf checkpoint
        rw [if_pos hyes, hpart, h.mem, SeqMemory.seqPosMax_ofTokens]
      obtain ⟨s', hs', hnext, hmore⟩ := verify_spec false hinv hreleased hok.2 hdraft nofun fun _ => hckpt
      refine ⟨s', hs', hnext, hmore.imp_right fun hleft => ⟨hagain, hleft.2⟩⟩
  · obtain ⟨hpart, hsamples⟩ := h.replay hagain
    rw [if_pos hagain, if_neg fun hall => hpart hall.2.2]
    obtain ⟨s', hs', hnext, hmore⟩ := verify_spec true h hreleased hok.2 hagain (fun _ => hsamples) nofun
    exact ⟨s', hs', hnext, hmore.imp_right fun hleft => nomatch hleft.1⟩

/-! ## Runs -/

/-- Plain decoding that did not end yields what plain sampling does. -/
theorem plain_eq (hsamples : T.Samples smpl₀ prompt ids smpl)
    (hquiet : ∀ a, a <+: ids → a ≠ [] → a ≠ ids → T.ends prompt a = false) :
    T.plain prompt smpl₀ ids.length = { smpl := smpl, emitted := ids, done := !ids.isEmpty && T.ends prompt ids } := by
  induction ids using List.reverseRecOn generalizing smpl with
  | nil =>
    obtain rfl : smpl₀ = smpl := hsamples
    rfl
  | append_singleton ids id ih =>
    obtain ⟨smpl', hfront, hid, hlast⟩ := hsamples.split
    have hends : T.ends prompt ids = false ∨ ids = [] := by
      by_cases hnil : ids = []
      · exact .inr hnil
      · exact .inl (hquiet ids (prefix_append _ _) hnil fun heq => cons_ne_nil id [] (self_eq_append_right.mp heq))
    have hgo : (!ids.isEmpty && T.ends prompt ids) = false := by
      rcases hends with hends | rfl
      · rw [hends, Bool.and_false]
      · rfl
    have hbefore := ih hfront fun a ha hne hproper =>
      hquiet a (ha.trans (prefix_append _ _)) hne fun heq => by
        have hle := ha.length_le
        rw [heq, length_append, length_singleton] at hle
        omega
    rw [length_append, length_singleton, plain, hbefore, plainStep, hgo, if_neg Bool.false_ne_true]
    dsimp only
    obtain rfl : T.accept (T.sample (T.logits (prompt ++ ids) (prompt ++ ids)) smpl').2 id = smpl := hlast
    rw [hid]
    simp

theorem start_spec (T : SpecTarget Row Smpl) (prompt : List Int) (smpl₀ : Smpl) : T.SpecOk prompt smpl₀ (T.start prompt smpl₀) := by
  unfold start
  have hone : prompt = prompt ++ [(T.sample (T.logits prompt prompt) smpl₀).1].dropLast := by
    rw [dropLast_singleton, append_nil]
  have hsamples : T.Samples smpl₀ prompt [(T.sample (T.logits prompt prompt) smpl₀).1]
      (T.accept (T.sample (T.logits prompt prompt) smpl₀).2 (T.sample (T.logits prompt prompt) smpl₀).1) := ⟨rfl, rfl⟩
  exact (@processAll_spec Row Smpl T prompt _ { tokens := prompt, sampled := _, smpl := _, mem := .ofTokens prompt } smpl₀ _ rfl
    (cons_ne_nil _ _) hone rfl hsamples (fun a ha hne => absurd (prefix_nil.mp ha) hne) nofun rfl rfl).1

instance (T : SpecTarget Row Smpl) (s : SpecSlot Smpl) (r : SpecRound Smpl) : Decidable (RoundOk T s r) :=
  inferInstanceAs (Decidable (_ ∧ _))

theorem SpecOk.round {s' : SpecSlot Smpl} (h : T.SpecOk prompt smpl₀ s) (hok : RoundOk T s r)
    (hround : T.round s r = some s') : T.SpecOk prompt smpl₀ s' := by
  have hgo : ¬(s.released = true ∨ T.nCtx ≤ s.tokens.length + 1) := fun hyes => by
    unfold SpecTarget.round at hround
    rw [if_pos hyes] at hround
    nomatch hround
  rw [not_or, Nat.not_le] at hgo
  rcases h with ⟨hreleased, hinv⟩ | ⟨hreleased, -⟩
  · obtain ⟨s'', hs'', hnext, -⟩ := round_spec hinv hreleased hok hgo.2
    obtain rfl := some.inj (hround.symm.trans hs'')
    exact hnext
  · exact absurd hreleased hgo.1

/-- A target whose next token is the number of tokens it has seen. -/
def counting (type : SeqRmType) (nCtx : Nat) (stops : List Int → Bool) : SpecTarget Nat Unit where
  type := type
  nCtx := nCtx
  ctxShift := false
  logits := fun toks part => if toks = part then toks.length else 0
  sample := fun n _ => (n, ())
  accept := fun _ _ => ()
  stops := stops

end SpecTarget

end LlamaCpp.Server
