import LlamaCpp.Server.CommonPrefix
import LlamaCpp.Server.PromptStart

/-!
# What is reused of a cached prompt

The loop over the chunks edits the token list and the cells in place.  Its invariant (`ReuseInv`) is that up to
`head_p` both are those of the new prompt, and that behind the last chunk that was moved both are still those of the
cached prompt.  So what is kept in the end is the beginning of the new prompt, unless a checkpoint is loaded that
holds something else.

The chunks may reach behind the start of an aLoRA invocation: the loop starts in front of it, and has no such limit.
`reuseExact_iff` says when the start of a prompt is exact.
-/

namespace LlamaCpp.Server

open List Option

structure TextOnly (s : ServerTokens) : Prop where
  noMedia : s.mapIdxToMedia = []
  noNull : s.hasMtmd = true → llamaTokenNull ∉ s.tokens

section Text

variable {s b : ServerTokens} {n fuel i : Nat}

theorem TextOnly.chunkAt (h : TextOnly s) (i : Nat) : s.chunkAt i = none := by
  unfold ServerTokens.chunkAt
  rw [h.noMedia]
  rfl

/-- From an index on, the loop with media goes on like the one without. -/
theorem TextOnly.commonPrefixLoop (h : TextOnly s) (hmtmd : s.hasMtmd = true) (hfuel : min s.tokens.length b.tokens.length ≤ fuel + i)
    (hi : i ≤ min s.tokens.length b.tokens.length) :
    commonPrefixLoop s b (min s.tokens.length b.tokens.length) fuel i =
      some (i + textPrefix (s.tokens.drop i) (b.tokens.drop i)) := by
  have hend (hle : min s.tokens.length b.tokens.length ≤ i) : textPrefix (s.tokens.drop i) (b.tokens.drop i) = 0 := by
    obtain ⟨hleft, hright, -⟩ := textPrefix_spec (s.tokens.drop i) (b.tokens.drop i)
    rw [length_drop] at hleft hright
    omega
  induction fuel generalizing i with
  | zero =>
    unfold Server.commonPrefixLoop
    rw [hend (by omega)]
    exact congrArg some (by omega)
  | succ fuel ih =>
    unfold Server.commonPrefixLoop
    split
    · rename_i hle
      rw [hend hle]
      exact congrArg some (by omega)
    · rename_i hlt
      have hia : i < s.tokens.length := by omega
      have hib : i < b.tokens.length := by omega
      have hnull : s.tokens.getD i 0 ≠ llamaTokenNull := by
        rw [getD_eq_getElem?_getD, getElem?_eq_getElem hia]
        exact fun heq => h.noNull hmtmd (heq ▸ getElem_mem hia)
      rw [drop_eq_getElem_cons hia, drop_eq_getElem_cons hib, textPrefix]
      rw [if_neg fun hboth => hnull hboth.1]
      rw [getD_eq_getElem?_getD, getElem?_eq_getElem hia, getD_eq_getElem?_getD,
        getElem?_eq_getElem hib, getD_some, getD_some]
      split
      · rw [ih (by omega) (by omega)]
        · exact congrArg some (by omega)
        · intro hle
          obtain ⟨hleft, hright, -⟩ := textPrefix_spec (s.tokens.drop (i + 1)) (b.tokens.drop (i + 1))
          rw [length_drop] at hleft hright
          omega
      · rfl

theorem TextOnly.getCommonPrefix (h : TextOnly s) (b : ServerTokens) :
    s.getCommonPrefix b = some (textPrefix s.tokens b.tokens) := by
  unfold ServerTokens.getCommonPrefix
  split
  · rfl
  · rename_i hmtmd
    rw [h.commonPrefixLoop (by simpa using hmtmd) (by omega) (Nat.zero_le _), Nat.zero_add, drop_zero, drop_zero]

theorem TextOnly.posNext (h : TextOnly s) (hn : n ≤ s.tokens.length) : s.posNext n = some n := by
  have hloop (fuel i : Nat) (hi : i ≤ n) (hfuel : n ≤ fuel + i) : posNextLoop s n fuel i i = some n := by
    induction fuel generalizing i with
    | zero =>
      unfold posNextLoop
      exact congrArg some (by omega)
    | succ fuel ih =>
      unfold posNextLoop
      split
      · exact congrArg some (by omega)
      · rw [h.chunkAt]
        exact ih (i + 1) (by omega) (by omega)
  unfold ServerTokens.posNext
  split
  · rfl
  · rw [if_neg (Nat.not_lt.mpr hn)]
    exact hloop n 0 (Nat.zero_le n) (Nat.le_refl n)

theorem TextOnly.posNextAll (h : TextOnly s) : s.posNextAll = s.tokens.length := by
  unfold ServerTokens.posNextAll
  rw [h.noMedia]
  split <;> simp

theorem TextOnly.sizeUpToPos (h : TextOnly s) {p : Int} (hp : 1 ≤ p) : s.sizeUpToPos p = some (min p.toNat s.tokens.length) := by
  have hloop (fuel i : Nat) (hi : i ≤ s.tokens.length) (hip : (i : Int) < p) (hfuel : s.tokens.length ≤ fuel + i) :
      sizeUpToPosLoop s p fuel i i = some (min p.toNat s.tokens.length) := by
    induction fuel generalizing i with
    | zero =>
      unfold sizeUpToPosLoop
      exact congrArg some (by omega)
    | succ fuel ih =>
      unfold sizeUpToPosLoop
      split
      · exact congrArg some (by omega)
      · rw [h.chunkAt]
        dsimp only
        split
        · exact congrArg some (by omega)
        · exact ih (i + 1) (by omega) (by omega) (by omega)
  unfold ServerTokens.sizeUpToPos
  split
  · rw [if_neg (by omega)]
  · exact hloop _ 0 (Nat.zero_le _) (by omega) (by omega)

theorem TextOnly.take (h : TextOnly s) (n : Nat) : TextOnly { s with tokens := s.tokens.take n } where
  noMedia := h.noMedia
  noNull := fun hmtmd hmem => h.noNull hmtmd (mem_of_mem_take hmem)

theorem TextOnly.keepFirst (h : TextOnly s) (hn : n ≤ s.tokens.length) :
    s.keepFirst n = .returned { s with tokens := s.tokens.take n } := by
  unfold ServerTokens.keepFirst
  rw [if_neg (Nat.not_lt.mpr hn)]
  split
  · rename_i hmtmd
    have hcut : ¬s.CutInMedia n := fun hcut => h.noNull hmtmd (mem_of_getElem? hcut.2.1)
    split
    · rename_i heq
      rw [heq, take_length]
    · rw [if_neg fun hboth => hcut hboth.1, h.noMedia]
      rfl
  · rfl

end Text

/-! ## The chunks -/

/-- From place `c` of the cached prompt and place `p` of the new one, chunks of at least `k` tokens reach to `q`. -/
inductive ReachTo (cached input : List Int) (k : Nat) : Nat → Nat → Nat → Prop where
  | ended {c p : Nat} : cached.length ≤ c ∨ input.length ≤ p → ReachTo cached input k c p p
  | skipped {c p q : Nat} : c < cached.length → p < input.length →
      textPrefix (cached.drop c) (input.drop p) < k → ReachTo cached input k (c + 1) p q → ReachTo cached input k c p q
  | moved {c p q : Nat} : c < cached.length → p < input.length → k ≤ textPrefix (cached.drop c) (input.drop p) →
      ReachTo cached input k (c + textPrefix (cached.drop c) (input.drop p)) (p + textPrefix (cached.drop c) (input.drop p)) q →
      ReachTo cached input k c p q

section Loop

variable {cached input : List Int} {k n c : Nat} {σ : Reuse} {rest : Nat}

theorem textPrefix_take (as bs : List Int) : as.take (textPrefix as bs) = bs.take (textPrefix as bs) := by
  obtain ⟨-, -, heq, -⟩ := textPrefix_spec as bs
  refine ext_getElem? fun i => ?_
  rw [getElem?_take, getElem?_take]
  split
  · rename_i hi
    exact heq i hi
  · rfl

theorem setTokens_rest (toks : ServerTokens) (headP headC n : Nat) :
    (Reuse.setTokens toks headP headC n).hasMtmd = toks.hasMtmd ∧
      (Reuse.setTokens toks headP headC n).mapIdxToMedia = toks.mapIdxToMedia ∧
      (Reuse.setTokens toks headP headC n).tokens.length = toks.tokens.length := by
  induction n with
  | zero => exact ⟨rfl, rfl, rfl⟩
  | succ n ih =>
    unfold Reuse.setTokens at ih ⊢
    rw [range_succ, foldl_append, foldl_cons, foldl_nil]
    obtain ⟨hmtmd, hmap, hlen⟩ := ih
    exact ⟨hmtmd, hmap, (length_set ..).trans hlen⟩

theorem setTokens_getElem? (toks : ServerTokens) {headP headC : Nat} (hle : headP ≤ headC) (n : Nat)
    (hn : headC + n ≤ toks.tokens.length) (j : Nat) :
    (Reuse.setTokens toks headP headC n).tokens[j]? =
      if headP ≤ j ∧ j < headP + n then toks.tokens[headC + (j - headP)]? else toks.tokens[j]? := by
  induction n generalizing j with
  | zero => simp [Reuse.setTokens]
  | succ n ih =>
    have hsucc : Reuse.setTokens toks headP headC (n + 1) = (Reuse.setTokens toks headP headC n).setToken (headP + n)
        ((Reuse.setTokens toks headP headC n).tokens.getD (headC + n) 0) := by
      unfold Reuse.setTokens
      rw [range_succ, foldl_append, foldl_cons, foldl_nil]
    have hread : (Reuse.setTokens toks headP headC n).tokens.getD (headC + n) 0 = toks.tokens.getD (headC + n) 0 := by
      -- what is read has not been written
      rw [getD_eq_getElem?_getD, ih (by omega), if_neg (by omega), getD_eq_getElem?_getD]
    obtain ⟨-, -, hlen⟩ := setTokens_rest toks headP headC n
    rw [hsucc, hread]
    dsimp only [ServerTokens.setToken]
    rw [getElem?_set]
    by_cases hj : headP + n = j
    · subst hj
      rw [if_pos rfl, if_pos (by omega), if_pos (by omega), getD_eq_getElem?_getD, Nat.add_sub_cancel_left,
        getElem?_eq_getElem (by omega)]
      rfl
    · rw [if_neg hj, ih (by omega)]
      by_cases hin : headP ≤ j ∧ j < headP + n
      · rw [if_pos hin, if_pos (by omega)]
      · rw [if_neg hin, if_neg (by omega)]

/-- Up to `head_p` the tokens are those of the new prompt; from `rest` on, which is the end of the last chunk that was
moved, they are those of the cached prompt. -/
structure TokensInv (cached input : List Int) (rest : Nat) (σ : Reuse) : Prop where
  noMtmd : σ.tokens.hasMtmd = false
  length : σ.tokens.tokens.length = cached.length
  head : σ.tokens.tokens.take σ.headP = input.take σ.headP
  tail : σ.tokens.tokens.drop rest = cached.drop rest
  headP_le : σ.headP ≤ rest
  rest_le : rest ≤ σ.headC
  headC_le : σ.headC ≤ cached.length
  input_le : σ.headP ≤ input.length
  past : σ.nPast = σ.headP

structure ReuseInv (cached input : List Int) (rest : Nat) (σ : Reuse) : Prop extends TokensInv cached input rest σ where
  mem : σ.mem.All fun cells => cells.Perm (MemCell.row (input.take σ.headP) 0 ++ MemCell.row (cached.drop rest) rest)

/-- What the two operations on the memory do to the cells of a chunk. -/
theorem cells_move {headP headC : Nat} (hp : headP ≤ rest) (hc : rest ≤ headC)
    (hn : headC + n ≤ cached.length) (hpi : headP + n ≤ input.length)
    (hmatch : (cached.drop headC).take n = (input.drop headP).take n) {cells : List MemCell}
    (h : cells.Perm (MemCell.row (input.take headP) 0 ++ MemCell.row (cached.drop rest) rest)) :
    (MemCell.seqAdd headC (headC + n : Nat) (headP - headC) (MemCell.seqRm headP headC cells)).Perm
      (MemCell.row (input.take (headP + n)) 0 ++ MemCell.row (cached.drop (headC + n)) (headC + n)) := by
  have hlo (p : Nat) : rangeLo (p : Int) = p := if_neg (Int.not_lt.mpr (Int.natCast_nonneg p))
  have hhi (p : Nat) : rangeHi (p : Int) = p := if_neg (Int.not_lt.mpr (Int.natCast_nonneg p))
  -- the cells between the heads are removed
  have hrm : (MemCell.seqRm headP headC cells).Perm
      (MemCell.row (input.take headP) 0 ++ MemCell.row (cached.drop headC) headC) := by
    refine (h.filter _).trans (List.Perm.of_eq ?_)
    have hsplit := MemCell.row_split (cached.drop rest) rest (headC - rest) (by rw [length_drop]; omega)
    rw [drop_drop, Nat.add_sub_cancel' hc] at hsplit
    rw [filter_append, hsplit, filter_append]
    have hfront : (MemCell.row (input.take headP) 0).filter (fun x => ¬x.In headP headC) = MemCell.row (input.take headP) 0 :=
      MemCell.seqRm_eq_self fun x hx hin => by
        have hbound := (MemCell.row_bounds hx).2
        rw [length_take] at hbound
        have hlow := hlo headP ▸ hin.1
        omega
    have hmid : (MemCell.row ((cached.drop rest).take (headC - rest)) rest).filter (fun x => ¬x.In headP headC) = [] :=
      MemCell.seqRm_eq_nil fun x hx => by
        obtain ⟨hlow, hhigh⟩ := MemCell.row_bounds hx
        rw [length_take, length_drop] at hhigh
        exact ⟨by rw [hlo]; omega, by rw [hhi]; omega⟩
    have hback : (MemCell.row (cached.drop headC) headC).filter (fun x => ¬x.In headP headC) = MemCell.row (cached.drop headC) headC :=
      MemCell.seqRm_eq_self fun x hx hin => by
        have hlow := (MemCell.row_bounds hx).1
        have hhigh := hhi headC ▸ hin.2
        omega
    rw [hfront, hmid, hback, nil_append]
  -- the chunk is moved, and the rest stays
  refine (hrm.filterMap _).trans (List.Perm.of_eq ?_)
  have hsplit := MemCell.row_split (cached.drop headC) headC n (by rw [length_drop]; omega)
  rw [drop_drop] at hsplit
  have hinput := MemCell.row_split (input.take (headP + n)) 0 headP (by rw [length_take]; omega)
  rw [take_take, Nat.min_eq_left (Nat.le_add_right _ _), drop_take, Nat.add_sub_cancel_left, Nat.zero_add] at hinput
  rw [hinput, filterMap_append, hsplit, filterMap_append, append_assoc]
  have hfront : (MemCell.row (input.take headP) 0).filterMap (MemCell.shift headC (headC + n : Nat) (headP - headC)) =
      MemCell.row (input.take headP) 0 :=
    MemCell.seqAdd_eq_self fun x hx hin => by
      have hbound := (MemCell.row_bounds hx).2
      rw [length_take] at hbound
      have hlow := hlo headC ▸ hin.1
      omega
  have hchunk : (MemCell.row ((cached.drop headC).take n) headC).filterMap (MemCell.shift headC (headC + n : Nat) (headP - headC)) =
      MemCell.row ((cached.drop headC).take n) headP := by
    refine MemCell.seqAdd_row (fun x hx => ?_) (by omega)
    obtain ⟨hlow, hhigh⟩ := MemCell.row_bounds hx
    rw [length_take] at hhigh
    exact ⟨by rw [hlo]; omega, by rw [hhi]; omega⟩
  have hback : (MemCell.row (cached.drop (headC + n)) (headC + n)).filterMap
      (MemCell.shift headC (headC + n : Nat) (headP - headC)) = MemCell.row (cached.drop (headC + n)) (headC + n) :=
    MemCell.seqAdd_eq_self fun x hx hin => by
      have hlow := (MemCell.row_bounds hx).1
      have hhigh := hhi (headC + n) ▸ hin.2
      omega
  rw [hfront, hchunk, hback, hmatch]

theorem TokensInv.drop_eq (h : TokensInv cached input rest σ) :
    σ.tokens.tokens.drop σ.headC = cached.drop σ.headC := by
  rw [← Nat.add_sub_cancel' h.rest_le, ← drop_drop, h.tail, drop_drop]

theorem TokensInv.nMatch_eq (h : TokensInv cached input rest σ) :
    σ.nMatch input = textPrefix (cached.drop σ.headC) (input.drop σ.headP) := by
  unfold Reuse.nMatch
  rw [h.drop_eq]

/-- A token of the cache is left behind. -/
theorem TokensInv.skip (h : TokensInv cached input rest σ) (hlt : σ.headC < cached.length) :
    TokensInv cached input rest { σ with headC := σ.headC + 1 } :=
  { h with
    rest_le := Nat.le_succ_of_le h.rest_le
    headC_le := hlt }

theorem TokensInv.move (h : TokensInv cached input rest σ) (hn : σ.headC + n ≤ cached.length)
    (hpi : σ.headP + n ≤ input.length)
    (hmatch : (cached.drop σ.headC).take n = (input.drop σ.headP).take n) :
    TokensInv cached input (σ.headC + n) (σ.move n) := by
  obtain ⟨hmtmd, -, hlen⟩ := setTokens_rest σ.tokens σ.headP σ.headC n
  have hle : σ.headP ≤ σ.headC := h.headP_le.trans h.rest_le
  have hget := setTokens_getElem? σ.tokens hle n (h.length ▸ hn)
  constructor
  case noMtmd => exact hmtmd.trans h.noMtmd
  case length => exact hlen.trans h.length
  case head =>
    refine ext_getElem? fun j => ?_
    show ((Reuse.setTokens σ.tokens σ.headP σ.headC n).tokens.take (σ.headP + n))[j]? = (input.take (σ.headP + n))[j]?
    rw [getElem?_take, getElem?_take]
    split
    · rename_i hj
      rw [hget]
      split
      · rename_i hin
        -- a token of the chunk
        have heq := congrArg (fun toks => toks[j - σ.headP]?) (h.drop_eq.symm ▸ hmatch)
        simp only [getElem?_take, getElem?_drop, if_pos (show j - σ.headP < n by omega)] at heq
        rw [heq, Nat.add_sub_cancel' hin.1]
      · have heq := congrArg (fun toks => toks[j]?) h.head
        simpa only [getElem?_take, if_pos (show j < σ.headP by omega)] using heq
    · rfl
  case tail =>
    refine ext_getElem? fun j => ?_
    show ((Reuse.setTokens σ.tokens σ.headP σ.headC n).tokens.drop (σ.headC + n))[j]? = (cached.drop (σ.headC + n))[j]?
    have heq := congrArg (fun toks => toks[n + j]?) h.drop_eq
    simp only [getElem?_drop] at heq
    rw [getElem?_drop, hget, if_neg (by omega), getElem?_drop, Nat.add_assoc]
    exact heq
  case headP_le => exact Nat.add_le_add_right hle n
  case rest_le => exact Nat.le_refl _
  case headC_le => exact hn
  case input_le => exact hpi
  case past => exact congrArg (· + n) h.past

theorem ReuseInv.move (h : ReuseInv cached input rest σ) (hn : σ.headC + n ≤ cached.length)
    (hpi : σ.headP + n ≤ input.length)
    (hmatch : (cached.drop σ.headC).take n = (input.drop σ.headP).take n) :
    ReuseInv cached input (σ.headC + n) (σ.move n) where
  toTokensInv := h.toTokensInv.move hn hpi hmatch
  mem := by
    have hcut : (σ.mem.seqRm σ.headP σ.headC).All fun cells =>
        (MemCell.seqAdd σ.headC (σ.headC + n : Nat) (σ.headP - σ.headC) cells).Perm
          (MemCell.row (input.take (σ.headP + n)) 0 ++ MemCell.row (cached.drop (σ.headC + n)) (σ.headC + n)) :=
      h.mem.seqRm fun cells hcells => cells_move h.headP_le h.rest_le hn hpi hmatch hcells
    exact hcut.seqAdd fun cells hcells => hcells

/-- An invariant of the loop that has `TokensInv`, with the place that the chunks reach to. -/
theorem loop_inv {I : Nat → Reuse → Prop} (htokens : ∀ rest σ, I rest σ → TokensInv cached input rest σ)
    (hskip : ∀ rest σ, I rest σ → σ.headC < cached.length → I rest { σ with headC := σ.headC + 1 })
    (hmove : ∀ rest σ n, I rest σ → σ.headC + n ≤ cached.length → σ.headP + n ≤ input.length →
      (cached.drop σ.headC).take n = (input.drop σ.headP).take n → I (σ.headC + n) (σ.move n))
    (h : I rest σ) (fuel : Nat) (hfuel : cached.length ≤ fuel + σ.headC) (hk : 0 < k) :
    ∃ rest', I rest' (Reuse.loop input k fuel σ) ∧
      ReachTo cached input k σ.headC σ.headP (Reuse.loop input k fuel σ).headP := by
  induction fuel generalizing σ rest with
  | zero => exact ⟨rest, h, .ended (.inl (by omega))⟩
  | succ fuel ih =>
    have ht := htokens rest σ h
    unfold Reuse.loop
    rw [ht.length, ht.nMatch_eq]
    split
    · rename_i hin
      split
      · rename_i hlong
        obtain ⟨hleft, hright, -⟩ := textPrefix_spec (cached.drop σ.headC) (input.drop σ.headP)
        rw [length_drop] at hleft hright
        have hmoved := hmove rest σ (textPrefix (cached.drop σ.headC) (input.drop σ.headP)) h (by omega) (by omega)
          (textPrefix_take _ _)
        obtain ⟨rest', hinv, hreach⟩ := ih hmoved (show cached.length ≤ fuel + (σ.headC + _) by omega)
        exact ⟨rest', hinv, .moved hin.1 hin.2 hlong hreach⟩
      · rename_i hshort
        obtain ⟨rest', hinv, hreach⟩ := ih (hskip rest σ h hin.1) (show cached.length ≤ fuel + (σ.headC + 1) by omega)
        exact ⟨rest', hinv, .skipped hin.1 hin.2 (Nat.not_le.mp hshort) hreach⟩
    · rename_i hout
      refine ⟨rest, h, .ended ?_⟩
      omega

theorem ReuseInv.loop (hk : 0 < k) (h : ReuseInv cached input rest σ) (fuel : Nat)
    (hfuel : cached.length ≤ fuel + σ.headC) :
    ∃ rest', ReuseInv cached input rest' (Reuse.loop input k fuel σ) ∧
      ReachTo cached input k σ.headC σ.headP (Reuse.loop input k fuel σ).headP :=
  loop_inv (fun _ _ h => h.toTokensInv) (fun _ _ h hlt => { toTokensInv := h.toTokensInv.skip hlt, mem := h.mem })
    (fun _ _ _ h => h.move) h fuel hfuel hk

theorem TokensInv.loop (hk : 0 < k) (h : TokensInv cached input rest σ) (fuel : Nat)
    (hfuel : cached.length ≤ fuel + σ.headC) :
    ∃ rest', TokensInv cached input rest' (Reuse.loop input k fuel σ) := by
  obtain ⟨rest', hinv, -⟩ := loop_inv (fun _ _ h => h) (fun _ _ h => h.skip) (fun _ _ _ h => h.move) h fuel hfuel hk
  exact ⟨rest', hinv⟩

theorem loop_media (input : List Int) (k fuel : Nat) (σ : Reuse) :
    (Reuse.loop input k fuel σ).tokens.mapIdxToMedia = σ.tokens.mapIdxToMedia := by
  induction fuel generalizing σ with
  | zero => rfl
  | succ fuel ih =>
    unfold Reuse.loop
    split
    · split
      · exact (ih _).trans (setTokens_rest _ _ _ _).2.1
      · exact ih _
    · rfl

/-- The chunks reach to one place only. -/
theorem ReachTo.unique {p q q' : Nat} (h : ReachTo cached input k c p q) (h' : ReachTo cached input k c p q') : q = q' := by
  induction h with
  | ended hend =>
    cases h' with
    | ended => rfl
    | skipped hc hp => omega
    | moved hc hp => omega
  | skipped hc hp hshort _ ih =>
    cases h' with
    | ended => omega
    | skipped _ _ _ hrest => exact ih hrest
    | moved _ _ hlong => omega
  | moved hc hp hlong _ ih =>
    cases h' with
    | ended => omega
    | skipped _ _ hshort => omega
    | moved _ _ _ hrest => exact ih hrest

end Loop

/-! ## The start of a prompt -/

/-- A text-only slot, whose memory holds every token of the cached prompt at its position.  A checkpoint is only taken
with cells. -/
structure CachedPrompt (s : SlotPrompt) : Prop where
  text : TextOnly s.tokens
  full : s.mem.Full s.tokens.tokens
  fits : (s.nTokens : Int) ≤ llamaPosMax
  taken : ∀ ckpt ∈ s.checkpoints, 0 ≤ ckpt.posMin

/-- What the start of a prompt and the removal behind it are to leave. -/
structure ReuseExact (task : StartTask) (s : SlotPrompt) (nPast : Nat) : Prop where
  tokens : s.tokens.tokens = task.tokens.tokens.take nPast
  noMedia : s.tokens.mapIdxToMedia = []
  lt : nPast < task.nTokens
  mem : s.mem.Holds (task.tokens.tokens.take nPast)
  invocation : 0 < task.aloraInvocationStart → (nPast : Int) ≤ task.aloraInvocationStart - 1

/-- The common prefix, which ends in front of the invocation of an aLoRA. -/
def commonHead (task : StartTask) (s : SlotPrompt) : Nat :=
  let n := textPrefix s.tokens.tokens task.tokens.tokens
  if 0 < task.aloraInvocationStart then min n (task.aloraInvocationStart - 1).toNat else n

/-- Chunks behind the common prefix are looked for. -/
def LooksForChunks (p : StartParams) (task : StartTask) (s : SlotPrompt) : Prop :=
  p.canShift = true ∧ s.tokens.hasMtmd = false ∧ 0 < task.nCacheReuse

/-- Common prefix and chunks reach to `q`. -/
def Reached (p : StartParams) (task : StartTask) (s : SlotPrompt) (q : Nat) : Prop :=
  if p.canSplit = true ∧ task.cachePrompt = true then
    (LooksForChunks p task s →
      ReachTo s.tokens.tokens task.tokens.tokens task.nCacheReuse.toNat (commonHead task s) (commonHead task s) q) ∧
    (¬LooksForChunks p task s → q = commonHead task s)
  else q = 0

/-- The place to go on from, and the checkpoint that is loaded, where the memory reaches back to the beginning. -/
def settled (p : StartParams) (task : StartTask) (s : SlotPrompt) (q : Nat) : Nat × Option SlotCheckpoint :=
  if 0 < q ∧ posMinThold p task q q ≤ 0 then
    match findCheckpoint s.checkpoints q (posMinThold p task q q) with
    | none => (0, none)
    | some ckpt => (min (min (min (q : Int) (max (ckpt.posMin + 1) ckpt.posMax)).toNat s.nTokens) ckpt.nTokens, some ckpt)
  else (q, none)

/-- Cut behind the first `n` tokens of the prompt, the checkpoint holds these. -/
def CheckpointFits (m : TargetMemory) (input : List Int) (n : Nat) (ckpt : SlotCheckpoint) : Prop :=
  if m.swa.isSome then (MemCell.seqRm n (-1) ckpt.cells).Subperm (MemCell.row (input.take n) 0)
  else (MemCell.seqRm n (-1) ckpt.cells).Perm (MemCell.row (input.take n) 0)

/-- What is reused ends in front of the invocation, and a checkpoint that is loaded holds tokens of the new prompt. -/
def ReuseSafe (p : StartParams) (task : StartTask) (s : SlotPrompt) : Prop :=
  ∃ q, Reached p task s q ∧
    (0 < task.aloraInvocationStart → (keepOne task.nTokens (settled p task s q).1 : Int) ≤ task.aloraInvocationStart - 1) ∧
    ∀ ckpt ∈ (settled p task s q).2,
      CheckpointFits s.mem task.tokens.tokens (keepOne task.nTokens (settled p task s q).1) ckpt

theorem Reached.unique {p : StartParams} {task : StartTask} {s : SlotPrompt} {q q' : Nat} (h : Reached p task s q)
    (h' : Reached p task s q') : q = q' := by
  unfold Reached at h h'
  split at h
  · rename_i hreuse
    rw [if_pos hreuse] at h'
    by_cases hlook : LooksForChunks p task s
    · exact (h.1 hlook).unique (h'.1 hlook)
    · exact (h.2 hlook).trans (h'.2 hlook).symm
  · rename_i hnot
    rw [if_neg hnot] at h'
    exact h.trans h'.symm

section Start

variable {p : StartParams} {task : StartTask} {s s' : SlotPrompt} {input : List Int} {q n : Nat}

/-- The slot with `q` tokens of the prompt that can be reused, and perhaps cells of the cached prompt behind them. -/
structure Prepared (s : SlotPrompt) (input : List Int) (s' : SlotPrompt) (q : Nat) : Prop where
  text : TextOnly s'.tokens
  length : s'.nTokens = s.nTokens
  head : s'.tokens.tokens.take q = input.take q
  le : q ≤ s.nTokens
  input_le : q ≤ input.length
  checkpoints : s'.checkpoints = s.checkpoints
  window : s'.mem.swa.isSome = s.mem.swa.isSome
  mem : ∃ tail rest, q ≤ rest ∧ rest + tail.length = s.nTokens ∧
    s'.mem.All fun cells => cells.Perm (MemCell.row (input.take q) 0 ++ MemCell.row tail rest)

/-- Nothing was moved, and the first `q` tokens are those of the new prompt. -/
theorem prepared_self (h : CachedPrompt s) (hle : q ≤ s.nTokens) (hinput : q ≤ input.length)
    (heq : s.tokens.tokens.take q = input.take q) : Prepared s input s q where
  text := h.text
  length := rfl
  head := heq
  le := hle
  input_le := hinput
  checkpoints := rfl
  window := rfl
  mem := by
    refine ⟨s.tokens.tokens.drop q, q, Nat.le_refl q, ?_, h.full.imp fun cells hcells => ?_⟩
    · rw [length_drop]
      exact Nat.add_sub_cancel' hle
    · rw [MemCell.row_split s.tokens.tokens 0 q hle, heq, Nat.zero_add] at hcells
      exact hcells

theorem commonHead_le (task : StartTask) (s : SlotPrompt) :
    commonHead task s ≤ textPrefix s.tokens.tokens task.tokens.tokens := by
  unfold commonHead
  split
  · exact Nat.min_le_left _ _
  · exact Nat.le_refl _

theorem prepared_commonHead (h : CachedPrompt s) : Prepared s task.tokens.tokens s (commonHead task s) := by
  obtain ⟨hle, hle', -⟩ := textPrefix_spec s.tokens.tokens task.tokens.tokens
  have hhead := commonHead_le task s
  refine prepared_self h (hhead.trans hle) (hhead.trans hle') ?_
  have heq := congrArg (List.take (commonHead task s)) (textPrefix_take s.tokens.tokens task.tokens.tokens)
  rwa [take_take, take_take, Nat.min_eq_left hhead] at heq

theorem loop_window (input : List Int) (k fuel : Nat) (σ : Reuse) :
    (Reuse.loop input k fuel σ).mem.swa.isSome = σ.mem.swa.isSome := by
  induction fuel generalizing σ with
  | zero => rfl
  | succ fuel ih =>
    unfold Reuse.loop
    split
    · split
      · refine (ih _).trans ?_
        simp [Reuse.move, TargetMemory.seqAdd, TargetMemory.seqRm]
      · exact ih _
    · rfl

theorem prepared_loop (h : CachedPrompt s) (hmtmd : s.tokens.hasMtmd = false) {k : Nat} (hk : 0 < k) {σ : Reuse}
    (hσ : Reuse.loop task.tokens.tokens k s.nTokens
      ⟨s.tokens, s.mem, commonHead task s, commonHead task s, commonHead task s⟩ = σ) :
    ReachTo s.tokens.tokens task.tokens.tokens k (commonHead task s) (commonHead task s) σ.nPast ∧
      Prepared s task.tokens.tokens { s with tokens := σ.tokens, mem := σ.mem } σ.nPast := by
  have hself := @prepared_commonHead task s h
  have hinit : ReuseInv s.tokens.tokens task.tokens.tokens (commonHead task s)
      ⟨s.tokens, s.mem, commonHead task s, commonHead task s, commonHead task s⟩ := by
    refine ⟨⟨hmtmd, rfl, hself.head, rfl, Nat.le_refl _, Nat.le_refl _, hself.le, hself.input_le, rfl⟩, ?_⟩
    refine h.full.imp fun cells hcells => ?_
    rw [MemCell.row_split s.tokens.tokens 0 _ hself.le, hself.head, Nat.zero_add] at hcells
    exact hcells
  obtain ⟨rest, hinv, hreach⟩ := hinit.loop hk s.nTokens (Nat.le_add_right _ _)
  have hwindow := loop_window task.tokens.tokens k s.nTokens
    ⟨s.tokens, s.mem, commonHead task s, commonHead task s, commonHead task s⟩
  have hmedia := loop_media task.tokens.tokens k s.nTokens
    ⟨s.tokens, s.mem, commonHead task s, commonHead task s, commonHead task s⟩
  rw [hσ] at hinv hreach hwindow hmedia
  rw [hinv.past]
  refine ⟨hreach, ⟨⟨hmedia.trans h.text.noMedia, fun hyes => ?_⟩, hinv.length, hinv.head, ?_, hinv.input_le, rfl, hwindow, ?_⟩⟩
  · exact nomatch hinv.noMtmd.symm.trans hyes
  · exact (hinv.headP_le.trans hinv.rest_le).trans hinv.headC_le
  · refine ⟨_, rest, hinv.headP_le, ?_, hinv.mem⟩
    rw [length_drop]
    exact Nat.add_sub_cancel' (hinv.rest_le.trans hinv.headC_le)

theorem reuse_spec (h : CachedPrompt s) (hsplit : p.canSplit = true) :
    s.reuse p task = none ∧ p.mctx = true ∧ s.tokens.hasMtmd = false ∨
      ∃ s' q, s.reuse p task = some (s', q) ∧ Reached p task s q ∧ Prepared s task.tokens.tokens s' q := by
  cases hcache : task.cachePrompt with
  | false =>
    refine .inr ⟨s, 0, ?_, ?_, prepared_self h (Nat.zero_le _) (Nat.zero_le _) rfl⟩
    · simp [SlotPrompt.reuse, hcache]
    · simp [Reached, hcache]
  | true =>
    have hreached (q : Nat) : Reached p task s q ↔
        (LooksForChunks p task s → ReachTo s.tokens.tokens task.tokens.tokens task.nCacheReuse.toNat
          (commonHead task s) (commonHead task s) q) ∧ (¬LooksForChunks p task s → q = commonHead task s) := by
      unfold Reached
      rw [if_pos ⟨hsplit, hcache⟩]
    have hreuse : s.reuse p task =
        if p.canShift ∧ !s.tokens.hasMtmd ∧ 0 < task.nCacheReuse then
          if p.mctx then none
          else
            let σ := Reuse.loop task.tokens.tokens task.nCacheReuse.toNat s.nTokens
              ⟨s.tokens, s.mem, commonHead task s, commonHead task s, commonHead task s⟩
            some ({ s with tokens := σ.tokens, mem := σ.mem }, σ.nPast)
        else some (s, commonHead task s) := by
      unfold SlotPrompt.reuse
      rw [if_pos hcache, h.text.getCommonPrefix]
      rfl
    rw [hreuse]
    split
    · rename_i hlook
      have hmtmd : s.tokens.hasMtmd = false := by simpa using hlook.2.1
      split
      · rename_i hmctx
        exact .inl ⟨rfl, hmctx, hmtmd⟩
      · obtain ⟨hreach, hprep⟩ := prepared_loop h hmtmd (Int.lt_toNat.mpr hlook.2.2) rfl
        exact .inr ⟨_, _, rfl, (hreached _).mpr ⟨fun _ => hreach, fun hnot => absurd ⟨hlook.1, hmtmd, hlook.2.2⟩ hnot⟩, hprep⟩
    · rename_i hnot
      refine .inr ⟨s, commonHead task s, rfl, (hreached _).mpr ⟨fun hlook => absurd ?_ hnot, fun _ => rfl⟩, prepared_commonHead h⟩
      exact ⟨hlook.1, by simp [hlook.2.1], hlook.2.2⟩

theorem Prepared.seqPosMin (hp : Prepared s input s' q) (hq : 0 < q) : s'.mem.seqPosMin = 0 := by
  obtain ⟨tail, rest, -, -, hmem⟩ := hp.mem
  have hcells := hmem.part
  refine MemCell.seqPosMin_eq_zero ?_ fun x hx => ?_
  · have hlen : 0 < (input.take q).length := by
      rw [length_take]
      exact Nat.lt_min.mpr ⟨hq, hq.trans_le hp.input_le⟩
    refine ⟨⟨0, (input.take q)[0]⟩, hcells.mem_iff.mpr (mem_append_left _ (MemCell.mem_row.mpr ⟨0, ?_, rfl⟩)), rfl⟩
    exact getElem?_eq_getElem hlen
  · rcases List.mem_append.mp (hcells.mem_iff.mp hx) with hx | hx
    · exact (Int.natCast_nonneg _).trans (MemCell.row_bounds hx).1
    · exact (Int.natCast_nonneg _).trans (MemCell.row_bounds hx).1

/-- Where the memory reaches back to the beginning, the place to go on from is settled by the numbers alone. -/
theorem restore_spec (h : CachedPrompt s) (hp : Prepared s task.tokens.tokens s' q) :
    (s'.restore p task q = none ∧ ∃ ckpt ∈ (settled p task s q).2, p.restores ckpt = false) ∨
      ∃ s'' posNext, s'.restore p task q = some (s'', (settled p task s q).1, posNext) ∧ s''.tokens = s'.tokens ∧
        s''.mem = (settled p task s q).2.elim s'.mem fun ckpt => s'.mem.load ckpt.cells := by
  have hle : q ≤ s'.nTokens := hp.length ▸ hp.le
  unfold SlotPrompt.restore settled
  rw [hp.text.posNext hle, bind_some, hp.checkpoints]
  rcases Nat.eq_zero_or_pos q with rfl | hq
  · exact .inr ⟨s', (0 : Nat), rfl, rfl, rfl⟩
  · rw [if_pos ⟨hq, hle⟩, hp.seqPosMin hq, if_neg (by decide)]
    by_cases hback : posMinThold p task q q ≤ 0
    · rw [if_pos hback, if_pos ⟨hq, hback⟩]
      cases hfind : findCheckpoint s.checkpoints q (posMinThold p task q q) with
      | none => exact .inr ⟨s', 0, rfl, rfl, rfl⟩
      | some ckpt =>
        have hmem : ckpt ∈ s.checkpoints := mem_reverse.mp (mem_of_find?_eq_some hfind)
        have hpos : (1 : Int) ≤ min (q : Int) (max (ckpt.posMin + 1) ckpt.posMax) := by
          have htaken := h.taken ckpt hmem
          omega
        dsimp only
        cases hrestores : p.restores ckpt with
        | false => exact .inl ⟨rfl, ckpt, rfl, hrestores⟩
        | true =>
          rw [if_pos rfl, hp.text.sizeUpToPos hpos]
          refine .inr ⟨{ s' with mem := s'.mem.load ckpt.cells }, min (q : Int) (max (ckpt.posMin + 1) ckpt.posMax), ?_, rfl, rfl⟩
          rw [show s.nTokens = s'.tokens.tokens.length from hp.length.symm, ← hp.checkpoints]
          rfl
    · rw [if_neg hback, if_neg fun hboth => hback hboth.2]
      exact .inr ⟨s', (q : Int), rfl, rfl, rfl⟩

theorem settled_le (p : StartParams) (task : StartTask) (s : SlotPrompt) (q : Nat) : (settled p task s q).1 ≤ q := by
  unfold settled
  split
  · split
    · exact Nat.zero_le q
    · dsimp only
      omega
  · exact Nat.le_refl q

theorem keepOne_le (nTokens nPast : Nat) : keepOne nTokens nPast ≤ nPast := by
  unfold keepOne
  split
  · exact Nat.sub_le _ _
  · exact Nat.le_refl _

theorem keepOne_lt {nTokens nPast : Nat} (hpos : 0 < nTokens) (hle : nPast ≤ nTokens) : keepOne nTokens nPast < nTokens := by
  unfold keepOne
  split <;> omega

/-- The cells behind the kept tokens are removed. -/
theorem Prepared.seqRm (h : CachedPrompt s) (hp : Prepared s input s' q) (hn : n ≤ q) :
    (s'.mem.seqRm n (-1)).Full (input.take n) := by
  obtain ⟨tail, rest, hrest, hlen, hmem⟩ := hp.mem
  refine hmem.seqRm fun cells hcells => (hcells.filter _).trans (List.Perm.of_eq ?_)
  have hfits := h.fits
  have hle := hp.le
  have hlo : rangeLo (n : Int) = n := if_neg (Int.not_lt.mpr (Int.natCast_nonneg n))
  have hhi : rangeHi (-1) = llamaPosMax := rfl
  have hsplit := MemCell.row_split (input.take q) 0 n (by rw [length_take]; have := hp.input_le; omega)
  rw [take_take, Nat.min_eq_left hn, Nat.zero_add] at hsplit
  rw [hsplit, append_assoc, filter_append]
  have hkeep : (MemCell.row (input.take n) 0).filter (fun x => ¬x.In n (-1)) = MemCell.row (input.take n) 0 :=
    MemCell.seqRm_eq_self fun x hx hin => by
      have hbound := (MemCell.row_bounds hx).2
      rw [length_take] at hbound
      have hlow := hlo ▸ hin.1
      omega
  have hdrop : (MemCell.row ((input.take q).drop n) n ++ MemCell.row tail rest).filter (fun x => ¬x.In n (-1)) = [] :=
    MemCell.seqRm_eq_nil fun x hx => by
      rw [MemCell.In, hlo, hhi]
      rcases List.mem_append.mp hx with hx | hx
      · obtain ⟨hlow, hhigh⟩ := MemCell.row_bounds hx
        rw [length_drop, length_take] at hhigh
        omega
      · obtain ⟨hlow, hhigh⟩ := MemCell.row_bounds hx
        omega
  rw [hkeep, hdrop, append_nil]

/-- The memory of the slot after the checkpoint was loaded and the cells behind the kept tokens were removed. -/
theorem Prepared.holds_iff (h : CachedPrompt s) (hp : Prepared s input s' q) (hn : n ≤ q) (ckpt : Option SlotCheckpoint) :
    ((ckpt.elim s'.mem fun ckpt => s'.mem.load ckpt.cells).seqRm n (-1)).Holds (input.take n) ↔
      ∀ ckpt' ∈ ckpt, CheckpointFits s.mem input n ckpt' := by
  obtain ⟨hbase, hswa⟩ := hp.seqRm h hn
  cases ckpt with
  | none =>
    refine iff_of_true ⟨hbase, fun cells hcells => (hswa cells hcells).subperm⟩ nofun
  | some ckpt =>
    have hone : (∀ ckpt' ∈ some ckpt, CheckpointFits s.mem input n ckpt') ↔ CheckpointFits s.mem input n ckpt :=
      ⟨fun hall => hall ckpt rfl, fun hfits ckpt' hmem => some.inj hmem ▸ hfits⟩
    rw [hone, elim_some]
    unfold CheckpointFits TargetMemory.load
    rw [← hp.window]
    cases hwindow : s'.mem.swa with
    | none =>
      rw [isSome_none, if_neg (by decide)]
      exact ⟨fun hholds => hholds.1, fun hperm => ⟨hperm, by simp [TargetMemory.seqRm]⟩⟩
    | some cells =>
      rw [isSome_some, if_pos rfl]
      exact ⟨fun hholds => hholds.2 _ rfl, fun hsub => ⟨hbase, fun cells' hcells' => some.inj hcells' ▸ hsub⟩⟩

theorem TextOnly.keep (h : TextOnly s.tokens) (hn : n ≤ s.nTokens) :
    s.keep n = .ready { s with tokens := { s.tokens with tokens := s.tokens.tokens.take n } } n := by
  unfold SlotPrompt.keep
  rw [h.keepFirst hn]

/-- A start that leaves the slot ready, in its parts. -/
theorem start_ready (h : CachedPrompt s) (hready : s.start p task = .ready s' n) :
    0 < task.nTokens ∧ ∃ s₁ q, Reached p task s q ∧ Prepared s task.tokens.tokens s₁ q ∧
      n = keepOne task.nTokens (settled p task s q).1 ∧ s'.tokens = { s₁.tokens with tokens := s₁.tokens.tokens.take n } ∧
      s'.mem = (settled p task s q).2.elim s₁.mem fun ckpt => s₁.mem.load ckpt.cells := by
  unfold SlotPrompt.start at hready
  have hpos : task.nTokens ≠ 0 := fun hzero => by
    rw [if_pos hzero] at hready
    nomatch hready
  rw [if_neg hpos] at hready
  refine ⟨Nat.pos_of_ne_zero hpos, ?_⟩
  cases hsplit : p.canSplit with
  | false =>
    have hsettled : settled p task s 0 = (0, none) := if_neg fun hboth => Nat.lt_irrefl 0 hboth.1
    have hkeep : keepOne task.nTokens 0 = 0 := if_neg fun hboth => Nat.lt_irrefl 0 hboth.2
    rw [hsplit, if_pos (by decide), hkeep, h.text.keep (Nat.zero_le _)] at hready
    split at hready
    · nomatch hready
    · obtain ⟨rfl, rfl⟩ := Started.ready.inj hready
      refine ⟨s, 0, by simp [Reached, hsplit], prepared_self h (Nat.zero_le _) (Nat.zero_le _) rfl, ?_, rfl, ?_⟩
      · rw [hsettled, hkeep]
      · rw [hsettled]
        rfl
  | true =>
    rw [hsplit, if_neg (by decide)] at hready
    split at hready
    · nomatch hready
    · rcases @reuse_spec p task s h hsplit with ⟨hnone, -⟩ | ⟨s₁, q, hreuse, hreached, hprep⟩
      · rw [hnone] at hready
        nomatch hready
      · rcases restore_spec h hprep with ⟨hnone, -⟩ | ⟨s₂, posNext, hrestore, htokens, hmem⟩
        · rw [hreuse, bind_some] at hready
          dsimp only at hready
          rw [hnone] at hready
          nomatch hready
        · rw [hreuse, bind_some] at hready
          dsimp only at hready
          rw [hrestore] at hready
          have hle : keepOne task.nTokens (settled p task s q).1 ≤ (s₂.eraseInvalid posNext).nTokens := by
            have hlen : (s₂.eraseInvalid posNext).nTokens = s.nTokens := (congrArg (·.tokens.length) htokens).trans hprep.length
            rw [hlen]
            exact ((keepOne_le _ _).trans (settled_le p task s q)).trans hprep.le
          have htext : TextOnly (s₂.eraseInvalid posNext).tokens := htokens.symm ▸ hprep.text
          dsimp only at hready
          rw [htext.keep hle] at hready
          obtain ⟨rfl, rfl⟩ := Started.ready.inj hready
          refine ⟨s₁, q, hreached, hprep, rfl, ?_, hmem⟩
          rw [← htokens]
          rfl

end Start

/-- The start of a prompt, with the removal behind it, is exact exactly if what is reused ends in front of the
invocation of an aLoRA and a checkpoint that is loaded holds tokens of the new prompt. -/
theorem reuseExact_iff (p : StartParams) (task : StartTask) (s : SlotPrompt) (h : CachedPrompt s) (s' : SlotPrompt) (n : Nat)
    (hready : s.start p task = .ready s' n) : ReuseExact task s'.trim n ↔ ReuseSafe p task s := by
  obtain ⟨hpos, s₁, q, hreached, hprep, rfl, htokens, hmem⟩ := start_ready h hready
  have hle : keepOne task.nTokens (settled p task s q).1 ≤ q := (keepOne_le _ _).trans (settled_le p task s q)
  have hlen : s₁.tokens.tokens.length = s.nTokens := hprep.length
  have hhead : s'.tokens.tokens = task.tokens.tokens.take (keepOne task.nTokens (settled p task s q).1) := by
    have heq := congrArg (List.take (keepOne task.nTokens (settled p task s q).1)) hprep.head
    rw [take_take, take_take, Nat.min_eq_left hle] at heq
    rw [htokens]
    exact heq
  have hend : s'.tokens.posNextAll = (keepOne task.nTokens (settled p task s q).1 : Nat) := by
    rw [htokens, (hprep.text.take _).posNextAll, length_take, hlen, Nat.min_eq_left (hle.trans hprep.le)]
  have hholds : s'.trim.mem.Holds (task.tokens.tokens.take (keepOne task.nTokens (settled p task s q).1)) ↔
      ∀ ckpt ∈ (settled p task s q).2,
        CheckpointFits s.mem task.tokens.tokens (keepOne task.nTokens (settled p task s q).1) ckpt := by
    unfold SlotPrompt.trim
    rw [hend, hmem]
    exact hprep.holds_iff h hle _
  constructor
  · intro hexact
    exact ⟨q, hreached, hexact.invocation, hholds.mp hexact.mem⟩
  · rintro ⟨q', hreached', hinvocation, hfits⟩
    obtain rfl : q = q' := hreached.unique hreached'
    refine ⟨hhead, ?_, ?_, hholds.mpr hfits, hinvocation⟩
    · show s'.tokens.mapIdxToMedia = []
      rw [htokens]
      exact hprep.text.noMedia
    · exact keepOne_lt hpos ((settled_le p task s q).trans hprep.input_le)

/-- A slot with three cached tokens. -/
def cachedSlot : SlotPrompt where
  tokens := { tokens := [5, 6, 7] }
  mem := { base := MemCell.row [5, 6, 7] 0 }

theorem cachedSlot_cached : CachedPrompt cachedSlot := ⟨⟨rfl, nofun⟩, ⟨List.Perm.refl _, nofun⟩, by decide, nofun⟩

/-- A chunk of two tokens is moved by one place. -/
theorem reuseExact_iff_chunk : ∃ s',
    cachedSlot.start { nCtx := 16 } { tokens := { tokens := [6, 7, 8] }, nCacheReuse := 2 } = .ready s' 2 ∧
      (ReuseExact { tokens := { tokens := [6, 7, 8] }, nCacheReuse := 2 } s'.trim 2 ↔
        ReuseSafe { nCtx := 16 } { tokens := { tokens := [6, 7, 8] }, nCacheReuse := 2 } cachedSlot) :=
  ⟨_, rfl, reuseExact_iff _ _ _ cachedSlot_cached _ _ rfl⟩

/-- An aLoRA that is invoked at the third token of the prompt: the chunk behind the common prefix reaches over it. -/
theorem reuse_over_invocation : ¬∀ (p : StartParams) (task : StartTask) (s : SlotPrompt), CachedPrompt s →
    ∀ s' n, s.start p task = .ready s' n → ReuseExact task s'.trim n := by
  intro h
  have hexact := h { nCtx := 16 } { tokens := { tokens := [5, 6, 7, 8] }, nCacheReuse := 1, aloraInvocationStart := 2 }
    cachedSlot cachedSlot_cached _ 3 rfl
  exact absurd (hexact.invocation (by decide)) (by decide)

end LlamaCpp.Server
