import LlamaCpp.Lib.Draws

/-!
# Verification of a draft by maximal coupling

`common_sampler_sample_and_accept_n` with proposal distributions: a drafted token is kept if a uniform draw
from the proposal's weight is within the target's weight, and is else replaced by a draw from what the
target has over the proposal (`verify_draw`).  The weights are exact, and every draw is on its own.
-/

namespace LlamaCpp

open Draw List Function

abbrev LlamaToken := Int

/-- The tokens and `p` of `llama_token_data_array` after `common_sampler_sample`; a token is there once. -/
structure Candidates where
  data : List (LlamaToken × ℚ)
  nodup : (data.map Prod.fst).Nodup
  nonneg : ∀ e ∈ data, 0 ≤ e.2
  total : (data.map Prod.snd).sum = 1

/-- `common_speculative_token_dist`; a token may be there more than once. -/
structure TokenDist where
  ids : List LlamaToken
  probs : List ℚ
  length_eq : ids.length = probs.length
  nonneg : ∀ w ∈ probs, 0 ≤ w
  total : probs.sum = 1

/-- The entries of `q_probs` after the loop, 0 where there is none. -/
def TokenDist.qProb (q : TokenDist) : LlamaToken → ℚ :=
  (q.ids.zip q.probs).foldl (fun m e => Function.update m e.1 (m e.1 + e.2)) fun _ => 0

noncomputable def TokenDist.draw (q : TokenDist) : Draw LlamaToken := weighted (q.ids.zip q.probs)

/-- What `common_sampler_sample` draws from its candidates. -/
noncomputable def Candidates.draw (p : Candidates) : Draw LlamaToken := weighted p.data

def Candidates.pDraft (p : Candidates) (draft : LlamaToken) : ℚ :=
  match p.data.find? (·.1 = draft) with
  | some e => e.2
  | none => 0

def residual (p : Candidates) (q : TokenDist) : List (LlamaToken × ℚ) :=
  p.data.map fun e => (e.1, max 0 (e.2 - q.qProb e.1))

def residualSum (p : Candidates) (q : TokenDist) : ℚ := ((residual p q).map Prod.snd).sum

open Classical in
/-- One drafted token: what is emitted, and whether it is the drafted one. -/
noncomputable def verify (p : Candidates) (q : TokenDist) (fallback draft : LlamaToken) : Draw (LlamaToken × Bool) := do
  let u ← uniform
  if 0 < (q.qProb draft : ℝ) ∧ u * q.qProb draft ≤ p.pDraft draft then pure (draft, true)
  else if 0 < residualSum p q then
    let id ← weighted ((residual p q).map fun e => (e.1, e.2 / residualSum p q))
    pure (id, false)
  else pure (fallback, false)

/-- `common_sampler_sample_and_accept_n` from the tokens accepted so far. -/
noncomputable def sampleAndAcceptN (target : List LlamaToken → Candidates) :
    List (LlamaToken × TokenDist) → List LlamaToken → Draw (List LlamaToken)
  | [], accepted => do
    let id ← (target accepted).draw
    pure [id]
  | (draft, q) :: drafts, accepted => do
    let fallback ← (target accepted).draw
    let r ← verify (target accepted) q fallback draft
    if r.2 then (r.1 :: ·) <$> sampleAndAcceptN target drafts (accepted ++ [r.1]) else pure [r.1]

/-- Drafted tokens, each from a proposal that knows those before it. -/
noncomputable def draftN (propose : List LlamaToken → TokenDist) :
    Nat → List LlamaToken → Draw (List (LlamaToken × TokenDist))
  | 0, _ => pure []
  | n + 1, before => do
    let draft ← (propose before).draw
    ((draft, propose before) :: ·) <$> draftN propose n (before ++ [draft])

noncomputable def speculate (target : List LlamaToken → Candidates) (propose : List LlamaToken → TokenDist) (n : Nat)
    (before : List LlamaToken) : Draw (List LlamaToken) := do
  let drafts ← draftN propose n before
  sampleAndAcceptN target drafts before

noncomputable def sampleN (target : List LlamaToken → Candidates) : Nat → List LlamaToken → Draw (List LlamaToken)
  | 0, _ => pure []
  | n + 1, before => do
    let id ← (target before).draw
    (id :: ·) <$> sampleN target n (before ++ [id])

/-! ## Weights -/

theorem foldl_update (atoms : List (LlamaToken × ℚ)) (m : LlamaToken → ℚ) (a : LlamaToken) :
    atoms.foldl (fun m e => Function.update m e.1 (m e.1 + e.2)) m a = m a + mass atoms a := by
  induction atoms generalizing m with
  | nil => exact (add_zero (m a)).symm
  | cons e atoms ih =>
    rw [foldl_cons, ih, mass_cons, ← add_assoc]
    by_cases heq : e.1 = a
    · rw [if_pos heq, ← heq, update_self]
    · rw [if_neg heq, update_of_ne (Ne.symm heq), add_zero]

theorem TokenDist.qProb_eq (q : TokenDist) (a : LlamaToken) : q.qProb a = mass (q.ids.zip q.probs) a := by
  unfold TokenDist.qProb
  rw [foldl_update, zero_add]

theorem TokenDist.map_snd (q : TokenDist) : (q.ids.zip q.probs).map Prod.snd = q.probs :=
  map_snd_zip q.length_eq.ge

theorem TokenDist.qProb_nonneg (q : TokenDist) (a : LlamaToken) : 0 ≤ q.qProb a := by
  rw [q.qProb_eq]
  exact mass_nonneg (fun e he => q.nonneg e.2 (of_mem_zip he).2) a

theorem TokenDist.affine_draw (q : TokenDist) : Affine q.draw := affine_weighted (by rw [q.map_snd, q.total])

theorem Candidates.affine_draw (p : Candidates) : Affine p.draw := affine_weighted p.total

theorem Candidates.pDraft_eq (p : Candidates) (a : LlamaToken) : p.pDraft a = mass p.data a := by
  have hnodup := p.nodup
  unfold Candidates.pDraft
  generalize p.data = atoms at hnodup
  induction atoms with
  | nil => rfl
  | cons e atoms ih =>
    obtain ⟨hout, hnodup⟩ := nodup_cons.mp hnodup
    rw [mass_cons, find?_cons]
    by_cases heq : e.1 = a
    · rw [decide_eq_true heq, if_pos heq, mass_eq_zero (heq ▸ hout), add_zero]
    · rw [decide_eq_false heq, if_neg heq, zero_add]
      exact ih hnodup

theorem Candidates.pDraft_nonneg (p : Candidates) (a : LlamaToken) : 0 ≤ p.pDraft a := by
  rw [p.pDraft_eq]
  exact mass_nonneg p.nonneg a

theorem mass_map {atoms : List (LlamaToken × ℚ)} (hnodup : (atoms.map Prod.fst).Nodup) {g : LlamaToken → ℚ → ℚ}
    {a : LlamaToken} (hzero : g a 0 = 0) : mass (atoms.map fun e => (e.1, g e.1 e.2)) a = g a (mass atoms a) := by
  induction atoms with
  | nil => exact hzero.symm
  | cons e atoms ih =>
    obtain ⟨hout, hnodup⟩ := nodup_cons.mp hnodup
    rw [map_cons, mass_cons, mass_cons, ih hnodup]
    by_cases heq : e.1 = a
    · rw [if_pos heq, if_pos heq, mass_eq_zero (heq ▸ hout), hzero, add_zero, add_zero, heq]
    · rw [if_neg heq, if_neg heq, zero_add, zero_add]

theorem map_fst_residual (p : Candidates) (q : TokenDist) : (residual p q).map Prod.fst = p.data.map Prod.fst := by
  unfold residual
  rw [List.map_map]
  rfl

theorem mass_residual (p : Candidates) (q : TokenDist) (a : LlamaToken) :
    mass (residual p q) a = max 0 (p.pDraft a - q.qProb a) := by
  rw [p.pDraft_eq]
  exact mass_map (g := fun a w => max 0 (w - q.qProb a)) p.nodup (max_eq_left (by linarith [q.qProb_nonneg a]))

/-! ## One token -/

section Token

variable (p : Candidates) (q : TokenDist)

/-- What is emitted after a rejection, as an expectation. -/
noncomputable def restOf (fallback : LlamaToken) (f : LlamaToken → ℝ) : ℝ :=
  if 0 < residualSum p q then weighted ((residual p q).map fun e => (e.1, e.2 / residualSum p q)) f else f fallback

theorem verify_apply (fallback draft : LlamaToken) (f : LlamaToken × Bool → ℝ) :
    verify p q fallback draft f =
      chance (q.qProb draft) (p.pDraft draft) * f (draft, true) +
        (1 - chance (q.qProb draft) (p.pDraft draft)) * restOf p q fallback fun id => f (id, false) := by
  have hp : (0 : ℝ) ≤ p.pDraft draft := Rat.cast_nonneg.mpr (p.pDraft_nonneg draft)
  rw [← uniform_accept hp]
  refine congrArg uniform (funext fun u => ?_)
  unfold restOf
  dsimp only
  split_ifs <;> rfl

def tokensOf : Finset LlamaToken := (p.data.map Prod.fst).toFinset ∪ q.ids.toFinset

theorem draw_eq_sum (f : LlamaToken → ℝ) : p.draw f = ∑ a ∈ tokensOf p q, (p.pDraft a : ℝ) * f a := by
  simp only [p.pDraft_eq]
  refine weighted_eq_sum (fun e he => Finset.mem_union_left _ ?_) f
  exact List.mem_toFinset.mpr (List.mem_map_of_mem he)

theorem propose_eq_sum (f : LlamaToken → ℝ) : q.draw f = ∑ a ∈ tokensOf p q, (q.qProb a : ℝ) * f a := by
  simp only [q.qProb_eq]
  refine weighted_eq_sum (fun e he => Finset.mem_union_right _ ?_) f
  exact List.mem_toFinset.mpr (of_mem_zip he).1

theorem weighted_residual (c : ℚ) (f : LlamaToken → ℝ) :
    weighted ((residual p q).map fun e => (e.1, e.2 / c)) f =
      (∑ a ∈ tokensOf p q, max 0 ((p.pDraft a : ℝ) - q.qProb a) * f a) / c := by
  have hnodup : ((residual p q).map Prod.fst).Nodup := by
    rw [map_fst_residual]
    exact p.nodup
  have hmem : ∀ e ∈ (residual p q).map fun e => (e.1, e.2 / c), e.1 ∈ tokensOf p q := by
    intro e he
    obtain ⟨e', he', rfl⟩ := List.mem_map.mp he
    refine Finset.mem_union_left _ (List.mem_toFinset.mpr ?_)
    rw [← map_fst_residual p q]
    exact List.mem_map.mpr ⟨e', he', rfl⟩
  rw [weighted_eq_sum hmem, Finset.sum_div]
  refine Finset.sum_congr rfl fun a _ => ?_
  rw [mass_map (g := fun _ w => w / c) hnodup (zero_div c), mass_residual]
  push_cast
  ring

/-- The weight that is left over is the sum of the residual. -/
theorem residualSum_eq : (residualSum p q : ℝ) = ∑ a ∈ tokensOf p q, max 0 ((p.pDraft a : ℝ) - q.qProb a) := by
  have h := weighted_residual p q 1 fun _ => 1
  simp only [mul_one, Rat.cast_one, div_one] at h
  rw [← h]
  unfold residualSum weighted
  rw [List.map_map, Rat.cast_list_sum, List.map_map]
  refine congrArg List.sum (map_congr_left fun e _ => ?_)
  simp

/-- Where nothing is left over there is nothing to replace, and the fallback has no weight. -/
theorem residualSum_mul_restOf (fallback : LlamaToken) (f : LlamaToken → ℝ) :
    (∑ a ∈ tokensOf p q, max 0 ((p.pDraft a : ℝ) - q.qProb a)) * restOf p q fallback f =
      ∑ a ∈ tokensOf p q, max 0 ((p.pDraft a : ℝ) - q.qProb a) * f a := by
  unfold restOf
  split
  · next hpos =>
      have hne : (residualSum p q : ℝ) ≠ 0 := (Rat.cast_pos.mpr hpos).ne'
      rw [weighted_residual, ← residualSum_eq, mul_div_cancel₀ _ hne]
  · next hnot =>
      have hzero : ∑ a ∈ tokensOf p q, max 0 ((p.pDraft a : ℝ) - q.qProb a) = 0 := by
        refine le_antisymm ?_ (Finset.sum_nonneg fun a _ => le_max_left _ _)
        rw [← residualSum_eq]
        exact Rat.cast_nonpos.mpr (not_lt.mp hnot)
      rw [hzero, zero_mul]
      refine (Finset.sum_eq_zero fun a ha => ?_).symm
      rw [(Finset.sum_eq_zero_iff_of_nonneg fun a _ => le_max_left _ _).mp hzero a ha, zero_mul]

/-- A proposal that is kept as often as the target allows, and else replaced. -/
theorem coupling {f : LlamaToken → ℝ} {rest : ℝ}
    (hrest : (∑ a ∈ tokensOf p q, max 0 ((p.pDraft a : ℝ) - q.qProb a)) * rest =
      ∑ a ∈ tokensOf p q, max 0 ((p.pDraft a : ℝ) - q.qProb a) * f a) :
    (q.draw fun draft => chance (q.qProb draft) (p.pDraft draft) * f draft +
      (1 - chance (q.qProb draft) (p.pDraft draft)) * rest) = p.draw f := by
  rw [propose_eq_sum p q, draw_eq_sum p q]
  refine sum_coupling (fun a => Rat.cast_nonneg.mpr (q.qProb_nonneg a)) (fun a => Rat.cast_nonneg.mpr (p.pDraft_nonneg a))
    ?_ hrest
  have hq := propose_eq_sum p q fun _ => 1
  have hp := draw_eq_sum p q fun _ => 1
  rw [q.affine_draw.const] at hq
  rw [p.affine_draw.const] at hp
  simpa only [mul_one] using hq.symm.trans hp

theorem verify_draw (fallback : LlamaToken) :
    (q.draw >>= fun draft => Prod.fst <$> verify p q fallback draft) = p.draw := by
  funext f
  simp only [bind_apply, map_apply, verify_apply]
  exact coupling p q (residualSum_mul_restOf p q fallback f)

end Token

/-! ## A whole draft -/

section Run

variable (target : List LlamaToken → Candidates) (propose : List LlamaToken → TokenDist)
  {f : List LlamaToken → ℝ}

theorem affine_draftN (n : Nat) (before : List LlamaToken) : Affine (draftN propose n before) := by
  induction n generalizing before with
  | zero => exact affine_pure _
  | succ n ih => exact (propose before).affine_draw.bind fun draft => (ih _).map _

/-- What is emitted after a rejection, over every fallback. -/
noncomputable def restOver (p : Candidates) (q : TokenDist) (f : LlamaToken → ℝ) : ℝ :=
  p.draw fun fallback => restOf p q fallback f

theorem residualSum_mul_restOver (p : Candidates) (q : TokenDist) (f : LlamaToken → ℝ) :
    (∑ a ∈ tokensOf p q, max 0 ((p.pDraft a : ℝ) - q.qProb a)) * restOver p q f =
      ∑ a ∈ tokensOf p q, max 0 ((p.pDraft a : ℝ) - q.qProb a) * f a := by
  unfold restOver
  rw [← p.affine_draw.mul, funext fun fallback => residualSum_mul_restOf p q fallback f, p.affine_draw.const]

theorem restOver_zero (p : Candidates) (q : TokenDist) : (restOver p q fun _ => 0) = 0 := by
  have hzero (fallback : LlamaToken) : (restOf p q fallback fun _ => 0) = 0 := by
    unfold restOf
    split
    · simp [weighted, comp_def]
    · rfl
  unfold restOver
  rw [funext hzero, p.affine_draw.const]

theorem speculate_zero (before : List LlamaToken) (f : List LlamaToken → ℝ) :
    speculate target propose 0 before f = (target before).draw fun id => f [id] := rfl

/-- The first token of a draft is kept or replaced, and what was drafted behind a replaced one does not matter. -/
theorem speculate_succ (n : Nat) (before : List LlamaToken) (f : List LlamaToken → ℝ) :
    speculate target propose (n + 1) before f = (propose before).draw fun draft =>
      chance ((propose before).qProb draft) ((target before).pDraft draft) *
          speculate target propose n (before ++ [draft]) (fun out => f (draft :: out)) +
        (1 - chance ((propose before).qProb draft) ((target before).pDraft draft)) *
          restOver (target before) (propose before) fun id => f [id] := by
  have hopen : speculate target propose (n + 1) before f = (propose before).draw fun draft =>
      draftN propose n (before ++ [draft]) fun drafts =>
        sampleAndAcceptN target ((draft, propose before) :: drafts) before f := rfl
  rw [hopen]
  refine congrArg (propose before).draw (funext fun draft => ?_)
  have hrun (drafts : List (LlamaToken × TokenDist)) :
      sampleAndAcceptN target ((draft, propose before) :: drafts) before f =
        chance ((propose before).qProb draft) ((target before).pDraft draft) *
            sampleAndAcceptN target drafts (before ++ [draft]) (fun out => f (draft :: out)) +
          (1 - chance ((propose before).qProb draft) ((target before).pDraft draft)) *
            restOver (target before) (propose before) fun id => f [id] := by
    have hverify : sampleAndAcceptN target ((draft, propose before) :: drafts) before f =
        (target before).draw fun fallback => verify (target before) (propose before) fallback draft fun r =>
          (if r.2 then (r.1 :: ·) <$> sampleAndAcceptN target drafts (before ++ [r.1]) else pure [r.1]) f := rfl
    rw [hverify, add_comm, restOver, ← (target before).affine_draw]
    refine congrArg (target before).draw (funext fun fallback => ?_)
    rw [verify_apply, add_comm]
    rfl
  rw [funext hrun]
  exact affine_draftN propose n _ _ _ _

/-- Payoffs of the emitted tokens that are worth the same whether the first is kept or replaced. -/
theorem speculate_of_head {n : Nat} {before : List LlamaToken} {g : LlamaToken → ℝ}
    (hkept : ∀ draft, speculate target propose n (before ++ [draft]) (fun out => f (draft :: out)) = g draft)
    (hreplaced : ∀ id, f [id] = g id) :
    speculate target propose (n + 1) before f = (target before).draw g := by
  rw [speculate_succ]
  simp only [hkept, hreplaced]
  exact coupling _ _ (residualSum_mul_restOver _ _ g)

theorem speculate_const (n : Nat) (before : List LlamaToken) (y : ℝ) : (speculate target propose n before fun _ => y) = y := by
  induction n generalizing before with
  | zero => exact (target before).affine_draw.const y
  | succ n ih =>
    rw [speculate_of_head target propose (fun draft => ih _) fun _ => rfl]
    exact (target before).affine_draw.const y

/-- The first emitted token is drawn from the target. -/
theorem speculate_first (n : Nat) (before : List LlamaToken) {g : LlamaToken → ℝ}
    (hf : ∀ id out, f (id :: out) = g id) :
    speculate target propose n before f = (target before).draw g := by
  cases n with
  | zero =>
    rw [speculate_zero]
    exact congrArg _ (funext fun id => hf id [])
  | succ n =>
    refine speculate_of_head target propose (fun draft => ?_) fun id => hf id []
    rw [funext fun out => hf draft out]
    exact speculate_const target propose n _ _

theorem draw_indicator (p : Candidates) (t : LlamaToken) : (p.draw fun id => if t = id then 1 else 0) = p.pDraft t := by
  rw [p.pDraft_eq]
  unfold Candidates.draw weighted mass
  rw [Rat.cast_list_sum, List.map_map]
  refine congrArg List.sum (map_congr_left fun e _ => ?_)
  show (e.2 : ℝ) * (if t = e.1 then 1 else 0) = ((if e.1 = t then e.2 else 0 : ℚ) : ℝ)
  by_cases heq : e.1 = t
  · rw [if_pos heq, if_pos heq.symm, mul_one]
  · rw [if_neg heq, if_neg (Ne.symm heq), mul_zero, Rat.cast_zero]

/-- How often the first token is drafted and kept, and is `a`. -/
noncomputable def keptChance (before : List LlamaToken) (a : LlamaToken) : ℝ := (propose before).draw fun draft =>
  chance ((propose before).qProb draft) ((target before).pDraft draft) * if a = draft then 1 else 0

/-- A payoff for more than one token, of which the first is `a`. -/
theorem speculate_of_kept {n : Nat} {before : List LlamaToken} {g : List LlamaToken → ℝ} (a : LlamaToken)
    (hone : ∀ id, f [id] = 0) (hcons : ∀ draft out, f (draft :: out) = if a = draft then g out else 0) :
    speculate target propose (n + 1) before f =
      speculate target propose n (before ++ [a]) g * keptChance target propose before a := by
  unfold keptChance
  rw [speculate_succ, ← (propose before).affine_draw.mul]
  simp only [hone, hcons, restOver_zero, mul_zero, add_zero]
  refine congrArg (propose before).draw (funext fun draft => ?_)
  by_cases heq : a = draft
  · subst heq
    simp only [if_true]
    ring
  · simp only [if_neg heq, speculate_const, mul_zero]

/-- Whatever has been emitted, the next token is drawn from the target there. -/
theorem prob_next (n : Nat) (before s : List LlamaToken) (t : LlamaToken) :
    (speculate target propose n before).prob (s ++ [t] <+: ·) =
      (speculate target propose n before).prob (fun out => s <+: out ∧ s.length < out.length) *
        (target (before ++ s)).pDraft t := by
  induction s generalizing n before with
  | nil =>
    have hgoes : (speculate target propose n before).prob
        (fun out => [] <+: out ∧ ([] : List LlamaToken).length < out.length) = 1 := by
      refine (speculate_first target propose n before fun id out => if_pos ?_).trans ((target before).affine_draw.const 1)
      exact ⟨List.nil_prefix, Nat.zero_lt_succ _⟩
    rw [hgoes, one_mul, append_nil, ← draw_indicator]
    refine speculate_first target propose n before fun id out => ?_
    have hiff : [] ++ [t] <+: id :: out ↔ t = id := by
      rw [nil_append, cons_prefix_cons, and_iff_left nil_prefix]
    by_cases heq : t = id
    · exact (if_pos (hiff.mpr heq)).trans (if_pos heq).symm
    · exact (if_neg (mt hiff.mp heq)).trans (if_neg heq).symm
  | cons a s ih =>
    have hshort (id : LlamaToken) : ¬(a :: s <+: [id] ∧ (a :: s).length < [id].length) := fun h => absurd h.2 (by simp)
    have hshort' (id : LlamaToken) : ¬a :: s ++ [t] <+: [id] := fun h => absurd h.length_le (by simp)
    cases n with
    | zero =>
      unfold prob
      simp only [speculate_zero, if_neg (hshort _), if_neg (hshort' _), (target before).affine_draw.const, zero_mul]
    | succ n =>
      have hboth (x y : List LlamaToken → Prop) (hx : ∀ id, ¬x [id]) (hy : ∀ draft out, x (draft :: out) ↔ a = draft ∧ y out) :
          (speculate target propose (n + 1) before).prob x =
            (speculate target propose n (before ++ [a])).prob y * keptChance target propose before a := by
        refine speculate_of_kept target propose a (fun id => if_neg (hx id)) fun draft out => ?_
        by_cases heq : a = draft
        · rw [if_pos heq, propext ((hy draft out).trans (and_iff_right heq))]
        · rw [if_neg heq]
          exact if_neg fun h => heq ((hy draft out).mp h).1
      rw [hboth (a :: s ++ [t] <+: ·) (s ++ [t] <+: ·) hshort' fun draft out => cons_prefix_cons,
        hboth (fun out => a :: s <+: out ∧ (a :: s).length < out.length) (fun out => s <+: out ∧ s.length < out.length)
          hshort, ih, append_assoc]
      · rw [singleton_append]
        ring
      · intro draft out
        rw [cons_prefix_cons, length_cons, length_cons, Nat.add_lt_add_iff_right, and_assoc]

/-- What is emitted, continued by the target, is what the target alone samples. -/
theorem speculate_continued (n : Nat) (before : List LlamaToken) :
    (do
      let out ← speculate target propose n before
      let more ← sampleN target (n + 1 - out.length) (before ++ out)
      pure (out ++ more)) = sampleN target (n + 1) before := by
  funext f
  induction n generalizing before f with
  | zero => rfl
  | succ n ih =>
    refine speculate_of_head target propose (fun draft => ?_) fun id => rfl
    refine Eq.trans (congrArg _ (funext fun out => ?_)) (ih (before ++ [draft]) fun out => f (draft :: out))
    have hlength : n + 1 + 1 - (draft :: out).length = n + 1 - out.length := Nat.add_sub_add_right ..
    have hbefore : before ++ draft :: out = before ++ [draft] ++ out := append_cons ..
    show sampleN target (n + 1 + 1 - (draft :: out).length) (before ++ draft :: out) _ = _
    rw [hlength, hbefore]
    rfl

end Run

/-- A verified token is drawn from the target whatever the proposal, and so is every token of a verified draft. -/
theorem speculate_lossless :
    (∀ (p : Candidates) (q : TokenDist) (fallback : LlamaToken),
        (q.draw >>= fun draft => Prod.fst <$> verify p q fallback draft) = p.draw) ∧
      ∀ (target : List LlamaToken → Candidates) (propose : List LlamaToken → TokenDist) (n : Nat) (before : List LlamaToken),
        (∀ s t, (speculate target propose n before).prob (s ++ [t] <+: ·) =
          (speculate target propose n before).prob (fun out => s <+: out ∧ s.length < out.length) *
            (target (before ++ s)).pDraft t) ∧
          (do
            let out ← speculate target propose n before
            let more ← sampleN target (n + 1 - out.length) (before ++ out)
            pure (out ++ more)) = sampleN target (n + 1) before :=
  ⟨verify_draw, fun target propose n before =>
    ⟨prob_next target propose n before, speculate_continued target propose n before⟩⟩

end LlamaCpp
