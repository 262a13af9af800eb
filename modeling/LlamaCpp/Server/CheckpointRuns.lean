import LlamaCpp.Server.Checkpoints

/-!
# What the checkpoints describe

A checkpoint remembers the tokens that were decoded when it was taken.  It describes the prompt as long as these are the
first tokens of the prompt and of what is about to be decoded (`Described`).

The start of a task erases checkpoints by their last position only.  One that ends one place behind the common prefix
stays, and so do those of tasks that cannot be split (`stale_checkpoint`).  In runs whose starts leave no such
checkpoint, and where no prompt is given up behind one, all of them describe their prompt (`reaches_described`).
-/

namespace LlamaCpp.Server

open List Option

/-- The tokens, and behind them those of the task. -/
def ServerTokens.extend (s t : ServerTokens) : ServerTokens where
  hasMtmd := s.hasMtmd
  tokens := s.tokens ++ t.tokens.drop s.tokens.length
  mapIdxToMedia := s.mapIdxToMedia.filter (·.1 < s.tokens.length) ++ t.mapIdxToMedia.filter (s.tokens.length ≤ ·.1)

/-- Tokens of a prompt, and those of its task that are about to be decoded. -/
def SlotState.ahead (toks : ServerTokens) : SlotState → ServerTokens
  | .processingPrompt task => toks.extend task.tokens.tokens
  | _ => toks

/-- The prompt with the tokens that are about to be decoded. -/
def PromptSlot.present (s : PromptSlot) : ServerTokens := s.state.ahead s.prompt.tokens

instance (a b : ServerTokens) (n : Nat) : Decidable (Agree a b n) :=
  decidable_of_iff (n ≤ a.tokens.length ∧ n ≤ b.tokens.length ∧ (∀ i < n, a.tokens[i]? = b.tokens[i]?) ∧
      ∀ i < n, (a.chunkAt i).map (fun c => (c.id, c.nTokens)) = (b.chunkAt i).map (fun c => (c.id, c.nTokens)))
    ⟨fun h => ⟨h.1, h.2.1, h.2.2.1, h.2.2.2⟩, fun h => ⟨h.left, h.right, h.token, h.chunk⟩⟩

/-- The checkpoint was taken after the first `n_tokens` of these tokens. -/
structure Described (ckpt : SlotCheckpoint) (toks : ServerTokens) : Prop where
  taken : ckpt.taken.tokens.length = ckpt.nTokens
  agree : Agree ckpt.taken toks ckpt.nTokens

instance (ckpt : SlotCheckpoint) (toks : ServerTokens) : Decidable (Described ckpt toks) :=
  decidable_of_iff (ckpt.taken.tokens.length = ckpt.nTokens ∧ Agree ckpt.taken toks ckpt.nTokens)
    ⟨fun h => ⟨h.1, h.2⟩, fun h => ⟨h.taken, h.agree⟩⟩

def CheckpointsDescribed (s : PromptSlot) : Prop := ∀ ckpt ∈ s.prompt.checkpoints, Described ckpt s.present

/-! ## Agreement -/

section Agreement

variable {a b c s s' t : ServerTokens} {m n : Nat}

theorem Agree.refl (h : n ≤ s.tokens.length) : Agree s s n := ⟨h, h, fun _ _ => rfl, fun _ _ => rfl⟩

theorem Agree.mono (h : Agree a b n) (hm : m ≤ n) : Agree a b m where
  left := hm.trans h.left
  right := hm.trans h.right
  token i hi := h.token i (hi.trans_le hm)
  chunk i hi := h.chunk i (hi.trans_le hm)

theorem Agree.trans (h : Agree a b n) (h' : Agree b c n) : Agree a c n where
  left := h.left
  right := h'.right
  token i hi := (h.token i hi).trans (h'.token i hi)
  chunk i hi := (h.chunk i hi).trans (h'.chunk i hi)

theorem Described.congr {ckpt : SlotCheckpoint} (h : Described ckpt s) (hagree : Agree s s' ckpt.nTokens) : Described ckpt s' :=
  ⟨h.taken, h.agree.trans hagree⟩

@[simp] theorem extend_length (s t : ServerTokens) : (s.extend t).tokens.length = max s.tokens.length t.tokens.length := by
  unfold ServerTokens.extend
  rw [length_append, length_drop]
  omega

theorem extend_token (s t : ServerTokens) (i : Nat) :
    (s.extend t).tokens[i]? = if i < s.tokens.length then s.tokens[i]? else t.tokens[i]? := by
  unfold ServerTokens.extend
  rw [getElem?_append]
  split
  · rfl
  · rename_i hge
    rw [getElem?_drop, Nat.add_sub_cancel' (Nat.not_lt.mp hge)]

theorem extend_chunkAt (s t : ServerTokens) (i : Nat) :
    (s.extend t).chunkAt i = if i < s.tokens.length then s.chunkAt i else t.chunkAt i := by
  unfold ServerTokens.extend ServerTokens.chunkAt
  rw [lookup_append, lookup_filter (fun k => decide (k < s.tokens.length)),
    lookup_filter (fun k => decide (s.tokens.length ≤ k))]
  by_cases hi : i < s.tokens.length
  · simp [hi, Nat.not_le.mpr hi]
  · simp [hi, Nat.not_lt.mp hi]

/-- In front of its end, the prompt is what it was. -/
theorem agree_extend (t : ServerTokens) (hn : n ≤ s.tokens.length) : Agree s (s.extend t) n where
  left := hn
  right := by
    rw [extend_length]
    exact hn.trans (Nat.le_max_left _ _)
  token i hi := by rw [extend_token, if_pos (hi.trans_le hn)]
  chunk i hi := by rw [extend_chunkAt, if_pos (hi.trans_le hn)]

/-- Where the prompt is that of the task, the extended one is. -/
theorem agree_extend_task (hn : n ≤ t.tokens.length) (htoken : ∀ i < n, i < s.tokens.length → t.tokens[i]? = s.tokens[i]?)
    (hchunk : ∀ i < n, i < s.tokens.length →
      (t.chunkAt i).map (fun c => (c.id, c.nTokens)) = (s.chunkAt i).map (fun c => (c.id, c.nTokens))) :
    Agree t (s.extend t) n where
  left := hn
  right := by
    rw [extend_length]
    exact hn.trans (Nat.le_max_right _ _)
  token i hi := by
    rw [extend_token]
    split
    · rename_i hlt
      exact htoken i hi hlt
    · rfl
  chunk i hi := by
    rw [extend_chunkAt]
    split
    · rename_i hlt
      exact hchunk i hi hlt
    · rfl

/-- The tokens `s'` are `s` with the next ones of `t`. -/
structure Follows (s t s' : ServerTokens) : Prop where
  head : Agree s s' s.tokens.length
  le : s'.tokens.length ≤ max s.tokens.length t.tokens.length
  token : ∀ i, s.tokens.length ≤ i → i < s'.tokens.length → t.tokens[i]? = s'.tokens[i]?
  chunk : ∀ i, s.tokens.length ≤ i → i < s'.tokens.length → t.chunkAt i = s'.chunkAt i

/-- What is about to be decoded has become part of the prompt. -/
theorem Follows.extend (h : Follows s t s') (hn : n ≤ (s.extend t).tokens.length) : Agree (s.extend t) (s'.extend t) n where
  left := hn
  right := by
    have hle := h.head.right
    rw [extend_length] at hn ⊢
    omega
  token i hi := by
    have hle := h.head.right
    rw [extend_token, extend_token]
    rcases Nat.lt_or_ge i s.tokens.length with hlt | hge
    · rw [if_pos hlt, if_pos (hlt.trans_le hle)]
      exact h.head.token i hlt
    · rw [if_neg (Nat.not_lt.mpr hge)]
      split
      · rename_i hlt'
        exact h.token i hge hlt'
      · rfl
  chunk i hi := by
    have hle := h.head.right
    rw [extend_chunkAt, extend_chunkAt]
    rcases Nat.lt_or_ge i s.tokens.length with hlt | hge
    · rw [if_pos hlt, if_pos (hlt.trans_le hle)]
      exact h.head.chunk i hlt
    · rw [if_neg (Nat.not_lt.mpr hge)]
      split
      · rename_i hlt'
        exact congrArg _ (h.chunk i hge hlt')
      · rfl

end Agreement

/-! ## Operations on the tokens -/

/-- No chunk starts behind the tokens, and there is none without `has_mtmd`. -/
structure MediaWithin (s : ServerTokens) : Prop where
  noMedia : s.hasMtmd = false → s.mapIdxToMedia = []
  behind : ∀ i, s.tokens.length ≤ i → s.chunkAt i = none

section Tokens

variable {s s' t : ServerTokens} {n : Nat}

theorem MediaWithin.clear (s : ServerTokens) : MediaWithin s.clear := ⟨fun _ => rfl, fun _ _ => rfl⟩

theorem MediaWithin.insert (h : MediaWithin s) (toks : List Int) : MediaWithin (s.insert toks) where
  noMedia := h.noMedia
  behind i hi := by
    refine h.behind i (Nat.le_trans ?_ hi)
    exact (Nat.le_add_right _ _).trans_eq length_append.symm

theorem agree_insert (toks : List Int) (hn : n ≤ s.tokens.length) : Agree s (s.insert toks) n where
  left := hn
  right := hn.trans ((Nat.le_add_right _ _).trans_eq length_append.symm)
  token _ hi := (getElem?_append_left (hi.trans_le hn)).symm
  chunk _ _ := rfl

/-- What `keep_first` leaves where it returns. -/
theorem keepFirst_returned (h : s.keepFirst n = .returned s') :
    s'.tokens.length = n ∧ Agree s s' n ∧ s'.hasMtmd = s.hasMtmd ∧ (MediaWithin s → MediaWithin s') := by
  have hcut (hle : n ≤ s.tokens.length) : (s.tokens.take n).length = n := by
    rw [length_take]
    exact Nat.min_eq_left hle
  have htoken (i : Nat) (hi : i < n) : s.tokens[i]? = (s.tokens.take n)[i]? := by rw [getElem?_take, if_pos hi]
  unfold ServerTokens.keepFirst at h
  split at h
  · nomatch h
  · rename_i hge
    have hle : n ≤ s.tokens.length := Nat.not_lt.mp hge
    split at h
    · split at h
      · rename_i hall
        obtain rfl := Outcome.returned.inj h
        exact ⟨hall.symm, Agree.refl hle, rfl, id⟩
      · split at h
        · nomatch h
        · obtain rfl := Outcome.returned.inj h
          have hlook (i : Nat) : ({ s with
              mapIdxToMedia := s.mapIdxToMedia.filter (·.1 < n), tokens := s.tokens.take n } : ServerTokens).chunkAt i =
              if i < n then s.chunkAt i else none := by
            unfold ServerTokens.chunkAt
            rw [lookup_filter (fun k => decide (k < n))]
            simp only [decide_eq_true_eq]
          refine ⟨hcut hle, ⟨hle, (hcut hle).ge, htoken, fun i hi => ?_⟩, rfl, fun hin => ⟨fun hno => ?_, fun i hi => ?_⟩⟩
          · rw [hlook, if_pos hi]
          · dsimp only
            rw [hin.noMedia hno]
            rfl
          · rw [hlook, if_neg (Nat.not_lt.mpr ((hcut hle).symm.trans_le hi))]
    · rename_i hmtmd
      obtain rfl := Outcome.returned.inj h
      refine ⟨hcut hle, ⟨hle, (hcut hle).ge, htoken, fun _ _ => rfl⟩, rfl, fun hin => ⟨hin.noMedia, fun i _ => ?_⟩⟩
      have hnone := hin.noMedia (Bool.eq_false_iff.mpr hmtmd)
      unfold ServerTokens.chunkAt
      rw [hnone]
      rfl

theorem follows_text (h : MediaWithin s) (ht : Represented t) (htok : HasTokens t) {toks : List Int}
    (hnext : (t.tokens.drop s.tokens.length).take toks.length = toks) (htext : llamaTokenNull ∉ toks) : Follows s t (s.insert toks) := by
  have hlen : (s.insert toks).tokens.length = s.tokens.length + toks.length := length_append
  have htoken (i : Nat) (hge : s.tokens.length ≤ i) (hlt : i < (s.insert toks).tokens.length) :
      t.tokens[i]? = (s.insert toks).tokens[i]? := by
    have hread : (s.insert toks).tokens[i]? = toks[i - s.tokens.length]? := getElem?_append_right hge
    rw [hread, ← hnext, getElem?_take, if_pos (by omega), getElem?_drop, Nat.add_sub_cancel' hge]
  refine ⟨agree_insert toks (Nat.le_refl _), ?_, htoken, fun i hge hlt => ?_⟩
  · have hfits := congrArg List.length hnext
    rw [length_take, length_drop] at hfits
    omega
  · have hne : t.tokens[i]? ≠ some llamaTokenNull := by
      rw [htoken i hge hlt]
      intro hnull
      have hread : (s.insert toks).tokens[i]? = toks[i - s.tokens.length]? := getElem?_append_right hge
      exact htext (mem_of_getElem? (hread.symm.trans hnull))
    rw [chunkAt_of_text ht htok hne]
    exact (h.behind i hge).symm

theorem follows_media (h : MediaWithin s) (ht : Represented t) (htok : HasTokens t) {chunk : MediaChunk}
    (hnext : t.chunkAt s.tokens.length = some chunk) (hpush : s.pushMedia chunk = .returned s') :
    Follows s t s' ∧ MediaWithin s' := by
  unfold ServerTokens.pushMedia at hpush
  split at hpush
  · nomatch hpush
  · rename_i hmtmd
    obtain rfl := Outcome.returned.inj hpush
    have hlen : (s.tokens ++ List.replicate chunk.nTokens llamaTokenNull).length = s.tokens.length + chunk.nTokens := by
      rw [length_append, length_replicate]
    have hlook (i : Nat) : ({ s with
        tokens := s.tokens ++ List.replicate chunk.nTokens llamaTokenNull
        mapIdxToMedia := s.mapIdxToMedia.assign s.tokens.length chunk } : ServerTokens).chunkAt i =
        if i = s.tokens.length then some chunk else s.chunkAt i := lookup_assign _ _ _ _
    have hfits := chunk_le_length ht htok hnext
    refine ⟨⟨⟨Nat.le_refl _, ?_, fun i hi => ?_, fun i hi => ?_⟩, ?_, fun i hge hlt => ?_, fun i hge hlt => ?_⟩, ⟨?_, fun i hi => ?_⟩⟩
    · exact hlen.symm ▸ Nat.le_add_right _ _
    · exact (getElem?_append_left hi).symm
    · rw [hlook, if_neg (Nat.ne_of_lt hi)]
    · exact (hlen.trans_le hfits).trans (Nat.le_max_right _ _)
    · have hplace : PlaceOf t s.tokens.length i := ⟨chunk, hnext, hge, hlen ▸ hlt⟩
      rw [(ht.null_iff i).mpr ⟨_, hplace⟩, getElem?_append_right hge, getElem?_replicate,
        if_pos (by rw [hlen] at hlt; omega)]
    · rw [hlook]
      split
      · rename_i heq
        rw [heq, hnext]
      · rename_i hne
        rw [h.behind i hge]
        exact chunkAt_of_inside ht htok hnext (by omega) (hlen ▸ hlt)
    · exact fun hno => absurd hno (by simpa using hmtmd)
    · have hpos := htok _ _ hnext
      have hge : s.tokens.length + chunk.nTokens ≤ i := hlen ▸ hi
      rw [hlook, if_neg (by omega)]
      exact h.behind i (by omega)

end Tokens

/-! ## The start of a task -/

/-- The prompt of the task is processed. -/
def StartParams.Admits (p : StartParams) (task : StartTask) : Prop :=
  task.nTokens ≠ 0 ∧
    if p.canSplit then task.nTokens < p.nCtx else ¬(p.nUbatch < task.nTokens ∨ p.nCtx < task.nTokens)

instance (p : StartParams) (task : StartTask) : Decidable (p.Admits task) := inferInstanceAs (Decidable (_ ∧ _))

/-- What can be reused of the prompt, with the place to go on from and the next position. -/
def SlotPrompt.settle (p : StartParams) (task : StartTask) (s : SlotPrompt) : Option (SlotPrompt × Nat × Int) :=
  (s.reuse p task).bind fun (s, nPast) => s.restore p task nPast

/-- The test of the positions does not erase the checkpoint. -/
def Stays (p : StartParams) (task : StartTask) (s : SlotPrompt) (ckpt : SlotCheckpoint) : Prop :=
  p.canSplit = true → ∃ r ∈ s.settle p task, ckpt.posMax ≤ r.2.2

instance (p : StartParams) (task : StartTask) (s : SlotPrompt) (ckpt : SlotCheckpoint) : Decidable (Stays p task s ckpt) :=
  inferInstanceAs (Decidable (p.canSplit = true → _))

/-- Every checkpoint that the start keeps lies in what the cached prompt shares with the new one. -/
def StartOk (p : StartParams) (task : StartTask) (s : SlotPrompt) : Prop :=
  p.Admits task → ∀ ckpt ∈ s.checkpoints, Stays p task s ckpt → Agree s.tokens task.tokens ckpt.nTokens

instance (p : StartParams) (task : StartTask) (s : SlotPrompt) : Decidable (StartOk p task s) :=
  inferInstanceAs (Decidable (p.Admits task → _))

/-- The start loads the checkpoint, and goes on behind the first `n` tokens. -/
def Restores (p : StartParams) (task : StartTask) (s : SlotPrompt) (ckpt : SlotCheckpoint) (n : Nat) : Prop :=
  p.canSplit = true ∧ p.Admits task ∧ ∃ s₁ nPast posNext s₂ posNext', s.reuse p task = some (s₁, nPast) ∧
    s₁.tokens.posNext nPast = some posNext ∧ (0 < nPast ∧ nPast ≤ s₁.nTokens) ∧ posMinThold p task nPast posNext ≤ s₁.mem.seqPosMin ∧
    findCheckpoint s₁.checkpoints posNext (posMinThold p task nPast posNext) = some ckpt ∧
    s₁.restore p task nPast = some (s₂, n, posNext')

section Start

variable {p : StartParams} {task : StartTask} {s s' s₁ s₂ : SlotPrompt} {ckpt : SlotCheckpoint} {k n : Nat} {posNext : Int}

/-- The reuse of the cached prompt leaves its tokens, or writes those of the new prompt over the first `k`. -/
theorem reuse_tokens (h : MediaWithin s.tokens) (hreuse : s.reuse p task = some (s₁, k)) :
    s₁.checkpoints = s.checkpoints ∧ MediaWithin s₁.tokens ∧ (s₁.tokens = s.tokens ∨
      s.tokens.mapIdxToMedia = [] ∧ s₁.tokens.hasMtmd = false ∧ s₁.tokens.tokens.take k = task.tokens.tokens.take k) := by
  unfold SlotPrompt.reuse at hreuse
  split at hreuse
  · obtain ⟨m, hcommon, hreuse⟩ := bind_eq_some_iff.mp hreuse
    dsimp only at hreuse
    split at hreuse
    · rename_i hlook
      split at hreuse
      · nomatch hreuse
      · obtain ⟨rfl, rfl⟩ := Prod.mk.inj (some.inj hreuse)
        have hmtmd : s.tokens.hasMtmd = false := by simpa using hlook.2.1
        have hm : textPrefix s.tokens.tokens task.tokens.tokens = m := by
          unfold ServerTokens.getCommonPrefix at hcommon
          rw [hmtmd, if_pos (by decide)] at hcommon
          exact some.inj hcommon
        subst hm
        obtain ⟨hleft, hright, -⟩ := textPrefix_spec s.tokens.tokens task.tokens.tokens
        have hhead : commonHead task s ≤ textPrefix s.tokens.tokens task.tokens.tokens := commonHead_le task s
        have hinit : TokensInv s.tokens.tokens task.tokens.tokens (commonHead task s)
            ⟨s.tokens, s.mem, commonHead task s, commonHead task s, commonHead task s⟩ := by
          refine ⟨hmtmd, rfl, ?_, rfl, Nat.le_refl _, Nat.le_refl _, hhead.trans hleft, hhead.trans hright, rfl⟩
          have heq := congrArg (List.take (commonHead task s)) (textPrefix_take s.tokens.tokens task.tokens.tokens)
          rwa [take_take, take_take, Nat.min_eq_left hhead] at heq
        obtain ⟨rest, hinv⟩ := hinit.loop (Int.lt_toNat.mpr hlook.2.2) s.nTokens (Nat.le_add_right _ _)
        have hmedia := loop_media task.tokens.tokens task.nCacheReuse.toNat s.nTokens
          ⟨s.tokens, s.mem, commonHead task s, commonHead task s, commonHead task s⟩
        have hnone := hmedia.trans (h.noMedia hmtmd)
        refine ⟨rfl, ⟨fun _ => hnone, fun i _ => ?_⟩, .inr ⟨h.noMedia hmtmd, hinv.noMtmd, ?_⟩⟩
        · unfold ServerTokens.chunkAt
          exact congrArg (List.lookup i) hnone
        · exact hinv.past ▸ hinv.head
    · obtain ⟨rfl, -⟩ := Prod.mk.inj (some.inj hreuse)
      exact ⟨rfl, h, .inl rfl⟩
  · obtain ⟨rfl, -⟩ := Prod.mk.inj (some.inj hreuse)
    exact ⟨rfl, h, .inl rfl⟩

/-- Going back to a checkpoint leaves the tokens, and does not go forward where there are no media. -/
theorem restore_tokens (hpos : ∀ ckpt ∈ s.checkpoints, 0 ≤ ckpt.posMin) (hrestore : s.restore p task k = some (s', n, posNext)) :
    s'.tokens = s.tokens ∧ s'.checkpoints = s.checkpoints ∧ (s.tokens.hasMtmd = false → n ≤ k) := by
  unfold SlotPrompt.restore at hrestore
  obtain ⟨q, hq, hrestore⟩ := bind_eq_some_iff.mp hrestore
  split at hrestore
  · split at hrestore
    · nomatch hrestore
    · split at hrestore
      · cases hfind : findCheckpoint s.checkpoints q (posMinThold p task k q) with
        | none =>
          rw [hfind] at hrestore
          obtain ⟨rfl, hrest⟩ := Prod.mk.inj (some.inj hrestore)
          obtain ⟨rfl, -⟩ := Prod.mk.inj hrest
          exact ⟨rfl, rfl, fun _ => Nat.zero_le k⟩
        | some ckpt =>
          rw [hfind] at hrestore
          dsimp only at hrestore
          split at hrestore
          · obtain ⟨m, hm, heq⟩ := map_eq_some_iff.mp hrestore
            obtain ⟨rfl, hrest⟩ := Prod.mk.inj heq
            obtain ⟨rfl, -⟩ := Prod.mk.inj hrest
            refine ⟨rfl, rfl, fun hmtmd => ?_⟩
            have hmin := hpos ckpt (mem_reverse.mp (mem_of_find?_eq_some hfind))
            unfold ServerTokens.posNext at hq
            unfold ServerTokens.sizeUpToPos at hm
            rw [hmtmd, if_pos (by decide)] at hq hm
            obtain rfl := some.inj hq
            rw [if_neg (by omega)] at hm
            obtain rfl := some.inj hm
            omega
          · nomatch hrestore
      · obtain ⟨rfl, hrest⟩ := Prod.mk.inj (some.inj hrestore)
        obtain ⟨rfl, -⟩ := Prod.mk.inj hrest
        exact ⟨rfl, rfl, fun _ => Nat.le_refl _⟩
  · obtain ⟨rfl, hrest⟩ := Prod.mk.inj (some.inj hrestore)
    obtain ⟨rfl, -⟩ := Prod.mk.inj hrest
    exact ⟨rfl, rfl, fun _ => Nat.le_refl _⟩

/-- Tokens that are kept are those of the new prompt as far as the cached prompt shares them. -/
theorem agree_kept {kept toks input : ServerTokens} {m : Nat} (h : Agree toks kept kept.tokens.length) (hshared : Agree toks input m) :
    Agree input (kept.extend input) m :=
  agree_extend_task hshared.right (fun i hi hlt => (hshared.token i hi).symm.trans (h.token i hlt))
    fun i hi hlt => (hshared.chunk i hi).symm.trans (h.chunk i hlt)

/-- A start that leaves the slot ready: the checkpoints are those that are kept, and the prompt to be processed is the
new one as far as the cached one shares it. -/
theorem start_kept (h : MediaWithin s.tokens) (hpos : ∀ ckpt ∈ s.checkpoints, 0 ≤ ckpt.posMin)
    (hready : s.start p task = .ready s' n) :
    p.Admits task ∧ MediaWithin s'.tokens ∧ (∀ ckpt ∈ s'.checkpoints, ckpt ∈ s.checkpoints ∧ Stays p task s ckpt) ∧
      ∀ m, Agree s.tokens task.tokens m → Agree task.tokens (s'.tokens.extend task.tokens) m := by
  unfold SlotPrompt.start at hready
  split at hready
  · nomatch hready
  · rename_i hnonempty
    have hkeep {s₁ : SlotPrompt} {m : Nat} (hkeep : s₁.keep m = .ready s' n) :
        s₁.tokens.keepFirst m = .returned s'.tokens ∧ s'.checkpoints = s₁.checkpoints := by
      unfold SlotPrompt.keep at hkeep
      cases hfirst : s₁.tokens.keepFirst m with
      | returned toks =>
        rw [hfirst] at hkeep
        obtain ⟨rfl, -⟩ := Started.ready.inj hkeep
        exact ⟨rfl, rfl⟩
      | _ =>
        rw [hfirst] at hkeep
        nomatch hkeep
    split at hready
    · rename_i hsplit
      have hno : p.canSplit = false := by simpa using hsplit
      split at hready
      · nomatch hready
      · rename_i hfits
        obtain ⟨hfirst, hckpts⟩ := hkeep hready
        obtain ⟨hlen, hagree, -, hmedia⟩ := keepFirst_returned hfirst
        refine ⟨⟨hnonempty, ?_⟩, hmedia h, fun ckpt hckpt => ⟨hckpts ▸ hckpt, fun hyes => nomatch hno.symm.trans hyes⟩,
          fun m hshared => agree_kept (hlen.symm ▸ hagree) hshared⟩
        rw [hno, if_neg (by decide)]
        exact hfits
    · rename_i hsplit
      have hyes : p.canSplit = true := by simpa using hsplit
      split at hready
      · nomatch hready
      · rename_i hfits
        cases hsettle : s.settle p task with
        | none =>
          unfold SlotPrompt.settle at hsettle
          rw [hsettle] at hready
          nomatch hready
        | some r =>
          obtain ⟨s₂, nPast, posNext⟩ := r
          have hstart := hready
          unfold SlotPrompt.settle at hsettle
          rw [hsettle] at hstart
          obtain ⟨hfirst, hckpts⟩ := hkeep hstart
          obtain ⟨⟨s₁, k⟩, hreuse, hrestore⟩ := bind_eq_some_iff.mp hsettle
          obtain ⟨hckpts₁, hmedia₁, htokens₁⟩ := reuse_tokens h hreuse
          obtain ⟨htokens₂, hckpts₂, hle⟩ := restore_tokens (hckpts₁ ▸ hpos) hrestore
          have hfirst' : s₁.tokens.keepFirst (keepOne task.nTokens nPast) = .returned s'.tokens := htokens₂ ▸ hfirst
          obtain ⟨hlen, hagree, hmtmd', hmedia⟩ := keepFirst_returned hfirst'
          refine ⟨⟨hnonempty, ?_⟩, hmedia hmedia₁, fun ckpt hckpt => ?_, fun m hshared => ?_⟩
          · rw [hyes, if_pos rfl]
            exact Nat.not_le.mp hfits
          · have hkept := hckpts ▸ hckpt
            obtain ⟨hmem, htest⟩ := mem_filter.mp hkept
            refine ⟨hckpts₁ ▸ hckpts₂ ▸ hmem, fun _ => ⟨_, hsettle, ?_⟩⟩
            exact Int.not_lt.mp (of_decide_eq_true htest)
          · rcases htokens₁ with hsame | ⟨hnone, hmtmd, hhead⟩
            · exact agree_kept (hlen.symm ▸ hsame ▸ hagree) hshared
            · -- chunks were moved; what is kept is the beginning of the new prompt
              have hn := (keepOne_le task.nTokens nPast).trans (hle hmtmd)
              refine agree_extend_task hshared.right (fun i hi hlt => ?_) fun i hi hlt => ?_
              · have heq := congrArg (fun toks => toks[i]?) hhead
                simp only [getElem?_take, if_pos ((hlen ▸ hlt).trans_le hn)] at heq
                exact heq.symm.trans (hagree.token i (hlen ▸ hlt))
              · have hkept : s'.tokens.chunkAt i = none := by
                  unfold ServerTokens.chunkAt
                  exact congrArg (List.lookup i) ((hmedia hmedia₁).noMedia (hmtmd'.trans hmtmd))
                have hcached : s.tokens.chunkAt i = none := by
                  unfold ServerTokens.chunkAt
                  exact congrArg (List.lookup i) hnone
                rw [hkept, ← hshared.chunk i hi, hcached]

/-- A checkpoint that is loaded is one that stays, and the prompt goes on within it. -/
theorem Restores.stays (h : MediaWithin s.tokens) (hrestores : Restores p task s ckpt n) :
    ckpt ∈ s.checkpoints ∧ Stays p task s ckpt ∧ n ≤ ckpt.nTokens := by
  obtain ⟨-, -, s₁, nPast, q, s₂, posNext', hreuse, hq, hin, hback, hfind, hrestore⟩ := hrestores
  obtain ⟨hckpts, -, -⟩ := reuse_tokens h hreuse
  have hsettle : s.settle p task = some (s₂, n, posNext') := by
    unfold SlotPrompt.settle
    rw [hreuse]
    exact hrestore
  unfold SlotPrompt.restore at hrestore
  have hcells : s₁.mem.seqPosMin ≠ -1 := by
    have hthold : 0 ≤ posMinThold p task nPast q := Int.le_max_left _ _
    omega
  rw [hq, bind_some, if_pos hin, if_neg hcells, if_pos hback, hfind] at hrestore
  dsimp only at hrestore
  split at hrestore
  · obtain ⟨m, -, heq⟩ := map_eq_some_iff.mp hrestore
    obtain ⟨-, hrest⟩ := Prod.mk.inj heq
    obtain ⟨rfl, rfl⟩ := Prod.mk.inj hrest
    have hmem : ckpt ∈ s₁.checkpoints := mem_reverse.mp (mem_of_find?_eq_some hfind)
    unfold findCheckpoint at hfind
    have htest := find?_some hfind
    have hmax := (of_decide_eq_true htest).1
    refine ⟨hckpts ▸ hmem, fun _ => ⟨_, hsettle, ?_⟩, Nat.min_le_right _ _⟩
    dsimp only
    omega
  · nomatch hrestore

end Start

/-! ## The steps of a slot -/

/-- What the checkpoints of a prompt say of the tokens `toks`. -/
structure PromptInv (s : SlotPrompt) (toks : ServerTokens) : Prop where
  described : ∀ ckpt ∈ s.checkpoints, Described ckpt toks
  posMin : ∀ ckpt ∈ s.checkpoints, 0 ≤ ckpt.posMin
  media : MediaWithin s.tokens

/-- While tokens of a draft are in the prompt, the checkpoints end in front of them. -/
structure CheckpointInv (s : PromptSlot) : Prop where
  prompt : PromptInv s.prompt s.present
  drafted : ∀ task n, s.state = .generating task → s.drafted = some n →
    s.specTokens + 1 + n = s.prompt.nTokens ∧ ∀ ckpt ∈ s.prompt.checkpoints, ckpt.nTokens ≤ s.specTokens

def SlotState.starts : SlotState → Option SlotTask
  | .started task => some task
  | _ => none

def SlotState.processing : SlotState → Bool
  | .processingPrompt _ => true
  | _ => false

/-- A task starts where all checkpoints that stay describe its prompt, and no prompt is given up in front of the end of a
checkpoint. -/
def SlotActionOk (s : PromptSlot) : SlotAction → Prop
  | .start q => ∀ task ∈ s.state.starts, StartOk q task.toStart s.prompt
  | .release => s.state.processing = true → ∀ ckpt ∈ s.prompt.checkpoints, ckpt.nTokens ≤ s.prompt.nTokens
  | _ => True

instance (s : PromptSlot) : ∀ a, Decidable (SlotActionOk s a)
  | .start q => inferInstanceAs (Decidable (∀ task ∈ s.state.starts, StartOk q task.toStart s.prompt))
  | .release => inferInstanceAs (Decidable (s.state.processing = true → _))
  | .launch _ _ | .clear | .restoreFile _ _ | .media | .text _ _ | .decoded _ | .fail | .generate | .sample _ _ | .accept _
  | .rollBack _ | .contextShift _ _ => .isTrue trivial

section Steps

variable {p : CheckpointParams} {s s' : PromptSlot} {prompt prompt' : SlotPrompt} {toks toks' : ServerTokens} {n : Nat}
  {task : SlotTask}

theorem PromptInv.congr (h : PromptInv prompt toks) (hsub : ∀ ckpt ∈ prompt'.checkpoints, ckpt ∈ prompt.checkpoints)
    (hagree : ∀ ckpt ∈ prompt'.checkpoints, Agree toks toks' ckpt.nTokens) (hmedia : MediaWithin prompt'.tokens) :
    PromptInv prompt' toks' where
  described ckpt hckpt := (h.described ckpt (hsub ckpt hckpt)).congr (hagree ckpt hckpt)
  posMin ckpt hckpt := h.posMin ckpt (hsub ckpt hckpt)
  media := hmedia

/-- Without checkpoints there is nothing to describe. -/
theorem PromptInv.none (h : prompt.checkpoints = []) (hmedia : MediaWithin prompt.tokens) : PromptInv prompt toks where
  described _ hckpt := absurd (h ▸ hckpt) not_mem_nil
  posMin _ hckpt := absurd (h ▸ hckpt) not_mem_nil
  media := hmedia

theorem PromptInv.promptClear (prompt : SlotPrompt) (toks : ServerTokens) : PromptInv prompt.promptClear toks :=
  .none rfl (MediaWithin.clear _)

/-- The checkpoints lie in the tokens that they describe. -/
theorem PromptInv.le (h : PromptInv prompt toks) {ckpt : SlotCheckpoint} (hckpt : ckpt ∈ prompt.checkpoints) :
    ckpt.nTokens ≤ toks.tokens.length := (h.described ckpt hckpt).agree.right

theorem evictClose_sublist (minStep idTask last : Int) (ckpts : List SlotCheckpoint) :
    (SlotPrompt.evictClose minStep idTask last ckpts).Sublist ckpts := by
  induction ckpts generalizing last with
  | nil => exact List.Sublist.refl _
  | cons cur rest ih =>
    unfold SlotPrompt.evictClose
    split
    · exact (ih last).trans (sublist_cons_self _ _)
    · exact (ih _).cons_cons cur

/-- A new checkpoint of the tokens that were decoded, and the old ones that were not evicted. -/
theorem PromptInv.createCheckpoint (h : PromptInv prompt toks) {idTask posMin posMax : Int} {decoded : ServerTokens}
    (hmin : 0 ≤ posMin) (hagree : Agree decoded toks decoded.tokens.length) :
    PromptInv (prompt.createCheckpoint p idTask posMin posMax decoded) toks := by
  have hold (ckpt : SlotCheckpoint)
      (hckpt : ckpt ∈ (SlotPrompt.evictClose p.checkpointMinStep idTask (-1) prompt.checkpoints).drop
        ((SlotPrompt.evictClose p.checkpointMinStep idTask (-1) prompt.checkpoints).length + 1 - p.nCtxCheckpoints)) :
      ckpt ∈ prompt.checkpoints := (evictClose_sublist _ _ _ _).subset (mem_of_mem_drop hckpt)
  refine ⟨fun ckpt hckpt => ?_, fun ckpt hckpt => ?_, h.media⟩
  · rcases List.mem_append.mp hckpt with hkept | hnew
    · exact h.described ckpt (hold ckpt hkept)
    · obtain rfl := mem_singleton.mp hnew
      exact ⟨rfl, hagree⟩
  · rcases List.mem_append.mp hckpt with hkept | hnew
    · exact h.posMin ckpt (hold ckpt hkept)
    · obtain rfl := mem_singleton.mp hnew
      exact hmin

theorem CheckpointInv.inState {st : SlotState} (h : CheckpointInv s) (hstate : s.state = st) :
    PromptInv s.prompt (st.ahead s.prompt.tokens) := hstate ▸ h.prompt

/-- Outside of generation there is no draft. -/
theorem PromptInv.toSlot (st : SlotState) (h : PromptInv prompt (st.ahead prompt.tokens)) (hstate : s.state = st)
    (hprompt : s.prompt = prompt) (hgen : ∀ task, st ≠ .generating task) : CheckpointInv s where
  prompt := by
    unfold PromptSlot.present
    rw [hstate, hprompt]
    exact h
  drafted task _ hgenerating := absurd (hstate.symm.trans hgenerating) (hgen task)

theorem CheckpointInv.release (h : PromptInv s.prompt s.prompt.tokens) (task : SlotTask) : CheckpointInv (s.release task) := by
  refine ⟨?_, nofun⟩
  show PromptInv (if task.isChild then s.prompt.promptClear else s.prompt) (if task.isChild then s.prompt.promptClear else s.prompt).tokens
  split
  · exact .promptClear _ _
  · exact h

theorem CheckpointInv.start {q : StartParams} (h : CheckpointInv s) (hstate : s.state = .started task)
    (hok : StartOk q task.toStart s.prompt) (hready : s.prompt.start q task.toStart = .ready prompt n) :
    CheckpointInv { s with state := .processingPrompt task, prompt := prompt.trim } := by
  have hprompt : PromptInv s.prompt s.prompt.tokens := h.inState hstate
  obtain ⟨hadmits, hmedia, hckpts, hagree⟩ := start_kept hprompt.media hprompt.posMin hready
  refine ⟨hprompt.congr (fun ckpt hckpt => (hckpts ckpt hckpt).1) (fun ckpt hckpt => ?_) hmedia, nofun⟩
  obtain ⟨hmem, hstays⟩ := hckpts ckpt hckpt
  have hshared := hok hadmits ckpt hmem hstays
  exact hshared.trans (hagree _ hshared)

theorem takeCheckpoint_tokens (p : CheckpointParams) (s : PromptSlot) (task : SlotTask) (due : Bool) (prompt : SlotPrompt) :
    (s.takeCheckpoint p task due prompt).tokens = prompt.tokens := by
  unfold PromptSlot.takeCheckpoint
  dsimp only
  split <;> rfl

theorem PromptInv.takeCheckpoint (h : PromptInv prompt toks) (task : SlotTask) (due : Bool)
    (hagree : Agree s.prompt.tokens toks s.prompt.tokens.tokens.length) : PromptInv (s.takeCheckpoint p task due prompt) toks := by
  unfold PromptSlot.takeCheckpoint
  dsimp only
  split
  · rename_i htaken
    exact h.createCheckpoint (Int.not_lt.mp htaken.2.2) hagree
  · exact h

/-- The next tokens of the task go to the batch, and a checkpoint may be taken in front of them. -/
theorem CheckpointInv.text {due : Bool} (h : CheckpointInv s) (hstate : s.state = .processingPrompt task)
    (hadd : s.addText task n = some prompt) : CheckpointInv { s with
      state := if (s.takeCheckpoint p task due prompt).nTokens = task.tokens.size then .donePrompt task else .processingPrompt task
      prompt := s.takeCheckpoint p task due prompt } := by
  have hprompt : PromptInv s.prompt (s.prompt.tokens.extend task.tokens.tokens) := h.inState hstate
  unfold PromptSlot.addText at hadd
  obtain ⟨⟨hlen, htext⟩, heq⟩ := ite_none_right_eq_some.mp hadd
  obtain rfl := some.inj heq
  have hfollows := @follows_text s.prompt.tokens task.tokens.tokens hprompt.media task.tokens.wellFormed.represented
    task.tokens.hasTokens _ (congrArg (fun k => (task.tokens.tokens.tokens.drop s.prompt.nTokens).take k) hlen) htext
  have hmedia := hprompt.media.insert ((task.tokens.tokens.tokens.drop s.prompt.nTokens).take n)
  -- the next tokens are among those that were about to be decoded
  have hext : PromptInv { s.prompt with tokens := s.prompt.tokens.insert ((task.tokens.tokens.tokens.drop s.prompt.nTokens).take n) }
      ((s.prompt.tokens.insert ((task.tokens.tokens.tokens.drop s.prompt.nTokens).take n)).extend task.tokens.tokens) :=
    hprompt.congr (fun _ hckpt => hckpt) (fun ckpt hckpt => hfollows.extend (hprompt.le hckpt)) hmedia
  have hhead := hfollows.head.trans (agree_extend task.tokens.tokens hfollows.head.right)
  split
  · rename_i hdone
    have hall : (s.prompt.tokens.insert ((task.tokens.tokens.tokens.drop s.prompt.nTokens).take n)).tokens.length =
        task.tokens.tokens.tokens.length := by
      have htokens := congrArg (·.tokens.length) (takeCheckpoint_tokens p s task due
        { s.prompt with tokens := s.prompt.tokens.insert ((task.tokens.tokens.tokens.drop s.prompt.nTokens).take n) })
      exact htokens.symm.trans hdone
    refine ⟨?_, nofun⟩
    show PromptInv _ (s.takeCheckpoint p task due _).tokens
    rw [takeCheckpoint_tokens]
    refine PromptInv.takeCheckpoint (hext.congr (fun _ hckpt => hckpt) (fun ckpt hckpt => ?_) hmedia) task due hfollows.head
    have hle := hext.le hckpt
    rw [extend_length, hall, Nat.max_self] at hle
    exact (agree_extend _ (hle.trans_eq hall.symm)).symm
  · refine ⟨?_, nofun⟩
    show PromptInv _ ((s.takeCheckpoint p task due _).tokens.extend task.tokens.tokens)
    rw [takeCheckpoint_tokens]
    exact hext.takeCheckpoint task due hhead

theorem CheckpointInv.media {chunk : MediaChunk} (h : CheckpointInv s)
    (hstate : s.state = .processingPrompt task)
    (hchunk : task.tokens.tokens.chunkAt s.prompt.nTokens = some chunk)
    (hpush : s.prompt.tokens.pushMedia chunk = .returned toks) :
    CheckpointInv { s with prompt := { s.prompt with tokens := toks } } := by
  have hprompt : PromptInv s.prompt (s.prompt.tokens.extend task.tokens.tokens) := h.inState hstate
  obtain ⟨hfollows, hmedia⟩ := follows_media hprompt.media task.tokens.wellFormed.represented task.tokens.hasTokens hchunk hpush
  have hnext : PromptInv { s.prompt with tokens := toks } (toks.extend task.tokens.tokens) :=
    hprompt.congr (fun _ hckpt => hckpt) (fun ckpt hckpt => hfollows.extend (hprompt.le hckpt)) hmedia
  exact hnext.toSlot _ hstate rfl nofun

/-- The prompt of a generating slot grows behind its checkpoints. -/
theorem CheckpointInv.sample {tok : Int} {draft : List Int} (h : CheckpointInv s)
    (hstate : s.state = .generating task) : CheckpointInv { s with
      prompt := { s.prompt with tokens := s.prompt.tokens.insert (tok :: draft) }
      drafted := some draft.length
      specTokens := s.prompt.nTokens } := by
  have hprompt : PromptInv s.prompt s.prompt.tokens := h.inState hstate
  refine ⟨?_, fun task' n _ hdraft => ⟨?_, fun ckpt hckpt => hprompt.le hckpt⟩⟩
  · show PromptInv _ (s.state.ahead _)
    rw [hstate]
    exact hprompt.congr (fun _ hckpt => hckpt) (fun ckpt hckpt => agree_insert _ (hprompt.le hckpt)) (hprompt.media.insert _)
  · obtain rfl := some.inj hdraft
    have hlen : (s.prompt.tokens.tokens ++ tok :: draft).length = s.prompt.tokens.tokens.length + (draft.length + 1) := length_append
    exact (Nat.add_assoc _ _ _).trans ((congrArg _ (Nat.add_comm _ _)).trans hlen.symm)

/-- The prompt of a generating slot is cut behind its checkpoints, and tokens are appended. -/
theorem CheckpointInv.cut (ids : List Int) (h : CheckpointInv s) (hstate : s.state = .generating task)
    (hckpts : ∀ ckpt ∈ s.prompt.checkpoints, ckpt.nTokens ≤ n)
    (hkeep : s.prompt.keepFirst n = some prompt) (mem : TargetMemory) :
    CheckpointInv { s with prompt := { prompt with tokens := prompt.tokens.insert ids, mem := mem }, drafted := none } := by
  have hprompt : PromptInv s.prompt s.prompt.tokens := h.inState hstate
  unfold SlotPrompt.keepFirst at hkeep
  cases hfirst : s.prompt.tokens.keepFirst n with
  | returned toks =>
    rw [hfirst] at hkeep
    obtain rfl := some.inj hkeep
    obtain ⟨hlen, hagree, -, hmedia⟩ := keepFirst_returned hfirst
    refine ⟨?_, nofun⟩
    rw [hstate]
    refine hprompt.congr (fun _ hckpt => hckpt) (fun ckpt hckpt => ?_) ((hmedia hprompt.media).insert ids)
    have hle := hckpts ckpt hckpt
    exact (hagree.mono hle).trans (agree_insert ids (hle.trans_eq hlen.symm))
  | _ =>
    rw [hfirst] at hkeep
    nomatch hkeep

theorem CheckpointInv.step (h : CheckpointInv s) {a : SlotAction} (hok : SlotActionOk s a) (hstep : s.step p a = some s') :
    CheckpointInv s' := by
  unfold PromptSlot.step at hstep
  cases a with
  | launch task clears =>
    dsimp only at hstep
    split at hstep
    · rename_i hstate
      obtain rfl := some.inj hstep
      have hprompt : PromptInv s.prompt s.prompt.tokens := h.inState hstate
      have hnext : PromptInv (if clears then s.prompt.clear else s.prompt) (if clears then s.prompt.clear else s.prompt).tokens := by
        split
        · exact .none rfl (MediaWithin.clear _)
        · exact hprompt
      cases task.isChild with
      | true => exact hnext.toSlot (.waitOther task) rfl rfl nofun
      | false => exact hnext.toSlot (.started task) rfl rfl nofun
    · nomatch hstep
  | clear =>
    dsimp only at hstep
    split at hstep
    · rename_i hstate
      obtain rfl := some.inj hstep
      exact (PromptInv.promptClear s.prompt _).toSlot _ hstate rfl nofun
    · nomatch hstep
  | restoreFile toks mem =>
    dsimp only at hstep
    split at hstep
    · rename_i hstate
      obtain rfl := some.inj hstep
      have hnext : PromptInv { s.prompt.clear with tokens := s.prompt.clear.tokens.insert toks, mem := mem }
          (s.prompt.clear.tokens.insert toks) := .none rfl ((MediaWithin.clear _).insert toks)
      exact hnext.toSlot _ hstate rfl nofun
    · nomatch hstep
  | start q =>
    dsimp only at hstep
    split at hstep
    · rename_i task hstate
      split at hstep
      · obtain rfl := some.inj hstep
        exact .release (h.inState hstate) task
      · nomatch hstep
      · rename_i prompt n hready
        obtain rfl := some.inj hstep
        have hstarts : task ∈ s.state.starts := by
          rw [hstate]
          rfl
        exact h.start hstate (hok task hstarts) hready
    · nomatch hstep
  | media =>
    dsimp only at hstep
    split at hstep
    · rename_i task hstate
      split at hstep
      · rename_i chunk hchunk
        split at hstep
        · rename_i toks hpush
          obtain rfl := some.inj hstep
          exact h.media hstate hchunk hpush
        · nomatch hstep
      · nomatch hstep
    · nomatch hstep
  | text n due =>
    dsimp only at hstep
    split at hstep
    · rename_i task hstate
      obtain ⟨prompt, hadd, rfl⟩ := map_eq_some_iff.mp hstep
      exact h.text hstate hadd
    · nomatch hstep
  | decoded mem =>
    obtain rfl := some.inj hstep
    exact ⟨h.prompt.congr (fun _ hckpt => hckpt) (fun _ hckpt => Agree.refl (h.prompt.le hckpt)) h.prompt.media, h.drafted⟩
  | fail =>
    obtain ⟨task, -, rfl⟩ := map_eq_some_iff.mp hstep
    exact (PromptInv.promptClear s.prompt _).toSlot .idle rfl rfl nofun
  | generate =>
    dsimp only at hstep
    split at hstep
    · rename_i task hstate
      obtain rfl := some.inj hstep
      have hprompt : PromptInv s.prompt s.prompt.tokens := h.inState hstate
      exact ⟨hprompt, nofun⟩
    · nomatch hstep
  | sample tok draft =>
    dsimp only at hstep
    split at hstep
    · rename_i task hstate hdraft
      obtain rfl := some.inj hstep
      exact h.sample hstate
    · nomatch hstep
  | accept ids =>
    dsimp only at hstep
    split at hstep
    · rename_i task nDraft hstate hdraft
      obtain ⟨prompt, hkeep, rfl⟩ := map_eq_some_iff.mp hstep
      obtain ⟨hlen, hckpts⟩ := h.drafted task nDraft hstate hdraft
      exact h.cut _ hstate (fun ckpt hckpt => (hckpts ckpt hckpt).trans (by omega)) hkeep prompt.mem
    · nomatch hstep
  | rollBack mem =>
    dsimp only at hstep
    split at hstep
    · rename_i task nDraft hstate hdraft
      obtain ⟨prompt, hkeep, rfl⟩ := map_eq_some_iff.mp hstep
      have hcut := h.cut [] hstate (h.drafted task nDraft hstate hdraft).2 hkeep mem
      have hnil : prompt.tokens.insert [] = prompt.tokens := by
        unfold ServerTokens.insert
        rw [append_nil]
      exact hnil ▸ hcut
    · nomatch hstep
  | contextShift nKeep nDiscard =>
    dsimp only at hstep
    split at hstep
    · rename_i task hstate hdraft
      split at hstep
      · nomatch hstep
      · obtain rfl := some.inj hstep
        refine ⟨?_, fun task' n _ hdraft' => nomatch hdraft.symm.trans hdraft'⟩
        exact .none rfl ((MediaWithin.clear _).insert _)
    · nomatch hstep
  | release =>
    obtain ⟨task, htask, rfl⟩ := map_eq_some_iff.mp hstep
    have hprompt : PromptInv s.prompt s.prompt.tokens := by
      unfold PromptSlot.task? at htask
      cases hstate : s.state with
      | processingPrompt task' =>
        -- nothing that is about to be decoded is described
        have hin : PromptInv s.prompt (s.prompt.tokens.extend task'.tokens.tokens) := h.inState hstate
        have hend := hok (congrArg SlotState.processing hstate)
        exact hin.congr (fun _ hckpt => hckpt) (fun ckpt hckpt => (agree_extend _ (hend ckpt hckpt)).symm) hin.media
      | _ => exact h.inState hstate
    exact .release hprompt task

end Steps

/-! ## Runs of the server -/

def CheckpointActionOk (s : PromptServer) : PromptServerAction → Prop
  | .slot i a => SlotActionOk (s.slots i) a
  | _ => True

instance (s : PromptServer) : ∀ a, Decidable (CheckpointActionOk s a)
  | .slot i a => inferInstanceAs (Decidable (SlotActionOk (s.slots i) a))
  | .save _ | .drop _ | .load _ _ | .copyState _ _ => .isTrue trivial

structure CheckpointsInv (s : PromptServer) : Prop where
  slots : ∀ i, CheckpointInv (s.slots i)
  saved : ∀ prompt ∈ s.saved, PromptInv prompt prompt.tokens

section Runs

variable {p : CheckpointParams} {s s' : PromptServer}

theorem checkpointsInv_init : CheckpointsInv {} where
  slots _ := (PromptInv.none rfl ⟨fun _ => rfl, fun _ _ => rfl⟩).toSlot .idle rfl rfl nofun
  saved _ hprompt := absurd hprompt not_mem_nil

theorem CheckpointsInv.setSlot (h : CheckpointsInv s) {i : Nat} {slot : PromptSlot} (hslot : CheckpointInv slot) :
    CheckpointsInv (s.setSlot i slot) where
  slots j := by
    unfold PromptServer.setSlot Function.update
    dsimp only
    split
    · rename_i heq
      subst heq
      exact hslot
    · exact h.slots j
  saved := h.saved

theorem PromptInv.clone {prompt : SlotPrompt} (h : PromptInv prompt prompt.tokens) {ckpts : List SlotCheckpoint}
    (hsub : ∀ ckpt ∈ ckpts, ckpt ∈ prompt.checkpoints) :
    PromptInv { prompt with tokens := prompt.tokens.clone, checkpoints := ckpts } prompt.tokens.clone := by
  rw [clone_eq]
  exact h.congr hsub (fun ckpt hckpt => Agree.refl (h.le (hsub ckpt hckpt))) h.media

theorem CheckpointsInv.step (h : CheckpointsInv s) {a : PromptServerAction} (hok : CheckpointActionOk s a)
    (hstep : s.step p a = some s') : CheckpointsInv s' := by
  unfold PromptServer.step at hstep
  cases a with
  | slot i a =>
    obtain ⟨slot, hslot, rfl⟩ := map_eq_some_iff.mp hstep
    exact h.setSlot ((h.slots i).step hok hslot)
  | save i =>
    dsimp only at hstep
    split at hstep
    · rename_i hstate
      obtain rfl := some.inj hstep
      refine ⟨h.slots, fun prompt hprompt => ?_⟩
      rcases List.mem_append.mp hprompt with hold | hnew
      · exact h.saved prompt hold
      · obtain rfl := mem_singleton.mp hnew
        have hslot : PromptInv (s.slots i).prompt (s.slots i).prompt.tokens := (h.slots i).inState hstate
        exact hslot.clone fun ckpt hckpt => mem_of_mem_drop hckpt
    · nomatch hstep
  | drop k =>
    obtain rfl := some.inj hstep
    exact ⟨h.slots, fun prompt hprompt => h.saved prompt (mem_of_mem_eraseIdx hprompt)⟩
  | load i k =>
    dsimp only at hstep
    split at hstep
    · rename_i prompt hstate hsaved
      obtain rfl := some.inj hstep
      have hprompt := h.saved prompt (mem_of_getElem? hsaved)
      have hset := h.setSlot (i := i) (hprompt.toSlot (s := { s.slots i with prompt := prompt }) _ hstate rfl nofun)
      exact ⟨hset.slots, fun prompt hprompt => h.saved prompt (mem_of_mem_eraseIdx hprompt)⟩
    · nomatch hstep
  | copyState parent child =>
    dsimp only at hstep
    split at hstep
    · rename_i task₁ task hparent hchild
      obtain rfl := some.inj hstep
      have hprompt : PromptInv (s.slots parent).prompt (s.slots parent).prompt.tokens := (h.slots parent).inState hparent
      exact h.setSlot ((hprompt.clone fun _ hckpt => hckpt).toSlot (.donePrompt task) rfl rfl nofun)
    · nomatch hstep

end Runs

/-- In runs whose starts and releases meet the condition, every checkpoint describes its prompt, and one that is loaded at
a start that meets it holds the first `n` tokens of the new prompt. -/
theorem reaches_described (p : CheckpointParams) (s : PromptServer)
    (h : Runs.Reaches (PromptServer.step p) CheckpointActionOk {} s) (i : Nat) :
    CheckpointsDescribed (s.slots i) ∧
      ∀ q task ckpt n, (s.slots i).state = .started task → StartOk q task.toStart (s.slots i).prompt →
        Restores q task.toStart (s.slots i).prompt ckpt n → Agree ckpt.taken task.tokens.tokens n := by
  have hinv : CheckpointsInv s := h.inv (fun s a s' hs hok hstep => hs.step hok hstep) checkpointsInv_init
  refine ⟨(hinv.slots i).prompt.described, fun q task ckpt n hstate hok hrestores => ?_⟩
  have hprompt : PromptInv (s.slots i).prompt (s.slots i).prompt.tokens := (hinv.slots i).inState hstate
  obtain ⟨hmem, hstays, hle⟩ := hrestores.stays hprompt.media
  exact ((hprompt.described ckpt hmem).agree.trans (hok hrestores.2.1 ckpt hmem hstays)).mono hle

/-- A prompt of six tokens on a slot with a sliding window that is wider than the prompt.  A checkpoint is taken behind the
second token.  Then another task is launched. -/
def twoTasks (toks : List Int) (htext : llamaTokenNull ∉ toks) : List PromptServerAction :=
  [.slot 0 (.launch { id := 1, tokens := (textPrompt [1, 2, 3, 4, 5, 6] (by decide)).tokens } false),
    .slot 0 (.start { nCtx := 64, nSwa := 32 }), .slot 0 (.text 2 true),
    .slot 0 (.decoded { base := MemCell.row [1, 2] 0, swa := some (MemCell.row [1, 2] 0) }), .slot 0 (.text 4 true),
    .slot 0 (.decoded { base := MemCell.row [1, 2, 3, 4, 5, 6] 0, swa := some (MemCell.row [1, 2, 3, 4, 5, 6] 0) }),
    .slot 0 .generate, .slot 0 .release,
    .slot 0 (.launch { id := 2, tokens := (textPrompt toks htext).tokens } false), .slot 0 (.start { nCtx := 64, nSwa := 32 })]

/-- The prompts share three tokens. -/
theorem reaches_described_shared : ∃ s,
    Runs.permitted (PromptServer.step {}) CheckpointActionOk {} (twoTasks [1, 2, 3, 7, 8, 9] (by decide)) = some s ∧
      (s.slots 0).prompt.checkpoints.map (·.nTokens) = [2] ∧ CheckpointsDescribed (s.slots 0) := by
  have hrun : (Runs.permitted (PromptServer.step {}) CheckpointActionOk {} (twoTasks [1, 2, 3, 7, 8, 9] (by decide))).map
      (fun s => (s.slots 0).prompt.checkpoints.map (·.nTokens)) = some [2] := by
    decide +kernel
  obtain ⟨s, hs, hckpts⟩ := map_eq_some_iff.mp hrun
  exact ⟨s, hs, hckpts, (reaches_described {} s (Runs.Reaches.refl.ofPermitted hs) 0).1⟩

/-- The prompts share one token, and the checkpoint of two tokens stays. -/
theorem stale_checkpoint : ¬∀ (p : CheckpointParams) (s : PromptServer),
    Runs.Reaches (PromptServer.step p) (fun _ _ => True) {} s → ∀ i, CheckpointsDescribed (s.slots i) := by
  intro h
  have hrun : (Runs.permitted (PromptServer.step {}) (fun _ _ => True) {} (twoTasks [1, 7, 3, 4, 5, 6] (by decide))).map
      (fun s => (s.slots 0).prompt.checkpoints.all fun ckpt => decide (Described ckpt (s.slots 0).present)) = some false := by
    decide +kernel
  obtain ⟨s, hs, hfalse⟩ := map_eq_some_iff.mp hrun
  have hdescribed := h {} s (Runs.Reaches.refl.ofPermitted hs) 0
  have htrue := List.all_eq_true.mpr fun ckpt hckpt => decide_eq_true (hdescribed ckpt hckpt)
  exact nomatch hfalse.symm.trans htrue

end LlamaCpp.Server
