import LlamaCpp.Lib.Runs
import LlamaCpp.Server.CommonPrefix

/-!
# The prompt cache

`server_prompt_cache` of server-task.cpp.  Saving a prompt is `alloc` and the filling of the buffers that it
returns (`prompt_save`).  Whether the buffers can be allocated, and what `llama_state_seq_set_data_ext` returns,
comes from outside; so do the float operations.

An entry remembers the state that was saved with it.  A load that restores the target state empties its buffer; if
the draft state cannot be restored then, the entry stays without its target state (`load_empties_entry`).  In runs
without such a load all entries are complete, none is a prefix of another, and the size keeps to its limit
(`exec_cacheOk`).
-/

namespace LlamaCpp.Server

open List

/-- `server_tokens` as the server builds them. -/
structure PromptTokens where
  tokens : ServerTokens
  wellFormed : WellFormed tokens
  hasTokens : HasTokens tokens

/-- `get_common_prefix`, which finds a prefix of well-formed tokens (`getCommonPrefix_spec`). -/
def PromptTokens.commonPrefix (a b : PromptTokens) : Nat := (a.tokens.getCommonPrefix b.tokens).getD 0

def PromptTokens.size (a : PromptTokens) : Nat := a.tokens.tokens.length

theorem clone_eq (s : ServerTokens) : s.clone = s := by
  unfold ServerTokens.clone
  rw [List.map_id']

def PromptTokens.clone (a : PromptTokens) : PromptTokens where
  tokens := a.tokens.clone
  wellFormed := (clone_eq a.tokens).symm ▸ a.wellFormed
  hasTokens := (clone_eq a.tokens).symm ▸ a.hasTokens

structure PromptCheckpoint where
  dataTgt : List UInt8 := []
  dataDft : List UInt8 := []
  dataSpec : List UInt8 := []

def PromptCheckpoint.size (ckpt : PromptCheckpoint) : Nat := ckpt.dataTgt.length + ckpt.dataDft.length + ckpt.dataSpec.length

/-- The size of all checkpoints. -/
def checkpointsSize (ckpts : List PromptCheckpoint) : Nat := (ckpts.map (·.size)).sum

structure ServerPrompt where
  tokens : PromptTokens
  checkpoints : List PromptCheckpoint := []

structure PromptData where
  main : List UInt8 := []
  drft : List UInt8 := []
deriving DecidableEq

/-- `server_prompt_cache_state`, with the data that was saved. -/
structure CacheState where
  prompt : ServerPrompt
  data : PromptData
  saved : PromptData := {}

def CacheState.size (e : CacheState) : Nat := e.data.main.length + e.data.drft.length + checkpointsSize e.prompt.checkpoints

/-- The float operations of the cache. -/
structure CacheFloats where
  Value : Type
  /-- `float(a) / b` -/
  ratio : Nat → Nat → Value
  less : Value → Value → Bool
  /-- `0.25f` -/
  quarter : Value
  /-- `-1.0f` -/
  minusOne : Value
  /-- `0.4*size` -/
  reduced : Nat → Nat
  /-- `limit_size/size_per_token`, of the limit, the size and the number of tokens. -/
  estimate : Nat → Nat → Nat → Nat

structure PromptCache where
  states : List CacheState := []
  limitSize : Nat := 0
  limitTokens : Nat := 0

abbrev cacheCheckpointsMax : Nat := 2

namespace PromptCache

def sizeOf (states : List CacheState) : Nat := (states.map (·.size)).sum

def tokensOf (states : List CacheState) : Nat := (states.map fun e => e.prompt.tokens.size).sum

variable (fl : CacheFloats) (cache : PromptCache)

def size : Nat := sizeOf cache.states

/-- Removes the oldest entries as long as there is too much. -/
def popWhile (tooMuch : List CacheState → Bool) : List CacheState → List CacheState
  | [] => []
  | e :: es => if tooMuch (e :: es) then popWhile tooMuch es else e :: es

def update : PromptCache :=
  let states := if 0 < cache.limitSize then popWhile (fun es => cache.limitSize < sizeOf es) cache.states else cache.states
  let limitTokensCur :=
    if 0 < cache.limitSize then max cache.limitTokens (fl.estimate cache.limitSize (sizeOf states) (tokensOf states))
    else cache.limitTokens
  let states := if 0 < cache.limitTokens then popWhile (fun es => limitTokensCur < tokensOf es) states else states
  { cache with states := states }

/-- `alloc`; with the answer whether a new entry was made. -/
def alloc (prompt : ServerPrompt) (stateSizeTgt stateSizeDft : Nat) (canAllocate : Bool) : PromptCache × Bool :=
  if cache.states.any fun e => e.prompt.tokens.commonPrefix prompt.tokens = prompt.tokens.size then (cache, false)
  else
    let stateSizeNew := stateSizeTgt + stateSizeDft + checkpointsSize prompt.checkpoints
    if 0 < cache.limitSize ∧ cache.limitSize < stateSizeNew then (cache, false)
    else
      -- prompts that are contained in the new one
      let states := cache.states.filter fun e => e.prompt.tokens.commonPrefix prompt.tokens ≠ e.prompt.tokens.size
      let states :=
        if 0 < cache.limitSize then popWhile (fun es => cache.limitSize < sizeOf es + stateSizeNew) states else states
      if canAllocate then
        let checkpoints := prompt.checkpoints.drop (prompt.checkpoints.length - cacheCheckpointsMax)
        let data : PromptData := { main := List.replicate stateSizeTgt 0, drft := List.replicate stateSizeDft 0 }
        let entry : CacheState := { prompt := { tokens := prompt.tokens.clone, checkpoints := checkpoints }, data := data }
        ({ cache with states := states ++ [entry] }, true)
      else (update fl { cache with states := states, limitSize := max 1 (fl.reduced (sizeOf states)) }, false)

/-- Fills the buffers of the last entry. -/
def fillBack (data : PromptData) : List CacheState → List CacheState
  | [] => []
  | [e] => [{ e with data := data, saved := data }]
  | e :: e' :: es => e :: fillBack data (e' :: es)

/-- `prompt_save`, with the states of the target and the draft context. -/
def promptSave (prompt : ServerPrompt) (data : PromptData) (canAllocate : Bool) : PromptCache :=
  let r := cache.alloc fl prompt data.main.length data.drft.length canAllocate
  if r.2 then { r.1 with states := fillBack data r.1.states } else r.1

/-- The loop of `load` over the entries from index `i` on, with the best values so far. -/
def findBest (tokensNew : PromptTokens) (fKeep fSim : fl.Value) (best : Option Nat) : Nat → List CacheState → Option Nat
  | _, [] => best
  | i, e :: es =>
    let lcp := e.prompt.tokens.commonPrefix tokensNew
    let fKeepCur := fl.ratio lcp e.prompt.tokens.size
    let fSimCur := fl.ratio lcp tokensNew.size
    -- large prompts are not trashed
    if fl.less fKeepCur fl.quarter then findBest tokensNew fKeep fSim best (i + 1) es
    else if fl.less fKeep fKeepCur ∧ fl.less fSim fSimCur then findBest tokensNew fKeepCur fSimCur (some i) (i + 1) es
    else findBest tokensNew fKeep fSim best (i + 1) es

/-- The entry that `load` chooses. -/
def best (prompt : ServerPrompt) (tokensNew : PromptTokens) : Option Nat :=
  let lcp := prompt.tokens.commonPrefix tokensNew
  let fKeep := if 0 < prompt.tokens.size then fl.ratio lcp prompt.tokens.size else fl.minusOne
  findBest fl tokensNew fKeep (fl.ratio lcp tokensNew.size) none 0 cache.states

end PromptCache

/-- `llama_state_seq_set_data_ext`: the magic number of an empty buffer cannot be read, and 0 is returned. -/
def stateSeqSetData (data : List UInt8) (answer : Nat) : Nat := if data = [] then 0 else answer

namespace PromptCache

variable (fl : CacheFloats) (cache : PromptCache)

/-- `load`, where the contexts give these answers: the result, the cache and the prompt. -/
def load (prompt : ServerPrompt) (tokensNew : PromptTokens) (nTgt nDft : Nat) : Bool × PromptCache × ServerPrompt :=
  match cache.best fl prompt tokensNew with
  | none => (true, cache, prompt)
  | some k =>
    match cache.states[k]? with
    | none => (true, cache, prompt)
    | some e =>
      if stateSeqSetData e.data.main nTgt ≠ e.data.main.length then (false, cache, prompt)
      else
        let restored := { cache with states := cache.states.modify k fun e => { e with data := { e.data with main := [] } } }
        if e.data.drft ≠ [] ∧ stateSeqSetData e.data.drft nDft ≠ e.data.drft.length then (false, restored, prompt)
        else (true, { cache with states := cache.states.eraseIdx k }, e.prompt)

end PromptCache

inductive CacheAction where
  | save (prompt : ServerPrompt) (data : PromptData) (canAllocate : Bool)
  | load (prompt : ServerPrompt) (tokensNew : PromptTokens) (nTgt nDft : Nat)
  | update

def PromptCache.step (fl : CacheFloats) (cache : PromptCache) : CacheAction → PromptCache
  | .save prompt data canAllocate => cache.promptSave fl prompt data canAllocate
  | .load prompt tokensNew nTgt nDft => (cache.load fl prompt tokensNew nTgt nDft).2.1
  | .update => cache.update fl

/-- The tokens of `a` are the first tokens of `b`. -/
def PrefixOf (a b : PromptTokens) : Prop := Agree a.tokens b.tokens a.size

/-- Neither prompt is a prefix of the other. -/
def Apart (e e' : CacheState) : Prop :=
  ¬PrefixOf e.prompt.tokens e'.prompt.tokens ∧ ¬PrefixOf e'.prompt.tokens e.prompt.tokens

/-- The entries have the data that was saved, none is a prefix of another, and the size keeps to its limit. -/
structure CacheOk (cache : PromptCache) : Prop where
  complete : ∀ e ∈ cache.states, e.data = e.saved
  apart : cache.states.Pairwise Apart
  limit : 0 < cache.limitSize → cache.size ≤ cache.limitSize

/-- A load that restores the target state restores the draft state too. -/
def DraftRestored (fl : CacheFloats) (cache : PromptCache) : CacheAction → Prop
  | .load prompt tokensNew nTgt nDft =>
    ∀ k ∈ cache.best fl prompt tokensNew, ∀ e ∈ cache.states[k]?,
      stateSeqSetData e.data.main nTgt = e.data.main.length → e.data.drft ≠ [] →
        stateSeqSetData e.data.drft nDft = e.data.drft.length
  | _ => True

/-! ## Prefixes -/

section Prefixes

variable {a b : PromptTokens}

/-- A chunk of `b` that starts in front of the end of a prefix ends in front of it. -/
theorem PrefixOf.outside (h : PrefixOf a b) : ¬InsideChunk b.tokens a.size := by
  rintro ⟨k, chunk, hchunk, hlt, hlt'⟩
  have hsame := h.chunk k hlt
  rw [hchunk, Option.map_some] at hsame
  obtain ⟨chunk', hchunk', heq⟩ := Option.map_eq_some_iff.mp hsame
  have hle := chunk_le_length a.wellFormed.represented a.hasTokens hchunk'
  have hn : chunk'.nTokens = chunk.nTokens := congrArg (·.2) heq
  have hsize : a.size = a.tokens.tokens.length := rfl
  omega

theorem not_inside_size (a : PromptTokens) : ¬InsideChunk a.tokens a.size := by
  rintro ⟨k, chunk, hchunk, hlt, hlt'⟩
  have hle := chunk_le_length a.wellFormed.represented a.hasTokens hchunk
  have hsize : a.size = a.tokens.tokens.length := rfl
  omega

theorem commonPrefix_spec (a b : PromptTokens) : IsCommonPrefix a.tokens b.tokens (a.commonPrefix b) := by
  obtain ⟨n, hn, hprefix⟩ := getCommonPrefix_spec a.wellFormed b.wellFormed a.hasTokens b.hasTokens
  unfold PromptTokens.commonPrefix
  rw [hn]
  exact hprefix

theorem Agree.symm {a b : ServerTokens} {n : Nat} (h : Agree a b n) : Agree b a n :=
  ⟨h.right, h.left, fun i hi => (h.token i hi).symm, fun i hi => (h.chunk i hi).symm⟩

/-- `get_common_prefix` finds the whole of a prefix. -/
theorem commonPrefix_eq_left (h : PrefixOf a b) : a.commonPrefix b = a.size := by
  have hspec := commonPrefix_spec a b
  exact Nat.le_antisymm hspec.1.agree.left (hspec.2 _ ⟨h, not_inside_size a, h.outside⟩)

theorem commonPrefix_eq_right (h : PrefixOf b a) : a.commonPrefix b = b.size := by
  have hspec := commonPrefix_spec a b
  exact Nat.le_antisymm hspec.1.agree.right (hspec.2 _ ⟨Agree.symm h, h.outside, not_inside_size b⟩)

end Prefixes

/-! ## What the operations keep -/

section CacheOk

variable {fl : CacheFloats} {cache : PromptCache} {es es' : List CacheState}

/-- The entries have the data that was saved, and none is a prefix of another. -/
structure EntriesOk (es : List CacheState) : Prop where
  complete : ∀ e ∈ es, e.data = e.saved
  apart : es.Pairwise Apart

theorem EntriesOk.sublist (h : EntriesOk es) (hsub : es'.Sublist es) : EntriesOk es' where
  complete := fun e he => h.complete e (hsub.subset he)
  apart := h.apart.sublist hsub

theorem sizeOf_cons (e : CacheState) (es : List CacheState) :
    PromptCache.sizeOf (e :: es) = e.size + PromptCache.sizeOf es := by
  simp [PromptCache.sizeOf]

theorem sizeOf_append (es es' : List CacheState) :
    PromptCache.sizeOf (es ++ es') = PromptCache.sizeOf es + PromptCache.sizeOf es' := by
  simp [PromptCache.sizeOf]

theorem sizeOf_le (hsub : es'.Sublist es) : PromptCache.sizeOf es' ≤ PromptCache.sizeOf es := by
  induction hsub with
  | slnil => exact Nat.le_refl _
  | cons e _ ih =>
    rw [sizeOf_cons]
    omega
  | cons_cons e _ ih =>
    rw [sizeOf_cons, sizeOf_cons]
    omega

theorem popWhile_sublist (tooMuch : List CacheState → Bool) (es : List CacheState) :
    (PromptCache.popWhile tooMuch es).Sublist es := by
  induction es with
  | nil => exact List.Sublist.refl _
  | cons e es ih =>
    unfold PromptCache.popWhile
    split
    · exact ih.cons e
    · exact List.Sublist.refl _

/-- Entries are removed until there is not too much, or nothing is left. -/
theorem popWhile_spec (tooMuch : List CacheState → Bool) (es : List CacheState) :
    PromptCache.popWhile tooMuch es = [] ∨ tooMuch (PromptCache.popWhile tooMuch es) = false := by
  induction es with
  | nil => exact Or.inl rfl
  | cons e es ih =>
    unfold PromptCache.popWhile
    split
    · exact ih
    · rename_i hnot
      exact Or.inr (Bool.not_eq_true _ ▸ hnot)

theorem sizeOf_popWhile (limit extra : Nat) (hextra : extra ≤ limit) (es : List CacheState) :
    PromptCache.sizeOf (PromptCache.popWhile (fun es => limit < PromptCache.sizeOf es + extra) es) + extra ≤ limit := by
  rcases popWhile_spec (fun es => limit < PromptCache.sizeOf es + extra) es with hnil | hfits
  · rw [hnil]
    show 0 + extra ≤ limit
    rwa [Nat.zero_add]
  · exact Nat.not_lt.mp (of_decide_eq_false hfits)

/-- `update` keeps a part of the entries, which keeps to the limit. -/
theorem update_cacheOk (fl : CacheFloats) (h : EntriesOk cache.states) : CacheOk (cache.update fl) := by
  unfold PromptCache.update
  dsimp only
  generalize hstates : (if 0 < cache.limitSize then
    PromptCache.popWhile (fun es => cache.limitSize < PromptCache.sizeOf es) cache.states else cache.states) = es
  have hsub : es.Sublist cache.states := by
    rw [← hstates]
    split
    · exact popWhile_sublist _ _
    · exact List.Sublist.refl _
  have hlimit : 0 < cache.limitSize → PromptCache.sizeOf es ≤ cache.limitSize := fun hpos => by
    rw [← hstates, if_pos hpos]
    exact sizeOf_popWhile cache.limitSize 0 (Nat.zero_le _) cache.states
  split
  · have hpop := popWhile_sublist (fun es' => (if 0 < cache.limitSize then
        max cache.limitTokens (fl.estimate cache.limitSize (PromptCache.sizeOf es) (PromptCache.tokensOf es))
      else cache.limitTokens) < PromptCache.tokensOf es') es
    have hok := h.sublist (hpop.trans hsub)
    exact ⟨hok.complete, hok.apart, fun hpos => Nat.le_trans (sizeOf_le hpop) (hlimit hpos)⟩
  · have hok := h.sublist hsub
    exact ⟨hok.complete, hok.apart, hlimit⟩

theorem CacheOk.entries (h : CacheOk cache) : EntriesOk cache.states := ⟨h.complete, h.apart⟩

theorem fillBack_append (data : PromptData) (es : List CacheState) (e : CacheState) :
    PromptCache.fillBack data (es ++ [e]) = es ++ [{ e with data := data, saved := data }] := by
  induction es with
  | nil => rfl
  | cons e' es ih =>
    cases es with
    | nil => rfl
    | cons e'' es =>
      rw [cons_append, cons_append, PromptCache.fillBack, ← cons_append, ih]
      rfl

theorem checkpointsSize_drop (ckpts : List PromptCheckpoint) (n : Nat) :
    checkpointsSize (ckpts.drop n) ≤ checkpointsSize ckpts := by
  unfold checkpointsSize
  conv_rhs => rw [← take_append_drop n ckpts, map_append, sum_append]
  exact Nat.le_add_left _ _

/-- A new entry that is filled behind entries that are apart from it. -/
theorem EntriesOk.push (h : EntriesOk es) {e : CacheState} (hcomplete : e.data = e.saved) (hapart : ∀ e' ∈ es, Apart e' e) :
    EntriesOk (es ++ [e]) where
  complete := fun e' he' => by
    rcases List.mem_append.mp he' with he' | he'
    · exact h.complete e' he'
    · exact mem_singleton.mp he' ▸ hcomplete
  apart := by
    refine pairwise_append.mpr ⟨h.apart, pairwise_singleton _ _, fun e' he' e'' he'' => ?_⟩
    exact mem_singleton.mp he'' ▸ hapart e' he'

theorem apart_of_commonPrefix {e e' : CacheState}
    (hne : e.prompt.tokens.commonPrefix e'.prompt.tokens ≠ e'.prompt.tokens.size)
    (hne' : e.prompt.tokens.commonPrefix e'.prompt.tokens ≠ e.prompt.tokens.size) : Apart e e' :=
  ⟨fun h => hne' (commonPrefix_eq_left h), fun h => hne (commonPrefix_eq_right h)⟩

/-- `alloc` makes no entry, or an entry of this size behind entries that are apart from it. -/
theorem alloc_spec (fl : CacheFloats) (h : CacheOk cache) (prompt : ServerPrompt) (tgt dft : Nat) (canAllocate : Bool) :
    ((cache.alloc fl prompt tgt dft canAllocate).2 = false ∧ CacheOk (cache.alloc fl prompt tgt dft canAllocate).1) ∨
    ((cache.alloc fl prompt tgt dft canAllocate).2 = true ∧ ∃ es new,
      (cache.alloc fl prompt tgt dft canAllocate).1 = { cache with states := es ++ [new] } ∧ EntriesOk es ∧
      (∀ e ∈ es, Apart e new) ∧
      (0 < cache.limitSize → PromptCache.sizeOf es + (tgt + dft + checkpointsSize new.prompt.checkpoints) ≤ cache.limitSize)) := by
  unfold PromptCache.alloc
  split
  · exact Or.inl ⟨rfl, h⟩
  rename_i hcontained
  dsimp only
  generalize hnew : tgt + dft + checkpointsSize prompt.checkpoints = stateSizeNew
  split
  · exact Or.inl ⟨rfl, h⟩
  rename_i hover
  generalize hstates : (if 0 < cache.limitSize then
    PromptCache.popWhile (fun es => cache.limitSize < PromptCache.sizeOf es + stateSizeNew)
      (cache.states.filter fun e => e.prompt.tokens.commonPrefix prompt.tokens ≠ e.prompt.tokens.size)
    else cache.states.filter fun e => e.prompt.tokens.commonPrefix prompt.tokens ≠ e.prompt.tokens.size) = es
  have hsub : es.Sublist (cache.states.filter fun e => e.prompt.tokens.commonPrefix prompt.tokens ≠ e.prompt.tokens.size) := by
    rw [← hstates]
    split
    · exact popWhile_sublist _ _
    · exact List.Sublist.refl _
  have hok : EntriesOk es := h.entries.sublist (hsub.trans filter_sublist)
  cases canAllocate with
  | false => exact Or.inl ⟨rfl, update_cacheOk fl hok⟩
  | true =>
    refine Or.inr ⟨rfl, es, _, rfl, hok, fun e he => ?_, fun hpos => ?_⟩
    · obtain ⟨hmem, hkept⟩ := mem_filter.mp (hsub.subset he)
      have hne : e.prompt.tokens.commonPrefix prompt.tokens ≠ prompt.tokens.size := fun heq =>
        hcontained (List.any_eq_true.mpr ⟨e, hmem, decide_eq_true heq⟩)
      have hclone : prompt.tokens.clone = prompt.tokens := by
        obtain ⟨tokens, hwell, htok⟩ := prompt.tokens
        unfold PromptTokens.clone
        congr 1
        exact clone_eq tokens
      refine apart_of_commonPrefix ?_ ?_
      · rw [hclone]
        exact hne
      · rw [hclone]
        exact of_decide_eq_true hkept
    · have hpop : PromptCache.sizeOf es + stateSizeNew ≤ cache.limitSize := by
        rw [← hstates, if_pos hpos]
        exact sizeOf_popWhile _ _ (Nat.not_lt.mp fun hlt => hover ⟨hpos, hlt⟩) _
      have hdrop := checkpointsSize_drop prompt.checkpoints (prompt.checkpoints.length - cacheCheckpointsMax)
      dsimp only
      omega

theorem promptSave_cacheOk (fl : CacheFloats) (h : CacheOk cache) (prompt : ServerPrompt) (data : PromptData)
    (canAllocate : Bool) : CacheOk (cache.promptSave fl prompt data canAllocate) := by
  unfold PromptCache.promptSave
  dsimp only
  rcases alloc_spec fl h prompt data.main.length data.drft.length canAllocate with ⟨hno, hok⟩ | ⟨hyes, es, new, hr, hok, hapart, hlimit⟩
  · rw [hno]
    exact hok
  · rw [hyes, if_pos rfl, hr, fillBack_append]
    have hpush := hok.push (e := { new with data := data, saved := data }) rfl hapart
    refine ⟨hpush.complete, hpush.apart, fun hpos => ?_⟩
    have hle := hlimit hpos
    unfold PromptCache.size
    rw [sizeOf_append, sizeOf_cons]
    exact hle

theorem load_cacheOk (fl : CacheFloats) (h : CacheOk cache) {prompt : ServerPrompt} {tokensNew : PromptTokens}
    {nTgt nDft : Nat} (hdraft : DraftRestored fl cache (.load prompt tokensNew nTgt nDft)) :
    CacheOk (cache.load fl prompt tokensNew nTgt nDft).2.1 := by
  unfold PromptCache.load
  cases hbest : cache.best fl prompt tokensNew with
  | none => exact h
  | some k =>
    dsimp only
    cases hget : cache.states[k]? with
    | none => exact h
    | some e =>
      dsimp only
      split
      · exact h
      rename_i htgt
      split
      · rename_i hfail
        exact absurd (hdraft k hbest e hget (not_not.mp htgt) hfail.1) hfail.2
      · have hsub := eraseIdx_sublist cache.states k
        have hok := h.entries.sublist hsub
        exact ⟨hok.complete, hok.apart, fun hpos => Nat.le_trans (sizeOf_le hsub) (h.limit hpos)⟩

theorem step_cacheOk (fl : CacheFloats) (h : CacheOk cache) {a : CacheAction} (hdraft : DraftRestored fl cache a) :
    CacheOk (cache.step fl a) := by
  cases a with
  | save prompt data canAllocate => exact promptSave_cacheOk fl h prompt data canAllocate
  | load prompt tokensNew nTgt nDft => exact load_cacheOk fl h hdraft
  | update => exact update_cacheOk fl h.entries

end CacheOk

theorem cacheOk_init (limitSize limitTokens : Nat) : CacheOk { limitSize := limitSize, limitTokens := limitTokens } where
  complete := fun _ he => absurd he not_mem_nil
  apart := List.Pairwise.nil
  limit := fun _ => Nat.zero_le _

/-- In runs in which every load that restores the target state restores the draft state too, the cache is as it
should be. -/
theorem exec_cacheOk (fl : CacheFloats) (limitSize limitTokens : Nat) (as : List CacheAction)
    (h : Runs.EachStep (PromptCache.step fl) (DraftRestored fl) { limitSize := limitSize, limitTokens := limitTokens } as) :
    CacheOk (Runs.exec (PromptCache.step fl) { limitSize := limitSize, limitTokens := limitTokens } as) := by
  have hstep : ∀ cache a, CacheOk cache → DraftRestored fl cache a → CacheOk (cache.step fl a) :=
    fun _ _ hs hdraft => step_cacheOk fl hs hdraft
  exact Runs.exec_of_step hstep (cacheOk_init limitSize limitTokens) h

def textPrompt (toks : List Int) (htext : llamaTokenNull ∉ toks) : ServerPrompt where
  tokens := ⟨ServerTokens.ofTokens toks false, wellFormed_ofTokens htext false, hasTokens_of_mem fun _ he => nomatch he⟩

/-- The operations without rounding. -/
def exactFloats : CacheFloats where
  Value := Rat
  ratio := fun a b => (a : Rat) / b
  less := fun x y => x < y
  quarter := 1 / 4
  minusOne := -1
  reduced := fun n => 2 * n / 5
  estimate := fun limit size n => limit * max 1 n / max (max 1 n) size

/-- Two prompts are saved, and one of them is loaded with its draft state. -/
def loadRun : List CacheAction :=
  [.save (textPrompt [1, 2] (by decide)) ⟨[1, 2], [3]⟩ true, .save (textPrompt [4] (by decide)) ⟨[4], [5]⟩ true,
    .load (textPrompt [4] (by decide)) (textPrompt [1, 2, 3] (by decide)).tokens 2 1, .update]

theorem exec_cacheOk_load :
    CacheOk (Runs.exec (PromptCache.step exactFloats) { limitSize := 100, limitTokens := 10 } loadRun) := by
  refine exec_cacheOk exactFloats 100 10 loadRun ⟨trivial, trivial, ?_, trivial, trivial⟩
  unfold DraftRestored
  decide +kernel

/-- The target state of an entry is restored, the draft state is not: the entry stays without its target state. -/
theorem load_empties_entry : ¬∀ (fl : CacheFloats) (limitSize limitTokens : Nat) (as : List CacheAction),
    CacheOk (Runs.exec (PromptCache.step fl) { limitSize := limitSize, limitTokens := limitTokens } as) := by
  intro h
  have hok := h exactFloats 100 10 [.save (textPrompt [1, 2] (by decide)) ⟨[1, 2], [3]⟩ true,
    .load (textPrompt [4] (by decide)) (textPrompt [1, 2, 3] (by decide)).tokens 2 0]
  have hstates : (Runs.exec (PromptCache.step exactFloats) { limitSize := 100, limitTokens := 10 }
      [.save (textPrompt [1, 2] (by decide)) ⟨[1, 2], [3]⟩ true,
        .load (textPrompt [4] (by decide)) (textPrompt [1, 2, 3] (by decide)).tokens 2 0]).states.map
      (fun e => (e.data, e.saved)) = [(⟨[], [3]⟩, ⟨[1, 2], [3]⟩)] := by
    decide +kernel
  obtain ⟨e, he, heq⟩ := List.mem_map.mp (hstates ▸ mem_singleton_self _)
  have hdata := hok.complete e he
  rw [(Prod.mk.inj heq).1, (Prod.mk.inj heq).2] at hdata
  exact absurd hdata (by decide)

end LlamaCpp.Server
