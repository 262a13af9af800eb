import LlamaCpp.Server.PromptCache
import LlamaCpp.Server.PromptReuse

/-!
# Context checkpoints

The slots of a server over whole runs, as far as their prompts and checkpoints go: tasks are started, prompts are
processed in batches with checkpoints in between, tokens are generated with or without drafts, the context is shifted,
and prompts go to the prompt cache and come back.  Which cached prompt is loaded, whether a checkpoint is due and what
the memory holds after a decode come from outside.
-/

namespace LlamaCpp.Server

structure SlotTask where
  id : Int := 0
  tokens : PromptTokens
  cachePrompt : Bool := true
  nCacheReuse : Int := 0
  /-- The start of the aLoRA invocation that is found when the slot is launched. -/
  aloraInvocationStart : Int := -1
  isChild : Bool := false

def SlotTask.toStart (task : SlotTask) : StartTask where
  tokens := task.tokens.tokens
  cachePrompt := task.cachePrompt
  nCacheReuse := task.nCacheReuse
  aloraInvocationStart := task.aloraInvocationStart

/-- `slot_state`, with the task. -/
inductive SlotState where
  | idle
  | waitOther (task : SlotTask)
  | started (task : SlotTask)
  | processingPrompt (task : SlotTask)
  | donePrompt (task : SlotTask)
  | generating (task : SlotTask)

structure PromptSlot where
  state : SlotState := .idle
  prompt : SlotPrompt := {}
  /-- The sampled token is in the prompt, with `spec_draft.size()` tokens of a draft. -/
  drafted : Option Nat := none
  /-- `spec_ckpt.n_tokens` -/
  specTokens : Nat := 0

structure CheckpointParams where
  nCtxCheckpoints : Nat := 32
  checkpointMinStep : Int := 256

/-! ## Operations on the prompt -/

namespace SlotPrompt

variable (s : SlotPrompt)

/-- `clear`, with `seq_rm` of the whole sequence if the slot does it. -/
def clear : SlotPrompt := { s with tokens := s.tokens.clear, checkpoints := [] }

def promptClear : SlotPrompt := { s.clear with mem := s.mem.seqRm (-1) (-1) }

/-- The copy that goes to the prompt cache. -/
def cachedCopy : SlotPrompt :=
  { s with
    tokens := s.tokens.clone
    checkpoints := s.checkpoints.drop (s.checkpoints.length - cacheCheckpointsMax) }

/-- The loop that evicts checkpoints within the minimal step of the one before; `last` is its number of tokens. -/
def evictClose (minStep idTask : Int) : Int → List SlotCheckpoint → List SlotCheckpoint
  | _, [] => []
  | last, cur :: rest =>
    if cur.idTask ≠ idTask ∧ 0 ≤ last ∧ (cur.nTokens : Int) ≤ last + minStep then evictClose minStep idTask last rest
    else cur :: evictClose minStep idTask cur.nTokens rest

/-- `create_checkpoint` of the tokens `decoded`, in front of those that were added to the batch. -/
def createCheckpoint (p : CheckpointParams) (idTask posMin posMax : Int) (decoded : ServerTokens) : SlotPrompt :=
  let checkpoints := evictClose p.checkpointMinStep idTask (-1) s.checkpoints
  let checkpoints := checkpoints.drop (checkpoints.length + 1 - p.nCtxCheckpoints)
  { s with checkpoints := checkpoints ++ [{
      idTask := idTask
      nTokens := decoded.tokens.length
      posMin := posMin
      posMax := posMax
      cells := s.mem.swa.getD s.mem.base
      taken := decoded }] }

/-- The context shift: `n_discard` tokens behind the first `n_keep` are forgotten. -/
def contextShift (nKeep nDiscard : Nat) : SlotPrompt :=
  let toks := s.tokens.tokens
  let cleared := s.clear
  { cleared with
    tokens := cleared.tokens.insert (toks.take nKeep ++ toks.drop (nKeep + nDiscard))
    mem := (s.mem.seqRm nKeep (nKeep + nDiscard : Nat)).seqAdd (nKeep + nDiscard : Nat) s.tokens.posNextAll (-nDiscard) }

/-- `keep_first`, where it returns. -/
def keepFirst (n : Nat) : Option SlotPrompt :=
  match s.tokens.keepFirst n with
  | .returned tokens => some { s with tokens := tokens }
  | _ => none

end SlotPrompt

inductive SlotAction where
  /-- A task is launched; a change of the adapters may clear the prompt. -/
  | launch (task : SlotTask) (clears : Bool)
  /-- `prompt_clear` of an idle slot -/
  | clear
  /-- `SERVER_TASK_TYPE_SLOT_RESTORE` -/
  | restoreFile (toks : List Int) (mem : TargetMemory)
  /-- `SLOT_STATE_STARTED` -/
  | start (p : StartParams)
  /-- A media chunk of the prompt is processed. -/
  | media
  /-- The next `n` tokens of the prompt go to the batch, and a checkpoint is taken if one is due. -/
  | text (n : Nat) (due : Bool)
  /-- The batch is decoded. -/
  | decoded (mem : TargetMemory)
  /-- A decode fails. -/
  | fail
  /-- The first token is sampled. -/
  | generate
  /-- `handle_last_sampled_token` -/
  | sample (tok : Int) (draft : List Int)
  /-- Tokens are accepted. -/
  | accept (ids : List Int)
  /-- The speculative checkpoint is restored. -/
  | rollBack (mem : TargetMemory)
  | contextShift (nKeep nDiscard : Nat)
  | release

namespace PromptSlot

variable (p : CheckpointParams) (s : PromptSlot)

def release (task : SlotTask) : PromptSlot :=
  { state := .idle, prompt := if task.isChild then s.prompt.promptClear else s.prompt }

def task? : Option SlotTask :=
  match s.state with
  | .idle => none
  | .waitOther task | .started task | .processingPrompt task | .donePrompt task | .generating task => some task

/-- The prompt with the next `n` tokens of the task; `none` if they are not all text. -/
def addText (task : SlotTask) (n : Nat) : Option SlotPrompt :=
  let toks := (task.tokens.tokens.tokens.drop s.prompt.nTokens).take n
  if toks.length = n ∧ llamaTokenNull ∉ toks then some { s.prompt with tokens := s.prompt.tokens.insert toks } else none

/-- A checkpoint is taken if one is due and the memory has cells. -/
def takeCheckpoint (task : SlotTask) (due : Bool) (prompt : SlotPrompt) : SlotPrompt :=
  let posMin := prompt.mem.seqPosMin
  let posMax := ((prompt.mem.swa.getD prompt.mem.base).map (·.pos)).max?.getD (-1)
  if due ∧ 0 < p.nCtxCheckpoints ∧ ¬posMin < 0 then prompt.createCheckpoint p task.id posMin posMax s.prompt.tokens
  else prompt

/-- What an action does; `none` if the slot is not in the state for it, or if an assertion fails. -/
def step : SlotAction → Option PromptSlot
  | .launch task clears =>
    match s.state with
    | .idle =>
      let prompt := if clears then s.prompt.clear else s.prompt
      some { s with state := if task.isChild then .waitOther task else .started task, prompt := prompt }
    | _ => none
  | .clear =>
    match s.state with
    | .idle => some { s with prompt := s.prompt.promptClear }
    | _ => none
  | .restoreFile toks mem =>
    match s.state with
    | .idle =>
      let prompt := s.prompt.clear
      some { s with prompt := { prompt with tokens := prompt.tokens.insert toks, mem := mem } }
    | _ => none
  | .start q =>
    match s.state with
    | .started task =>
      match s.prompt.start q task.toStart with
      | .released => some (s.release task)
      | .stopped => none
      | .ready prompt _ => some { s with state := .processingPrompt task, prompt := prompt.trim }
    | _ => none
  | .media =>
    match s.state with
    | .processingPrompt task =>
      match task.tokens.tokens.chunkAt s.prompt.nTokens with
      | some chunk =>
        match s.prompt.tokens.pushMedia chunk with
        | .returned tokens => some { s with prompt := { s.prompt with tokens := tokens } }
        | _ => none
      | none => none
    | _ => none
  | .text n due =>
    match s.state with
    | .processingPrompt task =>
      (s.addText task n).map fun prompt =>
        let prompt := s.takeCheckpoint p task due prompt
        { s with state := if prompt.nTokens = task.tokens.size then .donePrompt task else .processingPrompt task, prompt := prompt }
    | _ => none
  | .decoded mem => some { s with prompt := { s.prompt with mem := mem } }
  | .fail => s.task?.map fun task => { s.release task with prompt := s.prompt.promptClear }
  | .generate =>
    match s.state with
    | .donePrompt task => some { s with state := .generating task, drafted := none }
    | _ => none
  | .sample tok draft =>
    match s.state, s.drafted with
    | .generating _, none =>
      some { s with
        prompt := { s.prompt with tokens := s.prompt.tokens.insert (tok :: draft) }
        drafted := some draft.length
        specTokens := s.prompt.nTokens }
    | _, _ => none
  | .accept ids =>
    match s.state, s.drafted with
    | .generating _, some nDraft =>
      (s.prompt.keepFirst (s.prompt.nTokens - nDraft)).map fun prompt =>
        { s with prompt := { prompt with tokens := prompt.tokens.insert ids.dropLast }, drafted := none }
    | _, _ => none
  | .rollBack mem =>
    match s.state, s.drafted with
    | .generating _, some _ =>
      (s.prompt.keepFirst s.specTokens).map fun prompt => { s with prompt := { prompt with mem := mem }, drafted := none }
    | _, _ => none
  | .contextShift nKeep nDiscard =>
    match s.state, s.drafted with
    | .generating _, none =>
      if s.prompt.tokens.hasMtmd then none else some { s with prompt := s.prompt.contextShift nKeep nDiscard }
    | _, _ => none
  | .release => s.task?.map s.release

end PromptSlot

structure PromptServer where
  slots : Nat → PromptSlot := fun _ => {}
  saved : List SlotPrompt := []

inductive PromptServerAction where
  | slot (i : Nat) (a : SlotAction)
  /-- `prompt_save` of an idle slot -/
  | save (i : Nat)
  /-- An entry of the prompt cache is removed. -/
  | drop (k : Nat)
  /-- `prompt_load` of an idle slot, which takes an entry out of the cache. -/
  | load (i k : Nat)
  /-- `copy_state_to` -/
  | copyState (parent child : Nat)

namespace PromptServer

variable (p : CheckpointParams) (s : PromptServer)

def setSlot (i : Nat) (slot : PromptSlot) : PromptServer := { s with slots := Function.update s.slots i slot }

def step : PromptServerAction → Option PromptServer
  | .slot i a => ((s.slots i).step p a).map (s.setSlot i)
  | .save i =>
    match (s.slots i).state with
    | .idle => some { s with saved := s.saved ++ [(s.slots i).prompt.cachedCopy] }
    | _ => none
  | .drop k => some { s with saved := s.saved.eraseIdx k }
  | .load i k =>
    match (s.slots i).state, s.saved[k]? with
    | .idle, some prompt => some { s.setSlot i { s.slots i with prompt := prompt } with saved := s.saved.eraseIdx k }
    | _, _ => none
  | .copyState parent child =>
    match (s.slots parent).state, (s.slots child).state with
    | .donePrompt _, .waitOther task =>
      let prompt := (s.slots parent).prompt
      some (s.setSlot child { s.slots child with
        state := .donePrompt task
        prompt := { prompt with tokens := prompt.tokens.clone } })
    | _, _ => none

end PromptServer

/-! ## The context shift -/

/-- `n_keep` and `n_discard` of `pre_decode`, for a task of `nTask` tokens. -/
def shiftRange (nCtx nTokens nTask keep discard : Int) (addBos : Bool) : Int × Int :=
  let nKeep := min (nCtx - 4) ((if keep < 0 then nTask else keep) + if addBos then 1 else 0)
  let nLeft := nTokens - nKeep
  (nKeep, max 0 (min (if discard ≠ 0 then discard else nLeft.tdiv 2) (max 0 (nLeft - 1))))

section

open List

variable {s : SlotPrompt} {nCtx : Nat} (nTask discard : Nat) (keep : Int) (addBos : Bool)

theorem shiftRange_spec {nTokens : Nat} (hctx : 4 ≤ nCtx) (hdue : nCtx ≤ nTokens + 1) : ∃ k d : Nat,
    shiftRange nCtx nTokens nTask keep discard addBos = (↑k, ↑d) ∧ 0 < d ∧ k + d ≤ nTokens := by
  obtain ⟨k, hk⟩ : ∃ k : Nat, min (nCtx - 4 : Int) ((if keep < 0 then (nTask : Int) else keep) +
      if addBos then 1 else 0) = k :=
    Int.eq_ofNat_of_zero_le (by split_ifs <;> omega)
  obtain ⟨l, rfl⟩ : ∃ l, nTokens = k + l := Nat.exists_eq_add_of_le (by omega)
  refine ⟨k, min (if discard ≠ 0 then discard else l / 2) (l - 1), ?_, by split_ifs <;> omega, by omega⟩
  dsimp only [shiftRange]
  rw [hk, Nat.cast_add, add_sub_cancel_left, Int.tdiv_eq_ediv_of_nonneg (Int.natCast_nonneg l)]
  refine congrArg _ ?_
  split_ifs <;> omega

/-- After the shift of a full context the memory holds the tokens that are left, each at its place, and there are fewer. -/
theorem contextShift_cached (h : CachedPrompt s) (htext : s.tokens.hasMtmd = false) (hctx : 4 ≤ nCtx)
    (hdue : nCtx ≤ s.nTokens + 1) : ∃ k d : Nat, shiftRange nCtx s.nTokens nTask keep discard addBos = (↑k, ↑d) ∧
      CachedPrompt (s.contextShift k d) ∧ (s.contextShift k d).nTokens < s.nTokens := by
  obtain ⟨k, d, hrange, hpos, hle⟩ := shiftRange_spec nTask discard keep addBos hctx hdue
  obtain ⟨n, hn⟩ := Nat.exists_eq_add_of_le hle
  let toks := s.tokens.tokens.take k ++ s.tokens.tokens.drop (k + d)
  have hn : s.tokens.tokens.length = k + d + n := hn
  have htake : (s.tokens.tokens.take k).length = k := by rw [length_take]; omega
  have hlen : toks.length = k + n := by rw [length_append, htake, length_drop]; omega
  have hmem : ((s.mem.seqRm k (k + d : Nat)).seqAdd (k + d : Nat) s.tokens.posNextAll (-d)).Full toks := by
    rw [h.text.posNextAll, hn, show (-d : Int) = k - (k + d : Nat) by omega]
    refine (h.full.seqRm fun cells hcells => ?_).seqAdd fun _ hcells => hcells
    rw [MemCell.row_split _ 0 k (by omega), Nat.zero_add] at hcells
    have hcells : cells.Perm (MemCell.row (toks.take k) 0 ++ MemCell.row (s.tokens.tokens.drop k) k) := by rwa [take_left' htake]
    have hmove := cells_move (Nat.le_refl k) (Nat.le_add_right k d) hn.ge hlen.ge (by rw [drop_left' htake]) hcells
    rwa [take_of_length_le hlen.le, drop_of_length_le hn.le, MemCell.row, append_nil] at hmove
  have hless : toks.length < s.nTokens := by rw [hlen]; show _ < s.tokens.tokens.length; omega
  refine ⟨k, d, hrange, ⟨⟨rfl, fun hmtmd => by cases htext.symm.trans hmtmd⟩, hmem, ?_,
    fun _ hckpt => absurd hckpt not_mem_nil⟩, hless⟩
  have hfits := h.fits
  show (toks.length : Int) ≤ _
  omega

end

theorem contextShift_cached_three : ∃ k d : Nat, shiftRange 4 3 1 0 0 true = (↑k, ↑d) ∧
    CachedPrompt (cachedSlot.contextShift k d) ∧ (cachedSlot.contextShift k d).nTokens < 3 :=
  @contextShift_cached cachedSlot 4 1 0 0 true cachedSlot_cached rfl (by decide) (by decide)

end LlamaCpp.Server
