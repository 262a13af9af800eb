import LlamaCpp.Server.Tokens
import LlamaCpp.Server.TargetMemory

/-!
# The start of a prompt

What `update_slots` does to a slot in `SLOT_STATE_STARTED`: it looks for what can be reused of the cached prompt
(the common prefix, chunks behind it that are moved, a checkpoint), and cuts the prompt and the memory there.

The draft context, which gets the same operations, is left out; so are the texts of the errors.
-/

namespace LlamaCpp.Server

/-- `common_prompt_checkpoint` of a prompt, with the cells that its data restores and the tokens that had been decoded
when it was taken. -/
structure SlotCheckpoint where
  idTask : Int := 0
  nTokens : Nat
  posMin : Int
  posMax : Int
  cells : List MemCell := []
  taken : ServerTokens := {}

structure SlotPrompt where
  tokens : ServerTokens := {}
  checkpoints : List SlotCheckpoint := []
  mem : TargetMemory := {}

/-- What the start of a prompt reads of the server and the slot. -/
structure StartParams where
  /-- `can_split` -/
  canSplit : Bool := true
  nUbatch : Nat := 512
  nCtx : Nat
  /-- `n_swa`, which is 0 with `swa_full`. -/
  nSwa : Nat := 0
  /-- `llama_memory_can_shift` -/
  canShift : Bool := true
  /-- There is a multimodal context. -/
  mctx : Bool := false
  /-- `llama_state_seq_set_data_ext` takes the data of a checkpoint. -/
  restores : SlotCheckpoint → Bool := fun _ => true

/-- What the start of a prompt reads of the task and the slot that was launched with it. -/
structure StartTask where
  tokens : ServerTokens
  cachePrompt : Bool := true
  nCacheReuse : Int := 0
  aloraInvocationStart : Int := -1

def StartTask.nTokens (task : StartTask) : Nat := task.tokens.tokens.length

def SlotPrompt.nTokens (s : SlotPrompt) : Nat := s.tokens.tokens.length

/-! ## Reuse of chunks -/

structure Reuse where
  tokens : ServerTokens
  mem : TargetMemory
  /-- in the cache -/
  headC : Nat
  /-- in the current prompt -/
  headP : Nat
  nPast : Nat

namespace Reuse

variable (input : List Int) (nCacheReuse : Nat) (σ : Reuse)

def nMatch : Nat := textPrefix (σ.tokens.tokens.drop σ.headC) (input.drop σ.headP)

/-- The loop of `set_token` over a chunk of `n` tokens. -/
def setTokens (toks : ServerTokens) (headP headC n : Nat) : ServerTokens :=
  (List.range n).foldl (fun toks i => toks.setToken (headP + i) (toks.tokens.getD (headC + i) 0)) toks

/-- A chunk of `n` tokens is moved. -/
def move (n : Nat) : Reuse where
  mem := (σ.mem.seqRm σ.headP σ.headC).seqAdd σ.headC (σ.headC + n : Nat) (σ.headP - σ.headC)
  tokens := setTokens σ.tokens σ.headP σ.headC n
  headC := σ.headC + n
  headP := σ.headP + n
  nPast := σ.nPast + n

/-- The loop.  Every iteration moves `head_c`, so as many as there are cached tokens are enough. -/
def loop : Nat → Reuse → Reuse
  | 0, σ => σ
  | fuel + 1, σ =>
    if σ.headC < σ.tokens.tokens.length ∧ σ.headP < input.length then
      if nCacheReuse ≤ σ.nMatch input then loop fuel (σ.move (σ.nMatch input))
      else loop fuel { σ with headC := σ.headC + 1 }
    else σ

end Reuse

/-! ## The point to go on from -/

/-- How much of the cached prompt is reused, with the prompt after chunks were moved; `none` if an assertion fails. -/
def SlotPrompt.reuse (p : StartParams) (task : StartTask) (s : SlotPrompt) : Option (SlotPrompt × Nat) :=
  if task.cachePrompt then
    (s.tokens.getCommonPrefix task.tokens).bind fun n =>
      -- if there is an alora invoked, don't cache after the invocation start
      let n := if 0 < task.aloraInvocationStart then min n (task.aloraInvocationStart - 1).toNat else n
      if p.canShift ∧ !s.tokens.hasMtmd ∧ 0 < task.nCacheReuse then
        if p.mctx then none
        else
          let σ := Reuse.loop task.tokens.tokens task.nCacheReuse.toNat s.nTokens ⟨s.tokens, s.mem, n, n, n⟩
          some ({ s with tokens := σ.tokens, mem := σ.mem }, σ.nPast)
      else some (s, n)
  else some (s, 0)

/-- The search for a checkpoint, from the last one. -/
def findCheckpoint (checkpoints : List SlotCheckpoint) (posNext posMinThold : Int) : Option SlotCheckpoint :=
  checkpoints.reverse.find? fun cur => ¬posNext < cur.posMax ∧ (cur.posMin < posMinThold ∨ cur.posMin = 0)

/-- The largest `pos_min` with which the memory, or a checkpoint, is of use. -/
def posMinThold (p : StartParams) (task : StartTask) (nPast : Nat) (posNext : Int) : Int :=
  max 0 (posNext - p.nSwa - if nPast < task.nTokens then 0 else 1)

/-- Goes back to a checkpoint, or to the beginning, if the memory does not reach back far enough.  The result has
`n_past` and `pos_next`. -/
def SlotPrompt.restore (p : StartParams) (task : StartTask) (s : SlotPrompt) (nPast : Nat) :
    Option (SlotPrompt × Nat × Int) :=
  (s.tokens.posNext nPast).bind fun posNext =>
    if 0 < nPast ∧ nPast ≤ s.nTokens then
      if s.mem.seqPosMin = -1 then none
      else if posMinThold p task nPast posNext ≤ s.mem.seqPosMin then
        match findCheckpoint s.checkpoints posNext (posMinThold p task nPast posNext) with
        | none => some (s, 0, 0)
        | some ckpt =>
          if p.restores ckpt then
            let posNext := min (posNext : Int) (max (ckpt.posMin + 1) ckpt.posMax)
            (s.tokens.sizeUpToPos posNext).map fun n => ({ s with mem := s.mem.load ckpt.cells }, min n ckpt.nTokens, posNext)
          else none
      else some (s, nPast, posNext)
    else some (s, nPast, posNext)

/-- Erases the checkpoints with `pos_max > pos_next`. -/
def SlotPrompt.eraseInvalid (s : SlotPrompt) (posNext : Int) : SlotPrompt :=
  { s with checkpoints := s.checkpoints.filter fun cur => ¬posNext < cur.posMax }

def keepOne (nTokens nPast : Nat) : Nat := if nPast = nTokens ∧ 0 < nPast then nPast - 1 else nPast

inductive Started where
  /-- The slot was released. -/
  | released
  /-- An assertion failed, or an exception was thrown. -/
  | stopped
  | ready (s : SlotPrompt) (nPast : Nat)

/-- `keep_first(n_past)` -/
def SlotPrompt.keep (s : SlotPrompt) (n : Nat) : Started :=
  match s.tokens.keepFirst n with
  | .returned tokens => .ready { s with tokens := tokens } n
  | _ => .stopped

def SlotPrompt.start (p : StartParams) (task : StartTask) (s : SlotPrompt) : Started :=
  if task.nTokens = 0 then .released
  else if !p.canSplit then
    if p.nUbatch < task.nTokens ∨ p.nCtx < task.nTokens then .released else s.keep (keepOne task.nTokens 0)
  else if p.nCtx ≤ task.nTokens then .released
  else
    match (s.reuse p task).bind fun (s, nPast) => s.restore p task nPast with
    | none => .stopped
    | some (s, nPast, posNext) => (s.eraseInvalid posNext).keep (keepOne task.nTokens nPast)

/-- Truncates the memory behind the prompt. -/
def SlotPrompt.trim (s : SlotPrompt) : SlotPrompt := { s with mem := s.mem.seqRm s.tokens.posNextAll (-1) }

end LlamaCpp.Server
