import LlamaCpp.Batch.Allocr

/-!
# Splitting a batch into micro-batches

`split_simple`, `split_equal` and `split_seq` each choose batch indices, mark them
used and hand them to `ubatch_add`.  The choice is kept apart from the packing:
`pickSimple`, `pickEqual` and `pickSeq` return the indices together with the
allocator after the marking (`Picked`), and `Picked.ubatch` packs them.

`pickEqual` has four phases: gather non-overlapping sequence sets
(`gatherSeqSets`), take tokens from all of them in rounds (`expand`), give back
what would leave too short a tail (`keepTail`), and concatenate.
-/

namespace LlamaCpp.LlamaBatchAllocr

/-! ## Marking tokens -/

/-- `used[i] = true; ++n_used`. -/
def takeToken (a : LlamaBatchAllocr) (i : Nat) : LlamaBatchAllocr :=
  { a with used := Function.update a.used i true, nUsed := a.nUsed + 1 }

/-- `used[i] = false; --n_used`. -/
def putBack (a : LlamaBatchAllocr) (i : Nat) : LlamaBatchAllocr :=
  { a with used := Function.update a.used i false, nUsed := a.nUsed - 1 }

def takeTokens (a : LlamaBatchAllocr) (is : List Nat) : LlamaBatchAllocr :=
  is.foldl takeToken a

def putBackAll (a : LlamaBatchAllocr) (is : List Nat) : LlamaBatchAllocr :=
  is.foldl putBack a

def firstUnused (a : LlamaBatchAllocr) : Option Nat :=
  (List.range a.batch.nTokens).find? fun i => !a.used i

/-- The batch indices after `i`, in order. -/
def indicesAfter (a : LlamaBatchAllocr) (i : Nat) : List Nat :=
  List.range' (i + 1) (a.batch.nTokens - (i + 1))

/-- The tokens chosen for a ubatch, and the allocator that has marked them.
`nSeqs = 0` stands for `return {}`. -/
structure Picked where
  idxs : List Nat
  nSeqs : Nat
  equalSeqs : Bool
  allocr : LlamaBatchAllocr

/-- Nothing is left to choose. -/
def pickedNone (a : LlamaBatchAllocr) : Picked := ⟨[], 0, false, a⟩

/-! ## Packing -/

/-- The ubatch of `ubatch_add`: the data of the tokens `idxs`, in that order. -/
def ubatchOf (a : LlamaBatchAllocr) (idxs : List Nat) (nSeqs : Nat) (equalSeqs : Bool) :
    LlamaUbatch :=
  let src := fun i => idxs.getD i 0
  let n := idxs.length
  let unq := (List.finRange llamaMaxSeq).filter fun s =>
    s.val < a.nSeqMax ∧ ∃ i ∈ idxs, s ∈ a.batch.seqSet i
  { bEqualSeqs := equalSeqs, nTokens := n, nSeqTokens := n / nSeqs, nSeqs := nSeqs
    nSeqsUnq := unq.length, nPos := a.nPosPerEmbd
    token := a.batch.token.map fun token i => token (src i)
    embd := a.batch.embd.map fun embd e => embd (src (e / a.nEmbd) * a.nEmbd + e % a.nEmbd)
    -- text broadcasts one position over all sections, embeddings have one per section
    pos := fun p =>
      let off := if a.batch.token.isSome then 0 else p / n * a.batch.nTokens
      a.batch.pos (off + src (p % n))
    seqId := fun i => a.batch.seqIds (src i)
    seqIdUnq := unq
    seqIdx := fun s => if unq.contains s then unq.idxOf s else -1
    output := fun i => a.batch.logits (src i) }

def ubatchAdd (a : LlamaBatchAllocr) (idxs : List Nat) (nSeqs : Nat) (equalSeqs : Bool) :
    LlamaUbatch × LlamaBatchAllocr :=
  (a.ubatchOf idxs nSeqs equalSeqs,
    { a with outIds := a.outIds ++ idxs.filter fun i => a.batch.logits i ≠ 0 })

/-- What a split returns: the empty ubatch, or the chosen tokens packed. -/
def Picked.ubatch (p : Picked) : LlamaUbatch × LlamaBatchAllocr :=
  if p.nSeqs = 0 then (.empty, p.allocr) else p.allocr.ubatchAdd p.idxs p.nSeqs p.equalSeqs

/-! ## `split_simple` -/

/-- The loop of `split_simple` after the first token. -/
def simpleLoop (nUbatch : Nat) : List Nat → List Nat → LlamaBatchAllocr → List Nat × LlamaBatchAllocr
  | [], idxs, a => (idxs, a)
  | i :: is, idxs, a =>
    if nUbatch ≤ idxs.length then (idxs, a)
    else simpleLoop nUbatch is (idxs ++ [i]) (a.takeToken i)

def pickSimple (a : LlamaBatchAllocr) (nUbatch : Nat) : Picked :=
  match a.firstUnused with
  | none => a.pickedNone
  | some i =>
    let (idxs, a') := simpleLoop nUbatch (a.indicesAfter i) [i] (a.takeToken i)
    ⟨idxs, idxs.length, false, a'⟩

/-! ## `split_seq` -/

/-- The loop of `split_seq` after the first token: skip the tokens that are used or
whose set is not a subset of the current one. -/
def seqLoop (nUbatch : Nat) :
    List Nat → Finset SeqId → List Nat → LlamaBatchAllocr → List Nat × LlamaBatchAllocr
  | [], _, idxs, a => (idxs, a)
  | i :: is, curSeqSet, idxs, a =>
    if nUbatch ≤ idxs.length then (idxs, a)
    else if a.used i ∨ curSeqSet ∩ a.batch.seqSet i ≠ a.batch.seqSet i then
      seqLoop nUbatch is curSeqSet idxs a
    else seqLoop nUbatch is (a.batch.seqSet i) (idxs ++ [i]) (a.takeToken i)

def pickSeq (a : LlamaBatchAllocr) (nUbatch : Nat) : Picked :=
  match a.firstUnused with
  | none => a.pickedNone
  | some i =>
    let (idxs, a') :=
      seqLoop nUbatch (a.indicesAfter i) (a.batch.seqSet i) [i] (a.takeToken i)
    ⟨idxs, 1, true, a'⟩

/-! ## `split_equal` -/

/-- The gathering loop: the sets of unused tokens that overlap no set gathered so
far.  A sequential split accepts only consecutive first ids. -/
def gatherLoop (a : LlamaBatchAllocr) (nUbatch : Nat) (sequential : Bool) :
    List Nat → List (Finset SeqId) → Int → List (Finset SeqId)
  | [], cur, _ => cur
  | i :: is, cur, lastSeqId =>
    if a.used i then gatherLoop a nUbatch sequential is cur lastSeqId
    else if cur.all (fun S => S ∩ a.batch.seqSet i = ∅) ∧
        (sequential → cur = [] ∨ a.batch.seqId i 0 = lastSeqId + 1) then
      let cur' := cur ++ [a.batch.seqSet i]
      if nUbatch < cur'.length then cur'
      else gatherLoop a nUbatch sequential is cur' (a.batch.seqId i 0)
    else gatherLoop a nUbatch sequential is cur lastSeqId

/-- The sequence sets that take part in the next ubatch. -/
def gatherSeqSets (a : LlamaBatchAllocr) (nUbatch : Nat) (sequential : Bool) :
    List (Finset SeqId) :=
  gatherLoop a nUbatch sequential (List.range a.batch.nTokens) [] (-1)

/-- One gathered set: its batch indices, the cursor into them (`cur_idx[s]`) and
the indices taken so far (`idxs_per_seq[s]`). -/
structure SeqCursor where
  seqSet : Finset SeqId
  list : List Nat
  cur : Nat
  idxs : List Nat

namespace SeqCursor

def next (c : SeqCursor) : Nat := c.list.getD c.cur 0

def remaining (c : SeqCursor) : Nat := c.list.length - c.cur

def advance (c : SeqCursor) : SeqCursor :=
  { c with cur := c.cur + 1, idxs := c.idxs ++ [c.next] }

end SeqCursor

/-- The cursor of a gathered set, at the first unused token of the set. -/
def cursorOf (a : LlamaBatchAllocr) (S : Finset SeqId) : SeqCursor where
  seqSet := S
  list := a.batch.seqSetMap S
  cur := (a.batch.seqSetMap S).findIdx fun i => !a.used i
  idxs := []

/-- The rounds of `split_equal`: one token of every set, while all sets have one
and the next round still fits.  A round uses up a token of the first set, so
`fuel = n_tokens` is enough. -/
def expand (nUbatch : Nat) : Nat → List SeqCursor → LlamaBatchAllocr →
    List SeqCursor × LlamaBatchAllocr
  | 0, cs, a => (cs, a)
  | fuel + 1, cs, a =>
    if ∃ c ∈ cs, c.list.length ≤ c.cur then (cs, a)
    else
      let a' := a.takeTokens (cs.map SeqCursor.next)
      let cs' := cs.map SeqCursor.advance
      if nUbatch < ((cs'.head?.elim 0 fun c => c.idxs.length) + 1) * cs'.length then (cs', a')
      else expand nUbatch fuel cs' a'

/-- The truncation loop: give back tokens of `c` until `n_keep_tail` remain. -/
def truncate (nKeepTail : Nat) : Nat → SeqCursor → LlamaBatchAllocr → SeqCursor × LlamaBatchAllocr
  | 0, c, a => (c, a)
  | fuel + 1, c, a =>
    if c.remaining < nKeepTail then
      truncate nKeepTail fuel { c with idxs := c.idxs.dropLast, cur := c.cur - 1 }
        (a.putBack (c.idxs.getLastD 0))
    else (c, a)

/-- All sets violate the tail constraint: complete the first one if it fits, else
shorten it. -/
def resolveFirst (nUbatch nKeepTail : Nat) (c : SeqCursor) (a : LlamaBatchAllocr) :
    SeqCursor × LlamaBatchAllocr :=
  if c.idxs.length + c.remaining ≤ nUbatch then
    ({ c with idxs := c.idxs ++ c.list.drop c.cur, cur := c.list.length },
      a.takeTokens (c.list.drop c.cur))
  else truncate nKeepTail c.idxs.length c a

/-- The sets whose tail is either finished or long enough, up to the first that
is not. -/
def nKeepOf (nKeepTail : Nat) (cs : List SeqCursor) : Nat :=
  (cs.takeWhile fun c => ¬(c.remaining ≠ 0 ∧ c.remaining < nKeepTail)).length

/-- The tail phase: the sets that are emitted.  The tokens of the others go back to
the pool. -/
def keepTail (nUbatch nKeepTail : Nat) (cs : List SeqCursor) (a : LlamaBatchAllocr) :
    List SeqCursor × LlamaBatchAllocr :=
  match nKeepOf nKeepTail cs, cs with
  | _, [] => ([], a)
  | 0, c :: rest =>
    let (c', a') := resolveFirst nUbatch nKeepTail c a
    ([c'], a'.putBackAll (rest.flatMap SeqCursor.idxs))
  | n + 1, cs => (cs.take (n + 1), a.putBackAll ((cs.drop (n + 1)).flatMap SeqCursor.idxs))

/-- `none` stands for the failure of `GGML_ASSERT(n_ubatch > n_keep_tail)`. -/
def pickEqual (a : LlamaBatchAllocr) (nUbatch : Nat) (sequential : Bool) (nKeepTail : Nat) :
    Option Picked :=
  if sequential ∧ a.batch.hasCpl then some a.pickedNone
  else
    let sets := a.gatherSeqSets nUbatch sequential
    if sets = [] then some a.pickedNone
    else
      let (cs, a') := expand nUbatch a.batch.nTokens (sets.map a.cursorOf) a
      if nKeepTail = 0 then some ⟨cs.flatMap SeqCursor.idxs, cs.length, true, a'⟩
      else if nUbatch ≤ nKeepTail then none
      else
        let (cs', a'') := keepTail nUbatch nKeepTail cs a'
        some ⟨cs'.flatMap SeqCursor.idxs, cs'.length, true, a''⟩

/-! ## The three splits -/

end LlamaCpp.LlamaBatchAllocr
